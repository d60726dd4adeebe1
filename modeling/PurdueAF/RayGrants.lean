import PurdueAF.RayAdmission

/-!
# The table of grants over sequences of admissions

Every call of `admit` overwrites the grant of its name and drops the expired ones. Under
one answer of Prometheus the live grants of a resource stay within what that answer and
the replaced clusters leave.
-/
namespace PurdueAF.Ray

/-- A call of `admit`: when it is served, for which name, and what it asks and gives back. -/
structure AdmitCall where
  now : ℤ
  name : String
  ask : Ask
  memory : String
  replaced : Gpus
  others : Dict String Gpus

def AdmitCall.scene (c : AdmitCall) (free : Option Free) (grants : Grants) : Scene where
  free := free
  granted := grantedBut c.name (liveGrants c.now grants)
  others := Dict.pop c.others c.name
  replaced := c.replaced

def AdmitCall.result (c : AdmitCall) (free : Option Free) (grants : Grants) :
    Except Refused Gpus :=
  admitMix c.ask c.memory (c.scene free grants)

def AdmitCall.after (c : AdmitCall) (free : Option Free) (grants : Grants) : Grants :=
  match c.result free grants with
  | .ok mix => granting (liveGrants c.now grants) c.name c.ask.perWorker mix c.now
  | .error _ => liveGrants c.now grants

inductive GrantOp
  | admission (call : AdmitCall)
  | expire (keep : String → Bool)

def GrantOp.apply (free : Option Free) (grants : Grants) : GrantOp → Grants
  | .admission c => c.after free grants
  | .expire keep => List.filter (fun e => keep e.1) grants

/-- The table after a sequence of admissions and expiries, from the empty one. -/
def tableAfter (free : Option Free) (ops : List GrantOp) : Grants :=
  ops.foldl (GrantOp.apply free) []

def GrantOp.replacedCount (r : String) : GrantOp → ℕ
  | .admission c => c.replaced.count r
  | .expire _ => 0

def largestReplaced (r : String) (ops : List GrantOp) : ℕ :=
  ops.foldl (fun m op => max m (op.replacedCount r)) 0

/-- The GPUs of a resource that the grants of a table hold together. -/
def grantedOf (r : String) (grants : Grants) : ℕ := Dict.total (fun g => g.gpus.count r) grants

theorem taken_scene (c : AdmitCall) (free : Option Free) (grants : Grants) (r : String) :
    (c.scene free grants).taken r = grantedOf r (Dict.pop (liveGrants c.now grants) c.name) := by
  simp only [Scene.taken, AdmitCall.scene, grantedBut, grantedOf, Dict.total, List.map_map]
  rfl

theorem grantedOf_live_le (now : ℤ) (grants : Grants) (r : String) :
    grantedOf r (liveGrants now grants) ≤ grantedOf r grants :=
  Dict.total_filter_le _ grants _

theorem taken_le (c : AdmitCall) (free : Option Free) (grants : Grants) (r : String) :
    (c.scene free grants).taken r ≤ grantedOf r grants := by
  rw [taken_scene]
  exact (Dict.total_pop_le _ _ _).trans (grantedOf_live_le _ _ _)

theorem after_of_ok {c : AdmitCall} {free : Option Free} {grants : Grants} {mix : Gpus}
    (h : c.result free grants = .ok mix) (r : String) :
    grantedOf r (c.after free grants) =
      mix.count r * c.ask.perWorker + (c.scene free grants).taken r := by
  rw [taken_scene]
  simp only [AdmitCall.after, h, granting, grantedOf, Dict.total_set, count_scaled]

theorem after_of_error {c : AdmitCall} {free : Option Free} {grants : Grants} {e : Refused}
    (h : c.result free grants = .error e) : c.after free grants = liveGrants c.now grants := by
  simp only [AdmitCall.after, h]

theorem result_ok {c : AdmitCall} {free : Option Free} {grants : Grants} {mix : Gpus}
    (h : c.result free grants = .ok mix) : mix = mixOf c.ask (c.scene free grants) := by
  simp only [AdmitCall.result, admitMix] at h
  split_ifs at h
  exact (Except.ok.inj h).symm

section Known
variable {free : Free} {r : String} {U : ℕ} {P : ℤ} (hfree : Dict.get? free r = some (U, P))
include hfree

theorem available_known {sc : Scene} (hs : sc.free = some free) {f : Flavor}
    (hf : f.resource = r) :
    sc.available f = U + sc.replaced.count r - sc.taken r := by
  simp [Scene.available, hs, hf, hfree]

theorem evictable_known {sc : Scene} (hs : sc.free = some free) {f : Flavor}
    (hf : f.resource = r) (he : sc.evictable f = true) :
    (sc.taken r : ℤ) + 1 ≤ U + P - sc.replaced.count r := by
  simp only [Scene.evictable, hs, hf, hfree, Option.getD_some, decide_eq_true_eq] at he
  omega

/-- An admission that evicts no one leaves what was free or given back, or what the others
hold, whichever is more. -/
theorem after_le_of_not_evicts {c : AdmitCall} {grants : Grants} {mix : Gpus}
    (h : c.result (some free) grants = .ok mix)
    (he : evicts c.ask (c.scene (some free) grants) = none) :
    (grantedOf r (c.after (some free) grants) : ℤ) ≤
      max ((U : ℤ) + c.replaced.count r) ((c.scene (some free) grants).taken r) := by
  have hmix : mix = (greedy c.ask (c.scene (some free) grants)).mix := by
    rw [result_ok h, mixOf, he]
  rw [after_of_ok h, hmix]
  rcases greedy_count c.ask (c.scene (some free) grants) r with h0 | ⟨f, -, hf, hle⟩
  · simp [h0]
  · rw [available_known hfree rfl hf] at hle
    have hrep : (c.scene (some free) grants).replaced = c.replaced := rfl
    rw [hrep] at hle
    rcases le_max_iff.mp hle with hle | hle
    · refine le_max_of_le_left ?_
      push_cast at hle ⊢
      linarith
    · refine le_max_of_le_right ?_
      push_cast at hle ⊢
      linarith

theorem after_le_of_evicts {c : AdmitCall} {grants : Grants} {mix : Gpus} {q : String}
    (h : c.result (some free) grants = .ok mix)
    (he : evicts c.ask (c.scene (some free) grants) = some q) :
    (grantedOf r (c.after (some free) grants) : ℤ) ≤
      max (U + P) ((c.scene (some free) grants).taken r) := by
  obtain ⟨hp, -, hone, f, -, hfq, hev⟩ := evicts_spec he
  rw [after_of_ok h, result_ok h, hone, hp]
  by_cases hq : r = q
  · have hscene : (c.scene (some free) grants).free = some free := rfl
    have hle := evictable_known hfree hscene (hfq.trans hq.symm) hev
    refine le_max_of_le_left ?_
    rw [if_pos hq]
    push_cast
    linarith [Int.natCast_nonneg ((c.scene (some free) grants).replaced.count r)]
  · rw [if_neg hq]
    simp

/-- One operation keeps the bound, with the replaced GPUs of that operation counted. -/
theorem apply_le (grants : Grants) (op : GrantOp) (R : ℕ)
    (hle : (grantedOf r grants : ℤ) ≤ max (U + P) (U + R)) :
    (grantedOf r (op.apply (some free) grants) : ℤ) ≤
      max (U + P) (U + (max R (op.replacedCount r) : ℕ)) := by
  have hR : (R : ℤ) ≤ (max R (op.replacedCount r) : ℕ) := by exact_mod_cast le_max_left _ _
  have hmono : max ((U : ℤ) + P) (U + R) ≤ max (U + P) (U + (max R (op.replacedCount r) : ℕ)) :=
    max_le_max le_rfl (by omega)
  cases op with
  | expire keep =>
    have h : grantedOf r (List.filter (fun e => keep e.1) grants) ≤ grantedOf r grants :=
      Dict.total_filter_le _ grants _
    have hz : (grantedOf r (List.filter (fun e => keep e.1) grants) : ℤ) ≤ grantedOf r grants := by
      exact_mod_cast h
    exact (hz.trans hle).trans hmono
  | admission c =>
    have htaken : ((c.scene (some free) grants).taken r : ℤ) ≤ max (U + P) (U + R) :=
      le_trans (by exact_mod_cast taken_le c (some free) grants r) hle
    have hrep : (c.replaced.count r : ℤ) ≤ (max R (c.replaced.count r) : ℕ) := by
      exact_mod_cast le_max_right _ _
    simp only [GrantOp.apply, GrantOp.replacedCount] at hmono hrep ⊢
    cases h : c.result (some free) grants with
    | error e =>
      rw [after_of_error h]
      have hlive : (grantedOf r (liveGrants c.now grants) : ℤ) ≤ grantedOf r grants := by
        exact_mod_cast grantedOf_live_le c.now grants r
      exact (hlive.trans hle).trans hmono
    | ok mix =>
      cases he : evicts c.ask (c.scene (some free) grants) with
      | none =>
        refine (after_le_of_not_evicts hfree h he).trans (max_le ?_ (htaken.trans hmono))
        exact le_max_of_le_right (by omega)
      | some q =>
        exact (after_le_of_evicts hfree h he).trans
          (max_le (le_max_left _ _) (htaken.trans hmono))

theorem tableAfter_le (ops : List GrantOp) :
    (grantedOf r (tableAfter (some free) ops) : ℤ) ≤ max (U + P) (U + largestReplaced r ops) := by
  induction ops using List.reverseRecOn with
  | nil => exact le_max_of_le_right (by simp [tableAfter, largestReplaced, grantedOf])
  | append_singleton ops op ih =>
    have h := apply_le hfree _ op _ ih
    simpa only [tableAfter, largestReplaced, List.foldl_append, List.foldl_cons,
      List.foldl_nil] using h

end Known

/-- An admission enters its mix under its name, and leaves the other names' live grants. -/
theorem after_get? {c : AdmitCall} {free : Option Free} {grants : Grants} {mix : Gpus}
    (h : c.result free grants = .ok mix) (n : String) :
    (c.after free grants).get? n =
      if n = c.name then some ⟨scaled c.ask.perWorker mix, c.now + grantS⟩
      else (liveGrants c.now grants).get? n := by
  simp only [AdmitCall.after, h, granting, Dict.get?_set]

/-- No GPU is granted twice under one answer of Prometheus: whatever was admitted,
overwritten, refused or has expired before, a call of `admit` leaves the live grants of a
resource within what is unheld and preemptible, or unheld and given back. What it admits is
granted to its name for as long as a grant lasts, beside the others' live grants. -/
theorem admit_never_grants_twice (free : Free) (r : String) (U : ℕ) (P : ℤ)
    (hfree : Dict.get? free r = some (U, P)) (ops : List GrantOp) (c : AdmitCall) :
    let before := tableAfter (some free) ops
    let sc := c.scene (some free) before
    let after := c.after (some free) before
    (grantedOf r after : ℤ) ≤ max (U + P) (U + largestReplaced r (ops ++ [.admission c])) ∧
    (∀ mix, c.result (some free) before = .ok mix → evicts c.ask sc = none →
      (grantedOf r after : ℤ) ≤ max ((U : ℤ) + c.replaced.count r)
        (grantedOf r (Dict.pop (liveGrants c.now before) c.name))) ∧
    (∀ e, c.result (some free) before = .error e → grantedOf r after ≤ grantedOf r before) ∧
    (∀ mix q, c.result (some free) before = .ok mix → evicts c.ask sc = some q →
      c.ask.perWorker = 1 ∧ (∀ f ∈ c.ask.flavors, sc.available f / c.ask.perWorker < 1) ∧
      ∀ p, (scaled c.ask.perWorker mix).count p = if p = q then 1 else 0) ∧
    (∀ mix, c.result (some free) before = .ok mix → ∀ n, after.get? n =
      if n = c.name then some ⟨scaled c.ask.perWorker mix, c.now + grantS⟩
      else (liveGrants c.now before).get? n) := by
  intro before sc after
  refine ⟨?_, ?_, ?_, ?_, ?_⟩
  · have h := tableAfter_le hfree (ops ++ [.admission c])
    simp only [tableAfter, List.foldl_append, List.foldl_cons, List.foldl_nil] at h
    exact h
  · intro mix h he
    have hle := after_le_of_not_evicts hfree h he
    rwa [taken_scene] at hle
  · intro e h
    simp only [after, after_of_error h]
    exact grantedOf_live_le c.now before r
  · intro mix q h he
    obtain ⟨hp, hfree, hone, -⟩ := evicts_spec he
    refine ⟨hp, fun f hf => ?_, fun p => ?_⟩
    · rw [hp, Nat.cast_one, Int.ediv_one]
      exact hfree f hf
    · rw [count_scaled, result_ok h, hone, hp, mul_one]
  · intro mix h n
    exact after_get? h n

/-- A call for `workers` T4s, one to a worker, that takes one rather than none. -/
def t4Call (now : ℤ) (name : String) (workers : ℕ) (hw : 0 < workers) : AdmitCall where
  now := now
  name := name
  ask := ⟨workers, 1, 1, [⟨"nvidia.com/gpu", 16, 8, 2⟩], hw, by decide, by decide, by decide⟩
  memory := "16"
  replaced := []
  others := []

/-- Two T4s are free and one is preemptible. A call was granted one of the free ones 10 s
before another asks for both: that one is granted the other, and the first grant stays. -/
theorem admit_never_grants_twice_t4 :
    let free : Free := [("nvidia.com/gpu", (2, 1))]
    let ops := [GrantOp.admission (t4Call 0 "ray-train-b" 1 (by decide))]
    let c := t4Call 10 "ray-train-a" 2 (by decide)
    let after := c.after (some free) (tableAfter (some free) ops)
    (grantedOf "nvidia.com/gpu" after : ℤ) ≤
        max ((2 : ℕ) + 1) ((2 : ℕ) + largestReplaced "nvidia.com/gpu" (ops ++ [.admission c])) ∧
      grantedOf "nvidia.com/gpu" after = 2 ∧
      after.get? "ray-train-a" = some ⟨[("nvidia.com/gpu", 1)], 130⟩ ∧
      after.get? "ray-train-b" = some ⟨[("nvidia.com/gpu", 1)], 120⟩ := by
  intro free ops c after
  obtain ⟨hle, -, -, -, hentered⟩ :=
    admit_never_grants_twice free "nvidia.com/gpu" 2 1 (by decide) ops c
  have hmix : c.result (some free) (tableAfter (some free) ops) =
      .ok [("nvidia.com/gpu", 1)] := by
    decide +kernel
  refine ⟨hle, by decide +kernel, ?_, ?_⟩
  · rw [hentered _ hmix]
    decide +kernel
  · rw [hentered _ hmix]
    decide +kernel

end PurdueAF.Ray
