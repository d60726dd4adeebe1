import Mathlib.Tactic.Linarith
import PurdueAF.RayConfig

/-!
# Admission of Ray clusters

`admit` gives a cluster as many of its workers as have free GPUs, flavor by flavor, or
one worker that may evict a preemptible one. What it gives counts as taken, in the
table of grants, until Prometheus can be expected to see the pods.
-/
namespace PurdueAF.Ray

abbrev Gpus := Dict String ℕ

def Gpus.count (g : Gpus) (r : String) : ℕ := (Dict.get? g r).elim 0 id

/-- How many workers a mix has. -/
def workers (mix : Gpus) : ℕ := Dict.total id mix

/-- The GPUs of so many workers of each resource. -/
def scaled (perWorker : ℕ) (mix : Gpus) : Gpus := mix.map fun e => (e.1, e.2 * perWorker)

structure Grant where
  gpus : Gpus
  expires : ℤ
  deriving DecidableEq, Repr

abbrev Grants := Dict String Grant

/-- Of each GPU resource, those no pod holds and those preemptible pods hold. -/
abbrev Free := Dict String (ℕ × ℤ)

def liveGrants (now : ℤ) (grants : Grants) : Grants :=
  List.filter (fun e => decide (now < e.2.expires)) grants

/-- What `admit` judges by: Prometheus's answer, if it gave one, the live grants of the
other names, the GPUs of the other clusters listed, and those the predecessor gives back. -/
structure Scene where
  free : Option Free
  granted : Dict String Gpus
  others : Dict String Gpus
  replaced : Gpus

def grantedBut (name : String) (grants : Grants) : Dict String Gpus :=
  (Dict.pop grants name).map fun e => (e.1, e.2.gpus)

def Scene.taken (sc : Scene) (r : String) : ℕ := Dict.total (fun g => Gpus.count g r) sc.granted

/-- A listed cluster stands for a grant of its name. -/
def Scene.held (sc : Scene) (r : String) : ℕ :=
  Dict.total (fun g => Gpus.count g r) (Dict.overlay sc.granted sc.others)

def Scene.available (sc : Scene) (f : Flavor) : ℤ :=
  match sc.free with
  | none => f.budget - sc.held f.resource
  | some free =>
    let unheld : ℤ := ((Dict.get? free f.resource).getD (0, 0)).1
    unheld + sc.replaced.count f.resource - sc.taken f.resource

def Scene.evictable (sc : Scene) (f : Flavor) : Bool :=
  match sc.free with
  | none => false
  | some free =>
    let found := (Dict.get? free f.resource).getD (0, 0)
    decide (0 < found.1 + found.2 - sc.replaced.count f.resource - sc.taken f.resource)

structure Tally where
  mix : Gpus
  evicting : Option String
  deriving DecidableEq, Repr

/-- The workers flavor `f` may still give, of those asked for. -/
def room (ask : Ask) (sc : Scene) (mix : Gpus) (f : Flavor) : ℕ :=
  (max (min (sc.available f / ask.perWorker) (ask.wanted - workers mix)) 0).toNat

def tally (ask : Ask) (sc : Scene) (t : Tally) (f : Flavor) : Tally where
  mix := Dict.set t.mix f.resource (room ask sc t.mix f)
  evicting := t.evicting.or (if sc.evictable f then some f.resource else none)

def greedy (ask : Ask) (sc : Scene) : Tally := ask.flavors.foldl (tally ask sc) ⟨[], none⟩

/-- The resource of the one worker that may evict a preemptible one. -/
def evicts (ask : Ask) (sc : Scene) : Option String :=
  if ask.perWorker = 1 ∧ workers (greedy ask sc).mix = 0 then (greedy ask sc).evicting else none

def mixOf (ask : Ask) (sc : Scene) : Gpus :=
  match evicts ask sc with
  | some r => Dict.set (greedy ask sc).mix r 1
  | none => (greedy ask sc).mix

def exhausted (ask : Ask) (memory : String) (available : ℕ) : Refused where
  code := .resourceExhausted
  text :=
    let gpus := if ask.perWorker = 1 then "a GPU" else toString ask.perWorker ++ " GPUs"
    let fewer := if 1 < ask.least then
      "ask for fewer with af-n-workers, for those that are free with af-max-workers, or " else ""
    "Your Ray cluster asks for " ++ toString ask.least ++ " workers with " ++ gpus ++ " of " ++
      memory ++ " GB or more each, and Ray clusters can take " ++ toString available ++
      " more now: " ++ fewer ++ "try again later."

/-- `admit`: the workers of each GPU resource, or the refusal. -/
def admitMix (ask : Ask) (memory : String) (sc : Scene) : Except Refused Gpus :=
  let mix := mixOf ask sc
  if workers mix < ask.least then .error (exhausted ask memory (workers mix)) else .ok mix

def granting (grants : Grants) (name : String) (perWorker : ℕ) (mix : Gpus) (now : ℤ) : Grants :=
  Dict.set grants name ⟨scaled perWorker mix, now + grantS⟩

theorem count_scaled (p : ℕ) (mix : Gpus) (r : String) :
    Gpus.count (scaled p mix) r = Gpus.count mix r * p := by
  induction mix with
  | nil => simp [scaled, Gpus.count]
  | cons e mix ih =>
    simp only [scaled, Gpus.count, List.map_cons, Dict.get?_cons] at ih ⊢
    split_ifs
    · rfl
    · exact ih

theorem count_set (g : Gpus) (k r : String) (v : ℕ) :
    Gpus.count (Dict.set g k v) r = if r = k then v else Gpus.count g r := by
  simp only [Gpus.count, Dict.get?_set]
  split_ifs <;> rfl

theorem count_le_workers (mix : Gpus) (r : String) : Gpus.count mix r ≤ workers mix := by
  have h := Dict.get?_add_total_pop_le id mix r
  exact (Nat.le_add_right _ _).trans h

theorem room_mul_le (ask : Ask) (sc : Scene) (mix : Gpus) (f : Flavor) :
    ((room ask sc mix f * ask.perWorker : ℕ) : ℤ) ≤ max (sc.available f) 0 := by
  have hp : (0 : ℤ) < ask.perWorker := by exact_mod_cast ask.perWorker_pos
  have hdiv := Int.ediv_mul_le (sc.available f) hp.ne'
  have hroom : (room ask sc mix f : ℤ) =
      max (min (sc.available f / ask.perWorker) (ask.wanted - workers mix)) 0 :=
    Int.toNat_of_nonneg (le_max_right _ _)
  rw [Nat.cast_mul, hroom]
  rcases le_or_gt (min (sc.available f / ask.perWorker) ((ask.wanted : ℤ) - workers mix)) 0
    with h | h
  · rw [max_eq_right h]
    simp
  · rw [max_eq_left h.le]
    have hmin := min_le_left (sc.available f / ask.perWorker) ((ask.wanted : ℤ) - workers mix)
    have hmul := mul_le_mul_of_nonneg_right hmin hp.le
    exact (hmul.trans hdiv).trans (le_max_left _ _)

theorem foldl_tally_count_of_not_mem (ask : Ask) (sc : Scene) (fs : List Flavor) (t : Tally)
    {r : String} (hr : r ∉ fs.map Flavor.resource) :
    Gpus.count (fs.foldl (tally ask sc) t).mix r = Gpus.count t.mix r := by
  induction fs generalizing t with
  | nil => rfl
  | cons f fs ih =>
    simp only [List.map_cons, List.mem_cons, not_or] at hr
    rw [List.foldl_cons, ih _ hr.2]
    exact (count_set _ _ _ _).trans (if_neg hr.1)

theorem foldl_tally_count (ask : Ask) (sc : Scene) (fs : List Flavor) (t : Tally)
    (hn : (fs.map Flavor.resource).Nodup) {f : Flavor} (hf : f ∈ fs) :
    ∃ mix, Gpus.count (fs.foldl (tally ask sc) t).mix f.resource = room ask sc mix f := by
  induction fs generalizing t with
  | nil => simp at hf
  | cons g fs ih =>
    rw [List.map_cons, List.nodup_cons] at hn
    rw [List.foldl_cons]
    rcases List.mem_cons.mp hf with rfl | hf
    · refine ⟨t.mix, ?_⟩
      rw [foldl_tally_count_of_not_mem ask sc fs _ hn.1]
      exact (count_set _ _ _ _).trans (if_pos rfl)
    · exact ih _ hn.2 hf

/-- The greedy mix takes of each resource no more than is available of a flavor of the
shape, and nothing of any other resource. -/
theorem greedy_count (ask : Ask) (sc : Scene) (r : String) :
    Gpus.count (greedy ask sc).mix r = 0 ∨
      ∃ f ∈ ask.flavors, f.resource = r ∧
        ((Gpus.count (greedy ask sc).mix r * ask.perWorker : ℕ) : ℤ) ≤ max (sc.available f) 0 := by
  by_cases hr : r ∈ ask.flavors.map Flavor.resource
  · obtain ⟨f, hf, rfl⟩ := List.mem_map.mp hr
    obtain ⟨mix, hm⟩ := foldl_tally_count ask sc ask.flavors ⟨[], none⟩ ask.nodup hf
    refine .inr ⟨f, hf, rfl, ?_⟩
    rw [greedy, hm]
    exact room_mul_le ask sc mix f
  · exact .inl (foldl_tally_count_of_not_mem ask sc ask.flavors ⟨[], none⟩ hr)

theorem foldl_tally_evicting (ask : Ask) (sc : Scene) (fs : List Flavor) (t : Tally) {r : String}
    (h : (fs.foldl (tally ask sc) t).evicting = some r) :
    t.evicting = some r ∨ ∃ f ∈ fs, f.resource = r ∧ sc.evictable f = true := by
  induction fs generalizing t with
  | nil => exact .inl h
  | cons f fs ih =>
    rcases ih _ h with hstep | ⟨g, hg, hgr, he⟩
    · simp only [tally, Option.or_eq_some_iff] at hstep
      rcases hstep with hstep | ⟨-, hstep⟩
      · exact .inl hstep
      · split_ifs at hstep with he
        exact .inr ⟨f, by simp, Option.some.inj hstep, he⟩
    · exact .inr ⟨g, List.mem_cons_of_mem _ hg, hgr, he⟩

/-- No worker granted means that no flavor had one free: as long as none is, all those
asked for are still wanted. -/
theorem foldl_tally_workers_zero (ask : Ask) (sc : Scene) (fs : List Flavor) (t : Tally)
    (hn : (fs.map Flavor.resource).Nodup)
    (hnew : ∀ f ∈ fs, Dict.get? t.mix f.resource = none)
    (h : workers (fs.foldl (tally ask sc) t).mix = 0) :
    workers t.mix = 0 ∧ ∀ f ∈ fs, sc.available f < ask.perWorker := by
  induction fs generalizing t with
  | nil => exact ⟨h, by simp⟩
  | cons f fs ih =>
    rw [List.map_cons, List.nodup_cons] at hn
    have hnext : ∀ g ∈ fs, Dict.get? (tally ask sc t f).mix g.resource = none := by
      intro g hg
      have hne : g.resource ≠ f.resource :=
        fun he => hn.1 (he ▸ List.mem_map_of_mem (f := Flavor.resource) hg)
      exact (Dict.get?_set_ne _ _ hne).trans (hnew g (List.mem_cons_of_mem _ hg))
    obtain ⟨h0, hrest⟩ := ih _ hn.2 hnext h
    have hsum : room ask sc t.mix f + workers t.mix = 0 := by
      simpa [workers, tally, Dict.total_set, Dict.pop_of_get?_none (hnew f (by simp))] using h0
    have hmix : workers t.mix = 0 := by omega
    have hroom : room ask sc t.mix f = 0 := by omega
    refine ⟨hmix, fun g hg => ?_⟩
    rcases List.mem_cons.mp hg with rfl | hg
    · have hw : (0 : ℤ) < ask.wanted := by exact_mod_cast ask.wanted_pos
      have hp : (0 : ℤ) < ask.perWorker := by exact_mod_cast ask.perWorker_pos
      have hle := Int.toNat_eq_zero.mp hroom
      rw [hmix] at hle
      have hmin := (le_max_left _ _).trans hle
      have hdiv : sc.available g / ask.perWorker ≤ 0 := by
        rcases min_le_iff.mp hmin with h | h
        · exact h
        · simp only [Nat.cast_zero, sub_zero] at h
          omega
      have hlt := (Int.ediv_lt_iff_lt_mul hp).mp (show sc.available g / ask.perWorker < 1 by omega)
      omega
    · exact hrest g hg

/-- The eviction case: one worker, of one GPU, of one resource whose preemptible GPUs are
not all promised, and only when no flavor of the shape has a worker free. -/
theorem evicts_spec {ask : Ask} {sc : Scene} {r : String} (h : evicts ask sc = some r) :
    ask.perWorker = 1 ∧ (∀ f ∈ ask.flavors, sc.available f < 1) ∧
      (∀ q, Gpus.count (mixOf ask sc) q = if q = r then 1 else 0) ∧
      ∃ f ∈ ask.flavors, f.resource = r ∧ sc.evictable f = true := by
  have hmix : mixOf ask sc = Dict.set (greedy ask sc).mix r 1 := by simp [mixOf, h]
  rw [evicts] at h
  split_ifs at h with hc
  obtain ⟨hp, hw⟩ := hc
  have hfree := (foldl_tally_workers_zero ask sc ask.flavors ⟨[], none⟩ ask.nodup
    (fun _ _ => rfl) hw).2
  refine ⟨hp, fun f hf => ?_, fun q => ?_, ?_⟩
  · have := hfree f hf
    rwa [hp] at this
  · rw [hmix, count_set]
    split_ifs
    · rfl
    · have := count_le_workers (greedy ask sc).mix q
      omega
  · rcases foldl_tally_evicting ask sc ask.flavors ⟨[], none⟩ h with h | h
    · cases h
    · exact h

end PurdueAF.Ray
