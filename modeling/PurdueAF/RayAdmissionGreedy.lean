import PurdueAF.Greedy
import PurdueAF.RayClusters
import PurdueAF.RayGrants

/-!
# What an admission gives is the most it can

The workers a cluster asks for are spread over the flavors of its shape, the first of them
first, each with the room its free GPUs leave.
-/
namespace PurdueAF.Ray
open Greedy RayClusters

/-- The workers that what is available of a flavor suffices for. -/
def roomOf (ask : Ask) (sc : Scene) (f : Flavor) : ℕ :=
  (max 0 (sc.available f / ask.perWorker)).toNat

/-- All that can be given, of what is asked for. -/
def fullWorkers (ask : Ask) (sc : Scene) : ℕ :=
  min ask.wanted (ask.flavors.map (roomOf ask sc)).sum

/-- A mix within what is available, as large as can be, and of the first flavors first. -/
structure Greediest (ask : Ask) (sc : Scene) (mix : Gpus) : Prop where
  within : ∀ f ∈ ask.flavors,
    ((mix.count f.resource * ask.perWorker : ℕ) : ℤ) ≤ max (sc.available f) 0
  total : workers mix = fullWorkers ask sc
  ordered : ∀ f ∈ ask.flavors, ∀ g ∈ ask.flavors, [f, g].Sublist flavors →
    0 < mix.count g.resource →
      sc.available f < ((mix.count f.resource + 1) * ask.perWorker : ℕ)

theorem room_eq (ask : Ask) (sc : Scene) (mix : Gpus) (f : Flavor) :
    room ask sc mix f = min (roomOf ask sc f) (ask.wanted - workers mix) := by
  unfold room roomOf
  omega

/-- The loop over the flavors fills them as `spread` does. -/
theorem foldl_tally_mix (ask : Ask) (sc : Scene) (fs : List Flavor) (t : Tally)
    (hn : (fs.map Flavor.resource).Nodup)
    (hnew : ∀ f ∈ fs, Dict.get? t.mix f.resource = none) :
    (fs.foldl (tally ask sc) t).mix =
      ((spread (roomOf ask sc) (ask.wanted - workers t.mix) fs).map
        fun e => (e.1.resource, e.2)).reverse ++ t.mix := by
  induction fs generalizing t with
  | nil => rfl
  | cons f fs ih =>
    rw [List.map_cons, List.nodup_cons] at hn
    have hmix : (tally ask sc t f).mix = (f.resource, room ask sc t.mix f) :: t.mix := by
      rw [tally, Dict.set, Dict.pop_of_get?_none (hnew f (by simp))]
    have hnext : ∀ g ∈ fs, Dict.get? (tally ask sc t f).mix g.resource = none := by
      intro g hg
      have hne : g.resource ≠ f.resource :=
        fun he => hn.1 (he ▸ List.mem_map_of_mem (f := Flavor.resource) hg)
      rw [hmix, Dict.get?_cons, if_neg hne]
      exact hnew g (List.mem_cons_of_mem _ hg)
    have hworkers : ask.wanted - workers (tally ask sc t f).mix =
        ask.wanted - workers t.mix - room ask sc t.mix f := by
      rw [hmix, workers, Dict.total_cons, ← workers, id_eq]
      omega
    rw [List.foldl_cons, ih _ hn.2 hnext, hworkers, hmix, spread, ← room_eq]
    simp

section Greedy
variable (ask : Ask) (sc : Scene)

theorem greedy_mix : (greedy ask sc).mix =
    ((spread (roomOf ask sc) ask.wanted ask.flavors).map fun e => (e.1.resource, e.2)).reverse := by
  rw [greedy, foldl_tally_mix ask sc ask.flavors ⟨[], none⟩ ask.nodup fun _ _ => rfl]
  simp [workers]

theorem workers_greedy : workers (greedy ask sc).mix = fullWorkers ask sc := by
  rw [greedy_mix, workers, Dict.total, List.map_reverse, List.sum_reverse, List.map_map,
    fullWorkers, ← sum_spread (roomOf ask sc) ask.wanted ask.flavors]
  rfl

theorem count_greedy {f : Flavor} {n : ℕ}
    (h : (f, n) ∈ spread (roomOf ask sc) ask.wanted ask.flavors) :
    Gpus.count (greedy ask sc).mix f.resource = n := by
  have hkeys : ((greedy ask sc).mix.map Prod.fst).Nodup := by
    rw [greedy_mix, List.map_reverse, List.map_map, List.nodup_reverse]
    have hfst : (spread (roomOf ask sc) ask.wanted ask.flavors).map
        (Prod.fst ∘ fun e => (e.1.resource, e.2)) = ask.flavors.map Flavor.resource := by
      conv_rhs => rw [← map_fst_spread (roomOf ask sc) ask.wanted ask.flavors, List.map_map]
      rfl
    rw [hfst]
    exact ask.nodup
  have hmem : (f.resource, n) ∈ (greedy ask sc).mix := by
    rw [greedy_mix, List.mem_reverse]
    exact List.mem_map_of_mem (f := fun e : Flavor × ℕ => (e.1.resource, e.2)) h
  rw [Gpus.count, Dict.get?_of_mem hkeys hmem]
  rfl

theorem roomOf_mul_le (f : Flavor) :
    ((roomOf ask sc f * ask.perWorker : ℕ) : ℤ) ≤ max (sc.available f) 0 := by
  have hp : (0 : ℤ) < ask.perWorker := by exact_mod_cast ask.perWorker_pos
  have hdiv := Int.ediv_mul_le (sc.available f) hp.ne'
  have hcap : (roomOf ask sc f : ℤ) = max 0 (sc.available f / ask.perWorker) :=
    Int.toNat_of_nonneg (le_max_left _ _)
  rw [Nat.cast_mul, hcap]
  rcases le_total (sc.available f / ask.perWorker) 0 with h | h
  · rw [max_eq_left h, zero_mul]
    exact le_max_right _ _
  · rw [max_eq_right h]
    exact hdiv.trans (le_max_left _ _)

/-- One worker more than that has no GPUs. -/
theorem lt_roomOf_succ_mul (f : Flavor) :
    sc.available f < ((roomOf ask sc f + 1) * ask.perWorker : ℕ) := by
  have hp : (0 : ℤ) < ask.perWorker := by exact_mod_cast ask.perWorker_pos
  have hcap : (roomOf ask sc f : ℤ) = max 0 (sc.available f / ask.perWorker) :=
    Int.toNat_of_nonneg (le_max_left _ _)
  have hle : sc.available f / ask.perWorker < roomOf ask sc f + 1 := by omega
  have hlt := (Int.ediv_lt_iff_lt_mul hp).mp hle
  exact_mod_cast hlt

end Greedy

/-- A shape keeps the order of the flavors. -/
theorem sublist_ask_flavors {s : Shape} {ask : Ask} (hs : s.ask = some ask) {f g : Flavor}
    (hf : f ∈ ask.flavors) (hg : g ∈ ask.flavors) (hfg : [f, g].Sublist flavors) :
    [f, g].Sublist ask.flavors := by
  obtain ⟨m, p, heq⟩ : ∃ m p, ask.flavors = Shape.flavors m p := by
    unfold Shape.ask at hs
    split at hs
    · split_ifs at hs
      cases hs
      exact ⟨_, _, rfl⟩
    · cases hs
  rw [heq] at hf hg ⊢
  have hkeep : [f, g].filter (fun f => decide (m ≤ f.memory) && decide (p ≤ f.perWorker)) =
      [f, g] := by
    apply List.filter_eq_self.mpr
    intro k hk
    rcases List.mem_pair.mp hk with rfl | rfl
    · exact (List.mem_filter.mp hf).2
    · exact (List.mem_filter.mp hg).2
  rw [← hkeep]
  exact hfg.filter _

theorem greediest_greedy {s : Shape} {ask : Ask} (hs : s.ask = some ask) (sc : Scene) :
    Greediest ask sc (greedy ask sc).mix := by
  refine ⟨fun f hf => ?_, workers_greedy ask sc, fun f hf g hg hfg hpos => ?_⟩
  · obtain ⟨n, hn⟩ := exists_mem_spread (roomOf ask sc) hf ask.wanted
    rw [count_greedy ask sc hn]
    have hle := Nat.mul_le_mul_right ask.perWorker (le_of_mem_spread _ hn).1
    exact le_trans (by exact_mod_cast hle) (roomOf_mul_le ask sc f)
  · obtain ⟨n, hn⟩ := exists_mem_spread (roomOf ask sc) hf ask.wanted
    obtain ⟨m, hm⟩ := exists_mem_spread (roomOf ask sc) hg ask.wanted
    rw [count_greedy ask sc hm] at hpos
    rw [count_greedy ask sc hn,
      eq_cap_of_later _ (sublist_ask_flavors hs hf hg hfg) ask.nodup.of_map hn hm hpos]
    exact lt_roomOf_succ_mul ask sc f

/-- In the eviction case the mix is one worker. -/
theorem workers_mixOf (ask : Ask) (sc : Scene) :
    workers (mixOf ask sc) = if (evicts ask sc).isSome then 1 else fullWorkers ask sc := by
  cases h : evicts ask sc with
  | none => simp [mixOf, h, workers_greedy]
  | some r =>
    have hzero : workers (greedy ask sc).mix = 0 := by
      rw [evicts] at h
      split_ifs at h with hc
      exact hc.2
    rw [workers] at hzero
    have hpop := Dict.total_pop_le id (greedy ask sc).mix r
    simp only [mixOf, h, workers, Dict.total_set, id_eq, Option.isSome_some, if_true]
    omega

theorem result_eq_error_iff (c : AdmitCall) (free : Option Free) (grants : Grants) :
    (∃ e, c.result free grants = .error e) ↔
      workers (mixOf c.ask (c.scene free grants)) < c.ask.least := by
  simp only [AdmitCall.result, admitMix]
  split_ifs with h
  · exact iff_of_true ⟨_, rfl⟩ h
  · exact iff_of_false (by rintro ⟨e, he⟩; cases he) h

def admitCall (a : Admission) (ask : Ask) (now : ℤ) (cs : List RayCluster) : AdmitCall :=
  ⟨now, a.name, ask, a.shape.memory, a.replaced, othersOf cs⟩

/-- The gateway's step after `free_gpus` leaves the grants that one call leaves: the table it
finds is the one that the listing has cleared of expired grants. -/
theorem grants_decided {g : Gateway} {a : Admission} {ask : Ask} (hask : a.shape.ask = some ask)
    {now : ℤ} {grants : Grants} (hg : g.grants = liveGrants now grants) (cs : List RayCluster)
    (free : Option Free) :
    (decided g a now (a.scene free (grantedBut a.name g.grants)
      (Dict.pop (othersOf cs) a.name))).mem.grants = (admitCall a ask now cs).after free grants := by
  have hscene : a.scene free (grantedBut a.name g.grants) (Dict.pop (othersOf cs) a.name) =
      (admitCall a ask now cs).scene free grants := by rw [hg]; rfl
  have hresult : admitMix ask a.shape.memory ((admitCall a ask now cs).scene free grants) =
      (admitCall a ask now cs).result free grants := rfl
  simp only [decided, hask, hscene, hresult, AdmitCall.after]
  cases (admitCall a ask now cs).result free grants with
  | error e => exact hg
  | ok mix =>
    have hkept : ∀ g : Gateway, (admitted g a mix).mem.grants = g.grants := by
      intro g
      unfold admitted
      cases a.next <;> rfl
    exact (hkept _).trans (by rw [hg]; rfl)

theorem admit_greediest {s : Shape} {c : AdmitCall} (hs : s.ask = some c.ask)
    (free : Option Free) (grants : Grants) :
    (evicts c.ask (c.scene free grants) = none → ∀ mix, c.result free grants = .ok mix →
      Greediest c.ask (c.scene free grants) mix) ∧
    ((∃ e, c.result free grants = .error e) ↔
      (if (evicts c.ask (c.scene free grants)).isSome then 1
        else fullWorkers c.ask (c.scene free grants)) < c.ask.least) ∧
    ((∃ e, c.result free grants = .error e) →
      ∀ entry, entry ∈ c.after free grants ↔ entry ∈ grants ∧ c.now < entry.2.expires) ∧
    ∀ (g : Gateway) (a : Admission) (cs : List RayCluster), a.shape = s →
      c = admitCall a c.ask c.now cs → g.grants = liveGrants c.now grants →
        (decided g a c.now (a.scene free (grantedBut a.name g.grants)
          (Dict.pop (othersOf cs) a.name))).mem.grants = c.after free grants := by
  refine ⟨fun hevict mix hmix => ?_, ?_, ?_, fun g a cs hshape hc hg => ?_⟩
  · have heq : mix = (greedy c.ask (c.scene free grants)).mix := by
      rw [result_ok hmix, mixOf, hevict]
    rw [heq]
    exact greediest_greedy hs _
  · rw [result_eq_error_iff, workers_mixOf]
  · rintro ⟨e, he⟩ entry
    rw [after_of_error he, liveGrants, List.mem_filter, decide_eq_true_iff]
  · have hgrants := grants_decided (hshape ▸ hs) hg cs free
    rwa [← hc] at hgrants

def threeWorkers : Shape where
  env := "/work/env"
  workers := "3"
  memory := "5"
  cpus := "4"
  ram := "16"
  perWorker := "1"
  least := "2"

def threeFree : Free := [("nvidia.com/mig-1g.5gb", (2, 0)), ("nvidia.com/gpu", (4, 0))]

def threeAsk : Ask where
  wanted := 3
  least := 2
  perWorker := 1
  flavors := Shape.flavors 5 1
  wanted_pos := by decide
  perWorker_pos := Nat.one_pos
  known _ hf := (List.mem_filter.mp hf).1
  nodup := Shape.flavors_nodup 5 1

theorem admit_greediest_threeWorkers :
    let c : AdmitCall := ⟨0, "ray-train-user-a", threeAsk, "5", [], []⟩
    threeWorkers.ask = some c.ask ∧ workers (mixOf c.ask (c.scene (some threeFree) [])) = 3 ∧
      Greediest c.ask (c.scene (some threeFree) []) (mixOf c.ask (c.scene (some threeFree) [])) := by
  intro c
  have hs : threeWorkers.ask = some c.ask := by
    have hw : int? threeWorkers.workers = some 3 := by decide +kernel
    have hl : int? threeWorkers.least = some 2 := by decide +kernel
    have hp : int? threeWorkers.perWorker = some 1 := by decide +kernel
    have hm : float? threeWorkers.memory = some 5 := by decide +kernel
    simp only [Shape.ask, hw, hl, hp, hm]
    rfl
  have hworkers : workers (mixOf c.ask (c.scene (some threeFree) [])) = 3 := by decide +kernel
  have hevict : evicts c.ask (c.scene (some threeFree) []) = none := by decide +kernel
  have hresult : c.result (some threeFree) [] = .ok (mixOf c.ask (c.scene (some threeFree) [])) := by
    rw [AdmitCall.result, admitMix, if_neg (by rw [hworkers]; decide)]
  exact ⟨hs, hworkers, (admit_greediest hs _ _).1 hevict _ hresult⟩

end PurdueAF.Ray
