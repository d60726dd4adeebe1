import Mathlib.Algebra.BigOperators.Group.Finset.Basic
import PurdueAF.RayClusterNames

/-!
# The GPU budget while Prometheus is silent

What counts against a flavor's budget under one name is the larger of what the clusters of
the name hold, with RayJobs whose cluster is still to be made, and what a call of the name
was admitted with and has not created yet. Only `admit` makes it grow, by at most what the
listing and the grants leave of the budget.
-/
namespace PurdueAF.RayClusters
open Ray RayNaming Coroutine

def groupGpus (groups : List WorkerGroup) (r : String) : ℕ :=
  (groups.map fun g => if g.resource = r then g.replicas * g.perWorker else 0).sum

theorem count_foldl_addHeld (groups : List WorkerGroup) (held : Gpus) {r : String}
    (hr : r ∈ flavors.map Flavor.resource) :
    Gpus.count (groups.foldl addHeld held) r = held.count r + groupGpus groups r := by
  induction groups generalizing held with
  | nil => simp [groupGpus]
  | cons g groups ih =>
    have hcons : groupGpus (g :: groups) r =
        (if g.resource = r then g.replicas * g.perWorker else 0) + groupGpus groups r := rfl
    rw [List.foldl_cons, ih, hcons, ← Nat.add_assoc, addHeld]
    congr 1
    by_cases hg : g.resource = r
    · rw [if_pos (hg ▸ hr), count_set, if_pos hg.symm, if_pos hg, hg]
    · rw [if_neg hg, Nat.add_zero]
      split_ifs
      · rw [count_set, if_neg (Ne.symm hg)]
      · rfl

theorem count_heldGpus (groups : List WorkerGroup) {r : String}
    (hr : r ∈ flavors.map Flavor.resource) : (heldGpus groups).count r = groupGpus groups r := by
  rw [heldGpus, count_foldl_addHeld groups [] hr]
  simp [Gpus.count]

theorem groupGpus_append (xs ys : List WorkerGroup) (r : String) :
    groupGpus (xs ++ ys) r = groupGpus xs r + groupGpus ys r := by
  simp [groupGpus]

theorem groupGpus_workerGroup (resource : String) (perWorker replicas : ℕ) (pre : Bool)
    (r : String) : groupGpus (workerGroup resource perWorker replicas pre) r =
      if resource = r then replicas * perWorker else 0 := by
  unfold workerGroup
  split_ifs with h0 hr hr
  · simp [groupGpus, h0]
  · simp [groupGpus]
  · simp [groupGpus, hr]
  · simp [groupGpus, hr]

/-- The first worker apart, each flavor's groups have the workers its mix has. -/
theorem groupGpus_workerGroups (perWorker : ℕ) (mix : Gpus) (fs : List Flavor) (kept : ℕ)
    (hn : (fs.map Flavor.resource).Nodup) (r : String) :
    groupGpus (workerGroups perWorker mix fs kept) r =
      if r ∈ fs.map Flavor.resource then mix.count r * perWorker else 0 := by
  induction fs generalizing kept with
  | nil => simp [workerGroups, groupGpus]
  | cons f fs ih =>
    rw [List.map_cons, List.nodup_cons] at hn
    rw [workerGroups, groupGpus_append, groupGpus_append, groupGpus_workerGroup,
      groupGpus_workerGroup, ih _ hn.2]
    by_cases hf : f.resource = r
    · have hnot : r ∉ fs.map Flavor.resource := hf ▸ hn.1
      have hsum : min kept (mix.count r) + (mix.count r - kept) = mix.count r := by omega
      rw [if_pos hf, if_pos hf, if_neg hnot, hf, if_pos (by simp [hf]), Nat.add_zero, ← Nat.add_mul, hsum]
    · have hne : r ≠ f.resource := Ne.symm hf
      simp [hf, hne]

theorem count_buildGroups (shape : Shape) (mix : Gpus) {r : String}
    (hr : r ∈ flavors.map Flavor.resource) :
    (heldGpus (buildGroups shape mix)).count r = (scaled (perWorkerOf shape) mix).count r := by
  rw [count_heldGpus _ hr, buildGroups, groupGpus_workerGroups _ _ _ _ flavors_nodup, if_pos hr,
    count_scaled]

/-- What the clusters counted under a name hold of a resource. -/
def held (w : World) (n r : String) : ℕ :=
  (w.clusters.map fun c => if c.key = n then (heldGpus c.groups).count r else 0).sum

/-- What the RayJobs of a name will hold whose cluster KubeRay has not made yet. -/
def toMake (w : World) (n r : String) : ℕ :=
  (w.rayJobs.map fun j =>
    if j.name = n ∧ j.made = false then (heldGpus j.groups).count r else 0).sum

def countOf (granted : Option (String × Gpus)) (n r : String) : ℕ :=
  match granted with
  | some (m, gpus) => if m = n then gpus.count r else 0
  | none => 0

/-- The most of a resource that a call of the name was admitted with and has not created. -/
def pending (s : St) (n r : String) : ℕ :=
  (s.suspended.map fun th => countOf (pendingOf th.pc th.reply) n r).foldr max 0

def load (s : St) (n r : String) : ℕ :=
  max (held s.world n r + toMake s.world n r) (pending s n r)

/-- The clusters that exist and those admitted and not created stay within every budget,
where a cluster and its successor of the same name count as the larger of the two. -/
def WithinBudget (s : St) : Prop :=
  ∀ f ∈ flavors, ∀ names : Finset String,
    ∑ n ∈ names, max (held s.world n f.resource) (pending s n f.resource) ≤ f.budget

variable {w : World} {g : Gateway} {s s' : St} {n r : String}

theorem foldr_max_le {l : List ℕ} {b : ℕ} : l.foldr max 0 ≤ b ↔ ∀ x ∈ l, x ≤ b := by
  induction l with
  | nil => simp
  | cons x l ih => simp [ih]

theorem pending_le {b : ℕ} :
    pending s n r ≤ b ↔ ∀ t th, s.at t = some th → countOf (pendingOf th.pc th.reply) n r ≤ b := by
  rw [pending, foldr_max_le, List.forall_mem_map]
  constructor
  · intro h t th ht
    exact h th (mem_suspended.mpr ⟨t, ht⟩)
  · intro h th hth
    obtain ⟨t, ht⟩ := mem_suspended.mp hth
    exact h t th ht

theorem countOf_le_load {t : ℕ} {th : Suspended Pc Answer} (ht : s.at t = some th) :
    countOf (pendingOf th.pc th.reply) n r ≤ load s n r :=
  (pending_le.mp (le_refl _) t th ht).trans (le_max_right _ _)

theorem world_le_load (s : St) (n r : String) : held s.world n r + toMake s.world n r ≤ load s n r := le_max_left _ _

theorem held_append (w : World) (c : RayCluster) {w' : World}
    (h : w'.clusters = w.clusters ++ [c]) :
    held w' n r = held w n r + if c.key = n then (heldGpus c.groups).count r else 0 := by
  simp [held, h]

theorem held_eq_zero (h : ∀ c ∈ w.clusters, c.key ≠ n) : held w n r = 0 := by
  refine List.sum_eq_zero fun x hx => ?_
  obtain ⟨c, hc, rfl⟩ := List.mem_map.mp hx
  rw [if_neg (h c hc)]

theorem toMake_eq_zero (h : ∀ j ∈ w.rayJobs, j.name = n → j.made = true) : toMake w n r = 0 := by
  refine List.sum_eq_zero fun x hx => ?_
  obtain ⟨j, hj, rfl⟩ := List.mem_map.mp hx
  rw [if_neg]
  rintro ⟨hn, hm⟩
  simp [h j hj hn] at hm

theorem world_mark_le (w : World) (p : RayCluster → Bool) (f : RayCluster → RayCluster)
    (hk : ∀ c, (f c).key = c.key) (hg : ∀ c, (f c).groups = c.groups) :
    held (w.mark p f) n r + toMake (w.mark p f) n r ≤ held w n r + toMake w n r := by
  refine (congrArg (· + toMake w n r) ?_).le
  simp only [held, World.mark, List.map_map]
  congr 1
  refine List.map_congr_left fun c _ => ?_
  simp only [Function.comp]
  split_ifs <;> simp_all

theorem sum_map_filter_le {α : Type*} (l : List α) (p : α → Bool) (f : α → ℕ) :
    ((l.filter p).map f).sum ≤ (l.map f).sum :=
  (List.filter_sublist.map f).sum_le_sum (by simp)

theorem sum_map_erase_add_le {α : Type*} [DecidableEq α] {l : List α} {j : α} (hj : j ∈ l)
    (f : α → ℕ) : (l.map fun i => if i = j then 0 else f i).sum + f j ≤ (l.map f).sum := by
  induction l with
  | nil => cases hj
  | cons i l ih =>
    have hle : (l.map fun i => if i = j then 0 else f i).sum ≤ (l.map f).sum :=
      List.sum_le_sum fun i _ => by split_ifs <;> simp
    simp only [List.map_cons, List.sum_cons]
    rcases List.mem_cons.mp hj with rfl | hj
    · rw [if_pos rfl]
      omega
    · have := ih hj
      split_ifs <;> omega

/-- KubeRay turns what was to be made into what is held. -/
theorem world_make_le {j : RayJob} (hj : j ∈ w.rayJobs) (hm : j.made = false) (ending : String) :
    held (w.make j ending) n r + toMake (w.make j ending) n r ≤ held w n r + toMake w n r := by
  have hheld : held (w.make j ending) n r = held w n r +
      if j.name = n then (heldGpus j.groups).count r else 0 :=
    held_append w (j.cluster w ending) rfl
  have hmake : toMake (w.make j ending) n r +
      (if j.name = n then (heldGpus j.groups).count r else 0) ≤ toMake w n r := by
    have hle := sum_map_erase_add_le hj fun i : RayJob =>
      if i.name = n ∧ i.made = false then (heldGpus i.groups).count r else 0
    simp only [hm, and_true] at hle
    refine le_trans (le_of_eq ?_) hle
    congr 1
    simp only [toMake, World.make, List.map_map]
    congr 1
    refine List.map_congr_left fun i _ => ?_
    simp only [Function.comp]
    split_ifs <;> simp_all
  omega

/-- By itself the world holds no more than before. -/
theorem env_world_le {g' : Gateway} {w' : World} {e : Move} (h : env w g e = some (w', g')) :
    held w' n r + toMake w' n r ≤ held w n r + toMake w n r := by
  cases e with
  | tick d | declare account | withdraw account | silent cluster =>
    cases h
    exact le_refl _
  | remove uid =>
    cases h
    exact Nat.add_le_add_right (sum_map_filter_le _ _ _) _
  | removeJob key =>
    cases h
    exact Nat.add_le_add_left (sum_map_filter_le _ _ _) _
  | ready uid up | provision uid all | expireCluster uid =>
    cases h
    exact world_mark_le w _ _ (by intro _; rfl) (by intro _; rfl)
  | makeCluster key ending =>
    obtain ⟨j, hj, hm, rfl⟩ := env_make h
    exact world_make_le hj hm ending

/-- A served call holds no more than it was admitted with. -/
theorem serve_world_le {w' : World} {pc : Pc} {c : Choice} {a : Answer} (hN : Named w g)
    (hU : Unused w g pc none) (h : serve w pc c = some (w', a))
    (hr : r ∈ flavors.map Flavor.resource) :
    held w' n r + toMake w' n r ≤
      max (held w n r + toMake w n r) (countOf (pendingOf pc none) n r) := by
  rcases serve_cases h with rfl | ⟨name, why, after, rfl, rfl⟩ |
    ⟨user, shape, goal, mix, rfl, _, hf, rfl⟩ | ⟨user, shape, key, mix, rfl, hnew, rfl⟩
  · exact le_max_left _ _
  · exact le_max_of_le_left (world_mark_le w _ _ (by intro _; rfl) (by intro _; rfl))
  · have hheld : held (w.add (buildCluster w user shape mix)) n r = held w n r +
        if user.cluster = n then (heldGpus (buildGroups shape mix)).count r else 0 :=
      held_append w (buildCluster w user shape mix) rfl
    have hmake : toMake (w.add (buildCluster w user shape mix)) n r = toMake w n r := rfl
    rw [hheld, hmake]
    by_cases hn : user.cluster = n
    · subst hn
      have hzero : held w user.cluster r = 0 := held_eq_zero fun c hc => hN.key_ne_cluster hf hc
      have hjobs : toMake w user.cluster r = 0 := toMake_eq_zero fun j _ hjn => by
        have hne := clusterName_ne_jobName user.name j.user.owner j.user.cluster j.key ""
        rw [String.append_empty] at hne
        exact absurd hjn.symm hne
      refine le_max_of_le_right ?_
      simp [hzero, hjobs, countOf, pendingOf, count_buildGroups shape mix hr]
    · rw [if_neg hn]
      exact le_max_left _ _
  · have hmake : toMake { w with rayJobs := w.rayJobs ++ [buildJob user shape key mix] } n r =
        toMake w n r + if jobName user.owner user.cluster key = n then
          (heldGpus (buildGroups shape mix)).count r else 0 := by
      simp [toMake, buildJob, RayJob.name]
    have hheld : held { w with rayJobs := w.rayJobs ++ [buildJob user shape key mix] } n r =
        held w n r := rfl
    rw [hheld, hmake]
    by_cases hn : jobName user.owner user.cluster key = n
    · subst hn
      obtain ⟨hc, _⟩ := hU _ rfl (by simp)
      have hzero : held w (jobName user.owner user.cluster key) r = 0 :=
        held_eq_zero fun c hcm => hN.key_ne_job hc hcm
      have hjobs : toMake w (jobName user.owner user.cluster key) r = 0 :=
        toMake_eq_zero fun j hj hjn => absurd hjn (hnew j hj)
      refine le_max_of_le_right ?_
      simp [hzero, hjobs, countOf, pendingOf, count_buildGroups shape mix hr]
    · rw [if_neg hn]
      exact le_max_left _ _

/-- What `admit` grants in this step. -/
def grantedBy (s : St) : Act → Option (String × Gpus)
  | .resume t =>
    match s.at t with
    | some ⟨pc, some a⟩ => grantsOf pc a
    | _ => none
  | _ => none

/-- What counts under a name grows only by what `admit` grants to it. -/
theorem load_step {x : Act} (hN : NamesInv s) (hs : program.step s x = some s')
    (hr : r ∈ flavors.map Flavor.resource) :
    load s' n r ≤ max (load s n r) (countOf (grantedBy s x) n r) := by
  cases x with
  | call i =>
    obtain ⟨ran, hran, rfl⟩ := Program.step_call hs
    have hnone : ∀ pc, ran.next = some pc → pendingOf pc none = none := by
      intro pc hpc
      rcases start_cases hran with ⟨_, rfl⟩ | ⟨why, rfl⟩ | ⟨_, rfl⟩ | ⟨m, _, _, rfl⟩
      all_goals cases hpc <;> rfl
    refine le_max_of_le_left (max_le (world_le_load s n r) (pending_le.mpr fun t th ht => ?_))
    rw [at_append] at ht
    split_ifs at ht
    · obtain ⟨hpc, hrep⟩ := suspend_eq_some ht
      rw [hrep, hnone _ hpc]
      exact Nat.zero_le _
    · exact countOf_le_load ht
  | serve t c =>
    obtain ⟨pc, w, a, ht, hv, rfl⟩ := Program.step_serve hs
    refine le_max_of_le_left (max_le ?_ (pending_le.mpr fun j th hj => ?_))
    · refine (serve_world_le hN.holds.shared (hN.holds.each t _ ht) hv hr).trans ?_
      exact max_le (world_le_load s n r) (countOf_le_load ht)
    · rw [at_set s _ _ t j _ (by simp [ht])] at hj
      split_ifs at hj
      · obtain rfl := Option.some.inj hj
        rcases pendingOf_reply pc a with hp | hp
        · simp [hp, countOf]
        · rw [hp]
          exact countOf_le_load ht
      · exact countOf_le_load hj
  | resume t =>
    obtain ⟨pc, a, ran, ht, hran, rfl⟩ := Program.step_resume hs
    have he : Effect s.world s.mem pc a ran := resume_effect hran
    have hg : grantedBy s (.resume t) = grantsOf pc a := by simp [grantedBy, ht]
    refine max_le (le_max_of_le_left (world_le_load s n r)) (pending_le.mpr fun j th hj => ?_)
    rw [at_set s _ _ t j _ (by simp [ht])] at hj
    split_ifs at hj
    · obtain ⟨hpc, hrep⟩ := suspend_eq_some hj
      rw [hrep]
      cases hp : pendingOf th.pc none with
      | none => simp [countOf]
      | some m =>
        rcases (he.next _ hpc).pending m hp with h | h
        · rw [← h]
          exact le_max_of_le_left (countOf_le_load ht)
        · rw [hg, h]
          exact le_max_right _ _
    · exact le_max_of_le_left (countOf_le_load hj)
  | env e =>
    obtain ⟨w, g, he, rfl⟩ := Program.step_env hs
    refine le_max_of_le_left (max_le ?_ (pending_le.mpr fun t th ht => countOf_le_load ht))
    exact (env_world_le he).trans (world_le_load s n r)

/-- The admission that takes up a listing in this step, with the listing. -/
def listing (s : St) : Act → Option (Admission × List RayCluster)
  | .resume t =>
    match s.at t with
    | some ⟨.list ad, some (.clusters cs)⟩ => some (ad, cs)
    | _ => none
  | _ => none

/-- Prometheus does not answer. -/
def Silent (_ : St) : Act → Prop
  | .serve _ (.free f) => f = none
  | _ => True

instance decidableSilent (s : St) : ∀ x, Decidable (Silent s x)
  | .serve _ (.free f) => inferInstanceAs (Decidable (f = none))
  | .call _ | .resume _ | .env _ => .isTrue trivial
  | .serve _ .ok | .serve _ (.fail _) | .serve _ .error | .serve _ .lost | .serve _ (.bool _)
  | .serve _ .request | .serve _ (.ended _) => .isTrue trivial

/-- The listing that an admission takes up is current. -/
def Current (s : St) (x : Act) : Prop := ∀ l ∈ listing s x, l.2 = s.world.clusters

instance (s : St) (x : Act) : Decidable (Current s x) :=
  inferInstanceAs (Decidable (∀ l ∈ listing s x, l.2 = s.world.clusters))

/-- What an admission counts under another name: the listed cluster's GPUs, or a grant's. -/
def counted (s : St) (ad : Admission) (cs : List RayCluster) (n r : String) : ℕ :=
  ((Dict.overlay (grantedBut ad.name (liveGrants s.world.now s.mem.grants))
    (Dict.pop (othersOf cs) ad.name)).get? n).elim 0 fun gpus => gpus.count r

/-- What is noted of admissions: the GPUs that a name was last granted, and when that
admission had taken up its listing; nothing once a `POST` under the name was refused. -/
abbrev Admitted := Dict String (Gpus × ℤ)

def Admitted.after (h : Admitted) : Pc → Answer → Admitted
  | .free ad now granted others, .free f =>
    (grantsOf (.free ad now granted others) (.free f)).elim h fun m => Dict.set h m.1 (m.2, now)
  | .post user _ _ _, .failed _ => Dict.pop h user.cluster
  | .postJob user _ key _, .failed _ => Dict.pop h (jobName user.owner user.cluster key)
  | _, _ => h

def Admitted.note (h : Admitted) (s : St) (x : Act) : Admitted :=
  (resumed s x).elim h fun r => h.after r.1 r.2

/-- The GPUs that were granted to a name and are in no cluster yet: a call is still to make
its `POST`, or KubeRay the RayJob's cluster. -/
def unmade (s : St) : List (String × Gpus) :=
  s.suspended.filterMap (fun th => pendingOf th.pc th.reply) ++
    (s.world.rayJobs.filter fun j => !j.made).map fun j => (j.name, heldGpus j.groups)

def Within (gpus more : Gpus) : Prop := ∀ f ∈ flavors, gpus.count f.resource ≤ more.count f.resource

instance (gpus more : Gpus) : Decidable (Within gpus more) :=
  inferInstanceAs (Decidable (∀ f ∈ flavors, gpus.count f.resource ≤ more.count f.resource))

/-- Where an admission takes up its listing, all that was granted to another name and is not
made was granted less than `GRANT_S` ago, no later admission of the name was granted less,
and no cluster of the name with fewer GPUs is listed. -/
def Lasting (h : Admitted) (s : St) (x : Act) : Prop :=
  ∀ l ∈ listing s x, ∀ m ∈ unmade s, m.1 ≠ l.1.name →
    (∃ e ∈ Dict.get? h m.1, s.world.now < e.2 + grantS ∧ Within m.2 e.1) ∧
    ∀ c ∈ l.2, c.key = m.1 → Within m.2 (heldGpus c.groups)

instance (h : Admitted) (s : St) (x : Act) : Decidable (Lasting h s x) :=
  inferInstanceAs (Decidable (∀ l ∈ listing s x, ∀ m ∈ unmade s, m.1 ≠ l.1.name →
    (∃ e ∈ Dict.get? h m.1, s.world.now < e.2 + grantS ∧ Within m.2 e.1) ∧
    ∀ c ∈ l.2, c.key = m.1 → Within m.2 (heldGpus c.groups)))

/-- The table of grants has what was noted, until it expires. -/
def Booked (h : Admitted) (s : St) : Prop :=
  ∀ n e, Dict.get? h n = some e → s.world.now < e.2 + grantS →
    s.mem.grants.get? n = some ⟨e.1, e.2 + grantS⟩

theorem booked_after {h : Admitted} {pc : Pc} {a : Answer}
    (hb : ∀ n e, Dict.get? h n = some e → w.now < e.2 + grantS →
      g.grants.get? n = some ⟨e.1, e.2 + grantS⟩) (n : String) (e : Gpus × ℤ)
    (he : Dict.get? (h.after pc a) n = some e) (hnow : w.now < e.2 + grantS) :
    (grantsAfter w g pc a).get? n = some ⟨e.1, e.2 + grantS⟩ := by
  unfold Admitted.after at he
  split at he
  · rename_i ad now granted others f
    simp only [grantsAfter]
    cases hm : grantsOf (.free ad now granted others) (.free f) with
    | none =>
      rw [hm] at he
      exact hb n e he hnow
    | some m =>
      simp only [hm, Option.elim_some, Dict.get?_set] at he ⊢
      split_ifs at he ⊢
      · cases he
        rfl
      · exact hb n e he hnow
  · rename_i user shape goal mix said
    simp only [grantsAfter, Dict.get?_pop] at he ⊢
    split_ifs at he ⊢
    exact hb n e he hnow
  · rename_i user shape key mix said
    simp only [grantsAfter, Dict.get?_pop] at he ⊢
    split_ifs at he ⊢
    exact hb n e he hnow
  · rename_i hfree hpost hjob
    have hold := hb n e he hnow
    unfold grantsAfter
    split
    · exact Dict.get?_filter_of_kept hold (decide_eq_true hnow)
    · exact absurd rfl (hfree _ _ _ _ _ rfl)
    · exact absurd rfl (hpost _ _ _ _ _ rfl)
    · exact absurd rfl (hjob _ _ _ _ _ rfl)
    · exact hold

theorem booked_step {h : Admitted} {x : Act} (hb : Booked h s) (hs : program.step s x = some s') :
    Booked (h.note s x) s' := by
  cases x with
  | call i =>
    obtain ⟨r, hr, rfl⟩ := Program.step_call hs
    rcases start_cases hr with ⟨_, rfl⟩ | ⟨why, rfl⟩ | ⟨_, rfl⟩ | ⟨n, _, _, rfl⟩
    all_goals exact hb
  | serve t c =>
    obtain ⟨pc, w, a, _, hv, rfl⟩ := Program.step_serve hs
    intro n e he hnow
    rw [serve_now hv] at hnow
    exact hb n e he hnow
  | resume t =>
    obtain ⟨pc, a, r, ht, hr, rfl⟩ := Program.step_resume hs
    intro n e he hnow
    have hnote : h.note s (.resume t) = h.after pc a := by simp [Admitted.note, resumed_of_at ht]
    rw [hnote] at he
    have hgrants : r.mem.grants = grantsAfter s.world s.mem pc a := resume_grants hr
    rw [hgrants]
    exact booked_after hb n e he hnow
  | env e =>
    obtain ⟨w, g, he, rfl⟩ := Program.step_env hs
    obtain ⟨hle, _, hg, -⟩ := env_keeps he
    intro n e' he' hnow
    rw [hg]
    exact hb n e' he' (hle.trans_lt hnow)

/-- An admission counts, under every other name, at least what was admitted and is not
created yet. -/
def Counted (s : St) (x : Act) : Prop :=
  ∀ l ∈ listing s x, ∀ m ∈ unmade s, m.1 ≠ l.1.name →
    ∀ f ∈ flavors, m.2.count f.resource ≤ counted s l.1 l.2 m.1 f.resource

/-- A grant that lasts is counted, or a listed cluster of its name stands for it. -/
theorem counted_of_lasting {h : Admitted} {x : Act} (hb : Booked h s) (hx : Lasting h s x) :
    Counted s x := by
  intro l hl m hm hne f hf
  obtain ⟨⟨e, he, hnow, hwithin⟩, hlisted⟩ := hx l hl m hm hne
  have hgrant := hb m.1 e he hnow
  have hlive : (liveGrants s.world.now s.mem.grants).get? m.1 = some ⟨e.1, e.2 + grantS⟩ :=
    Dict.get?_filter_of_kept hgrant (decide_eq_true hnow)
  have hgranted : (grantedBut l.1.name (liveGrants s.world.now s.mem.grants)).get? m.1 =
      some e.1 := by
    have hmap := Dict.get?_map (Dict.pop (liveGrants s.world.now s.mem.grants) l.1.name)
      Grant.gpus m.1
    rw [Dict.get?_pop_ne _ hne, hlive] at hmap
    exact hmap
  rw [counted, Dict.get?_overlay, Dict.get?_pop_ne _ hne, hgranted]
  cases hother : (othersOf l.2).get? m.1 with
  | none => exact hwithin f hf
  | some gpus =>
    obtain ⟨c, hc, hkey⟩ := List.mem_map.mp (Dict.mem_of_get?_ofPairs hother)
    obtain ⟨hk, rfl⟩ := Prod.mk.inj hkey
    exact hlisted c hc hk f hf

theorem sum_map_key {α : Type*} {l : List α} (k : α → String) (f : α → ℕ)
    (hk : (l.map k).Nodup) {a : α} (ha : a ∈ l) :
    (l.map fun x => if k x = k a then f x else 0).sum = f a := by
  induction l with
  | nil => cases ha
  | cons x l ih =>
    rw [List.map_cons, List.nodup_cons] at hk
    simp only [List.map_cons, List.sum_cons]
    rcases List.mem_cons.mp ha with rfl | ha
    · have hzero : (l.map fun x => if k x = k a then f x else 0).sum = 0 := by
        refine List.sum_eq_zero fun y hy => ?_
        obtain ⟨x, hx, rfl⟩ := List.mem_map.mp hy
        rw [if_neg]
        intro he
        exact hk.1 (he ▸ List.mem_map_of_mem hx)
      rw [if_pos rfl, hzero, Nat.add_zero]
    · have hne : k x ≠ k a := fun he => hk.1 (he ▸ List.mem_map_of_mem ha)
      rw [if_neg hne, ih hk.2 ha, Nat.zero_add]

theorem held_of_mem (hk : (w.clusters.map RayCluster.key).Nodup) {c : RayCluster}
    (hc : c ∈ w.clusters) : held w c.key r = (heldGpus c.groups).count r :=
  sum_map_key RayCluster.key (fun c => (heldGpus c.groups).count r) hk hc

theorem toMake_of_mem (hk : (w.rayJobs.map RayJob.name).Nodup) {j : RayJob}
    (hj : j ∈ w.rayJobs) (hm : j.made = false) :
    toMake w j.name r = (heldGpus j.groups).count r := by
  have h := sum_map_key RayJob.name
    (fun j => if j.made = false then (heldGpus j.groups).count r else 0) hk hj
  rw [if_pos hm] at h
  rw [← h, toMake]
  congr 1
  refine List.map_congr_left fun i _ => ?_
  split_ifs <;> simp_all

theorem othersOf_get? (hk : (w.clusters.map RayCluster.key).Nodup) {c : RayCluster}
    (hc : c ∈ w.clusters) : (othersOf w.clusters).get? c.key = some (heldGpus c.groups) := by
  refine Dict.get?_ofPairs_of_mem ?_ (List.mem_map.mpr ⟨c, hc, rfl⟩)
  rw [List.map_map]
  exact hk

/-- Under the condition nothing of another name is left out. -/
theorem load_le_counted {x : Act} {ad : Admission} {cs : List RayCluster}
    (hN : Named s.world s.mem) (hl : listing s x = some (ad, cs)) (hcur : Current s x)
    (hcnt : Counted s x) {f : Flavor} (hf : f ∈ flavors) (hn : n ≠ ad.name) :
    load s n f.resource ≤ counted s ad cs n f.resource := by
  have hunmade := hcnt _ hl
  obtain rfl : cs = s.world.clusters := hcur _ hl
  refine max_le ?_ (pending_le.mpr fun t th ht => ?_)
  · by_cases hmake : ∃ j ∈ s.world.rayJobs, j.name = n ∧ j.made = false
    · obtain ⟨j, hj, rfl, hm⟩ := hmake
      have hzero : held s.world j.name f.resource = 0 :=
        held_eq_zero fun c hc => hN.key_ne_job (hN.unmade j hj hm) hc
      rw [hzero, Nat.zero_add, toMake_of_mem hN.jobNames hj hm]
      refine hunmade (j.name, heldGpus j.groups) (List.mem_append_right _ ?_) hn f hf
      exact List.mem_map.mpr ⟨j, List.mem_filter.mpr ⟨hj, by simp [hm]⟩, rfl⟩
    · have hzero : toMake s.world n f.resource = 0 := toMake_eq_zero fun j hj hjn => by
        by_contra hm
        exact hmake ⟨j, hj, hjn, by simpa using hm⟩
      rw [hzero, Nat.add_zero]
      by_cases hc : ∃ c ∈ s.world.clusters, c.key = n
      · obtain ⟨c, hc, rfl⟩ := hc
        rw [held_of_mem hN.keys hc, counted, Dict.get?_overlay, Dict.get?_pop_ne _ hn,
          othersOf_get? hN.keys hc]
        exact le_refl _
      · rw [held_eq_zero fun c hcm hk => hc ⟨c, hcm, hk⟩]
        exact Nat.zero_le _
  · cases hp : pendingOf th.pc th.reply with
    | none => simp [countOf]
    | some m =>
      simp only [countOf]
      split_ifs with hm
      · subst hm
        refine hunmade m (List.mem_append_left _ ?_) hn f hf
        exact List.mem_filterMap.mpr ⟨th, mem_suspended.mpr ⟨t, ht⟩, hp⟩
      · exact Nat.zero_le _

/-- Without Prometheus a grant takes no more than the counted clusters leave. -/
theorem grant_le_budget {ad : Admission} {now : ℤ} {granted others : Dict String Gpus}
    {m : String × Gpus}
    (h : grantsOf (.free ad now granted others) (.free none) = some m) {f : Flavor}
    (hf : f ∈ flavors) : m.1 = ad.name ∧ (m.2.count f.resource = 0 ∨ m.2.count f.resource +
      Dict.total (fun g => Gpus.count g f.resource) (Dict.overlay granted others) ≤ f.budget) := by
  simp only [grantsOf] at h
  split at h
  · rename_i ask hask
    split at h
    · rename_i mix hmix
      obtain rfl := Option.some.inj h
      refine ⟨rfl, ?_⟩
      have hev : evicts ask (ad.scene none granted others) = none := by
        by_contra hne
        obtain ⟨q, hq⟩ := Option.ne_none_iff_exists'.mp hne
        obtain ⟨_, _, _, f', _, _, he⟩ := evicts_spec hq
        simp [Scene.evictable, Admission.scene] at he
      have hgreedy : mix = (greedy ask (ad.scene none granted others)).mix := by
        simp only [admitMix] at hmix
        split_ifs at hmix
        obtain rfl := Except.ok.inj hmix
        simp [mixOf, hev]
      simp only [count_scaled, perWorkerOf_of_ask hask, hgreedy]
      rcases greedy_count ask (ad.scene none granted others) f.resource with h0 | ⟨f', hf', hr, hle⟩
      · exact .inl (by simp [h0])
      · obtain rfl : f' = f := List.inj_on_of_nodup_map flavors_nodup (ask.known f' hf') hf hr
        have havail : (ad.scene none granted others).available f' = f'.budget -
            Dict.total (fun g => Gpus.count g f'.resource) (Dict.overlay granted others) := rfl
        rw [havail, le_max_iff] at hle
        omega
    · cases h
  · cases h

/-- One admission at a time. -/
abbrev OneAdmission : St → Prop :=
  Exclusive (fun g (_ : Unit) => g.admitting) fun pc _ => admits pc = true

theorem oneAdmission_step {x : Act} (h : OneAdmission s) (hs : program.step s x = some s') :
    OneAdmission s' := by
  refine h.step (fun w g i r hr => ?_) (fun w g pc a r hr => (resume_effect hr).admitting)
    (fun w g e w' g' he _ hg => ?_) hs
  · rcases start_cases hr with ⟨hg, rfl⟩ | ⟨why, rfl⟩ | ⟨_, rfl⟩ | ⟨n, _, _, rfl⟩
    · exact .of_eq rfl (by simp [awaiting, admits])
    · exact .of_eq rfl (by simp)
    · exact .of_eq rfl (by simp [awaiting, admits])
    · exact .of_eq rfl (by simp [awaiting, admits])
  · obtain ⟨_, _, _, ha, _⟩ := env_keeps he
    rwa [ha]

/-- An admission that waits for Prometheus has counted all that counts under other names. -/
def Snapshot (s : St) : Prop :=
  ∀ t ad now granted others reply, s.at t = some ⟨.free ad now granted others, reply⟩ →
    (∀ f, reply = some (.free f) → f = none) ∧
    ∀ f ∈ flavors, ∀ names : Finset String, ad.name ∉ names → ∑ n ∈ names, load s n f.resource ≤
      Dict.total (fun g => Gpus.count g f.resource) (Dict.overlay granted others)

structure BudgetInv (s : St) : Prop where
  names : NamesInv s
  one : OneAdmission s
  budget : ∀ f ∈ flavors, ∀ names : Finset String, ∑ n ∈ names, load s n f.resource ≤ f.budget
  snapshot : Snapshot s

/-- A coroutine waits for Prometheus because it did before, or takes up a listing now. -/
theorem step_free {x : Act} (hs : program.step s x = some s') {t : ℕ} {ad : Admission} {now : ℤ}
    {granted others : Dict String Gpus} {reply : Option Answer}
    (ht : s'.at t = some ⟨.free ad now granted others, reply⟩) :
    (s.at t = some ⟨.free ad now granted others, reply⟩ ∧ x ≠ .resume t) ∨
    (∃ c a, x = .serve t c ∧ reply = some a ∧ s.at t = some ⟨.free ad now granted others, none⟩ ∧
      serve s.world (.free ad now granted others) c = some (s'.world, a)) ∨
    ∃ cs, x = .resume t ∧ reply = none ∧ s.at t = some ⟨.list ad, some (.clusters cs)⟩ ∧
      granted = grantedBut ad.name (liveGrants s.world.now s.mem.grants) ∧
      others = Dict.pop (othersOf cs) ad.name := by
  cases x with
  | call i =>
    obtain ⟨ran, hran, rfl⟩ := Program.step_call hs
    rw [at_append] at ht
    split_ifs at ht
    · obtain ⟨hpc, _⟩ := suspend_eq_some ht
      rcases start_cases hran with ⟨_, rfl⟩ | ⟨why, rfl⟩ | ⟨_, rfl⟩ | ⟨m, _, _, rfl⟩
      all_goals cases hpc
    · exact .inl ⟨ht, by simp⟩
  | serve j c =>
    obtain ⟨pc, w, a, hj, hv, rfl⟩ := Program.step_serve hs
    rw [at_set s _ _ j t _ (by simp [hj])] at ht
    split_ifs at ht with hjt
    · cases ht
      subst hjt
      exact .inr (.inl ⟨c, a, rfl, rfl, hj, hv⟩)
    · exact .inl ⟨ht, by simp⟩
  | resume j =>
    obtain ⟨pc, a, ran, hj, hran, rfl⟩ := Program.step_resume hs
    rw [at_set s _ _ j t _ (by simp [hj])] at ht
    split_ifs at ht with hjt
    · subst hjt
      obtain ⟨hpc, hrep⟩ := suspend_eq_some ht
      obtain ⟨cs, rfl, rfl, hg, ho⟩ := ((resume_effect hran).next _ hpc).scene _ _ _ _ rfl
      exact .inr (.inr ⟨cs, rfl, hrep, hj, hg, ho⟩)
    · exact .inl ⟨ht, by simpa using hjt⟩
  | env e =>
    obtain ⟨w, g, _, rfl⟩ := Program.step_env hs
    exact .inl ⟨ht, by simp⟩

/-- What grants is an admission that was answered. -/
theorem grantedBy_eq_some {x : Act} {m : String × Gpus} (h : grantedBy s x = some m) :
    ∃ t ad now granted others f, x = .resume t ∧
      s.at t = some ⟨.free ad now granted others, some (.free f)⟩ ∧
      grantsOf (.free ad now granted others) (.free f) = some m := by
  unfold grantedBy at h
  split at h
  · rename_i t
    split at h
    · rename_i pc a ht
      have hpc : ∃ ad now granted others f, pc = .free ad now granted others ∧ a = .free f := by
        unfold grantsOf at h
        split at h
        · exact ⟨_, _, _, _, _, rfl, rfl⟩
        · cases h
      obtain ⟨ad, now, granted, others, f, rfl, rfl⟩ := hpc
      exact ⟨t, ad, now, granted, others, f, rfl, ht, h⟩
    · cases h
  · cases h

/-- A sum in which one term grows stays within a bound that holds with the new value too. -/
theorem sum_le_of_one_grows {names : Finset String} {old new : String → ℕ} {a : String} {c b : ℕ}
    (hothers : ∀ n, n ≠ a → new n ≤ old n) (ha : new a ≤ max (old a) c)
    (hold : ∑ n ∈ names, old n ≤ b) (hrest : c + ∑ n ∈ names.erase a, old n ≤ b) :
    ∑ n ∈ names, new n ≤ b := by
  by_cases hmem : a ∈ names
  · have herase : ∑ n ∈ names.erase a, new n ≤ ∑ n ∈ names.erase a, old n :=
      Finset.sum_le_sum fun n hn => hothers n (Finset.ne_of_mem_erase hn)
    have hnew := Finset.add_sum_erase names new hmem
    have hsum := Finset.add_sum_erase names old hmem
    rcases le_max_iff.mp ha with ha | ha <;> omega
  · refine (Finset.sum_le_sum fun n hn => hothers n ?_).trans hold
    rintro rfl
    exact hmem hn

theorem budget_step {x : Act} (h : BudgetInv s) (hs : program.step s x = some s') {f : Flavor}
    (hf : f ∈ flavors) (names : Finset String) : ∑ n ∈ names, load s' n f.resource ≤ f.budget := by
  have hstep (n : String) := load_step (n := n) h.names hs (List.mem_map_of_mem hf)
  have hold := h.budget f hf names
  cases hg : grantedBy s x with
  | none =>
    refine (Finset.sum_le_sum fun n _ => ?_).trans hold
    simpa [hg, countOf] using hstep n
  | some m =>
    obtain ⟨t, ad, now, granted, others, free, rfl, ht, hm⟩ := grantedBy_eq_some hg
    obtain ⟨hsilent, hsnap⟩ := h.snapshot t ad now granted others _ ht
    obtain rfl := hsilent free rfl
    obtain ⟨hname, hcount⟩ := grant_le_budget hm hf
    have hothers (n : String) (hn : n ≠ ad.name) : load s' n f.resource ≤ load s n f.resource := by
      have hne : m.1 ≠ n := fun he => hn (he.symm.trans hname)
      simpa [hg, countOf, hne] using hstep n
    have hown : load s' ad.name f.resource ≤
        max (load s ad.name f.resource) (m.2.count f.resource) := by
      simpa [hg, countOf, hname] using hstep ad.name
    refine sum_le_of_one_grows hothers hown hold ?_
    have hrest := hsnap f hf (names.erase ad.name) (Finset.notMem_erase _ _)
    rcases hcount with hzero | hle
    · have hall := h.budget f hf (names.erase ad.name)
      omega
    · omega

/-- Nothing is granted while another admission waits for Prometheus. -/
theorem grantedBy_eq_none {x : Act} (h : OneAdmission s) {t : ℕ} {ad : Admission} {now : ℤ}
    {granted others : Dict String Gpus} {reply : Option Answer}
    (ht : s.at t = some ⟨.free ad now granted others, reply⟩) (hx : x ≠ .resume t) :
    grantedBy s x = none := by
  by_contra hne
  obtain ⟨m, hm⟩ := Option.ne_none_iff_exists'.mp hne
  obtain ⟨j, _, _, _, _, _, rfl, hj, _⟩ := grantedBy_eq_some hm
  exact hx (by rw [h.one j t _ _ () hj ht rfl rfl])

theorem snapshot_step {x : Act} (h : BudgetInv s) (hs : program.step s x = some s')
    (hsilent : Silent s x) (hcur : Current s x) (hcnt : Counted s x) : Snapshot s' := by
  intro t ad now granted others reply ht
  have hle (hg : grantedBy s x = none) (f : Flavor) (hf : f ∈ flavors) (names : Finset String) :
      ∑ n ∈ names, load s' n f.resource ≤ ∑ n ∈ names, load s n f.resource := by
    refine Finset.sum_le_sum fun n _ => ?_
    simpa [hg, countOf] using load_step (n := n) h.names hs (List.mem_map_of_mem hf)
  rcases step_free hs ht with ⟨hold, hx⟩ | ⟨c, a, rfl, rfl, hold, hv⟩ | ⟨cs, rfl, rfl, hl, rfl, rfl⟩
  · obtain ⟨hs, hsnap⟩ := h.snapshot t ad now granted others reply hold
    have hg := grantedBy_eq_none h.one hold hx
    exact ⟨hs, fun f hf names hn => (hle hg f hf names).trans (hsnap f hf names hn)⟩
  · obtain ⟨_, hsnap⟩ := h.snapshot t ad now granted others none hold
    refine ⟨fun f hf => ?_, fun f hf names hn => (hle rfl f hf names).trans (hsnap f hf names hn)⟩
    cases c with
    | free f' =>
      obtain rfl : f' = none := hsilent
      obtain ⟨_, rfl⟩ := Prod.mk.inj (Option.some.inj hv)
      cases hf
      rfl
    | _ => cases hv
  · refine ⟨nofun, fun f hf names hn => ?_⟩
    have hg : grantedBy s (.resume t) = none := by simp [grantedBy, hl, grantsOf]
    refine (hle hg f hf names).trans (le_trans (Finset.sum_le_sum fun n hnm => ?_)
      (Dict.sum_get?_le_total _ _ names))
    exact load_le_counted h.names.holds.shared (by simp [listing, hl]) hcur hcnt hf fun he => hn (he ▸ hnm)

theorem budgetInv_step (s : St) (x : Act) (s' : St) (h : BudgetInv s)
    (hx : Silent s x ∧ Current s x ∧ Counted s x) (hs : program.step s x = some s') :
    BudgetInv s' :=
  ⟨namesInv_step s x s' h.names hs, oneAdmission_step h.one hs,
    fun _ hf names => budget_step h hs hf names, snapshot_step h hs hx.1 hx.2.1 hx.2.2⟩

theorem budgetInv_initial : BudgetInv initial where
  names := namesInv_initial
  one := ⟨by simp [initial, State.at], by simp [initial, State.at]⟩
  budget f _ names := by
    simp [load, held, toMake, pending, initial, State.suspended]
  snapshot := by
    intro t ad now granted others reply ht
    simp [initial, State.at] at ht

/-- With Prometheus silent and listings current, a run in which no grant runs out, is
overwritten by less or is hidden by a smaller cluster of its name, while what it was for is
not made, keeps every flavor's budget in every state it reaches. -/
theorem withinBudget_of_lasting {acts : List Act} {s : St}
    (hx : program.Watched Admitted.note (fun h s x => Silent s x ∧ Current s x ∧ Lasting h s x) []
      initial acts)
    (hr : program.run initial acts = some s) : WithinBudget s := by
  have h : Booked _ s ∧ BudgetInv s :=
    Program.run_noted (I := fun h s => Booked h s ∧ BudgetInv s)
      (fun h s x s' hi hx hs => ⟨booked_step hi.1 hs,
        budgetInv_step s x s' hi.2 ⟨hx.1, hx.2.1, counted_of_lasting hi.1 hx.2.2⟩ hs⟩)
      ⟨by simp [Booked], budgetInv_initial⟩ hx hr
  intro f hf names
  refine (Finset.sum_le_sum fun n _ => ?_).trans (h.2.budget f hf names)
  exact max_le_max_right _ (Nat.le_add_right _ _)

def otherUser : User := { name := "bob", account := "bob", uid := 3, gid := 3 }

/-- A call is admitted with 8 T4s and waits for its user's cluster of one to go, which the
next admission then lists in the grant's place. -/
def hiddenRun : List Act :=
  .call (.own hubUser (shapeOf "1") .post) :: creating 0 ++
    .call (.own hubUser (shapeOf "8") .post) ::
      answers 1 [.ok, .ok, .bool false, .ok, .ok, .free none, .ok, .ok] ++
    .call (.own otherUser (shapeOf "8") .post) :: answers 2 [.ok, .ok, .ok, .ok, .free none]

theorem not_withinBudget_hidden :
    ¬∀ acts s, program.Along (fun s x => Silent s x ∧ Current s x) initial acts →
      program.run initial acts = some s → WithinBudget s := by
  intro h
  have halong : program.Along (fun s x => Silent s x ∧ Current s x) initial hiddenRun := by
    decide +kernel
  have hany : (program.run initial hiddenRun).any (fun s => decide
      (8 < max (held s.world hubUser.cluster "nvidia.com/gpu") (pending s hubUser.cluster "nvidia.com/gpu") +
        max (held s.world otherUser.cluster "nvidia.com/gpu") (pending s otherUser.cluster "nvidia.com/gpu"))) = true := by
    decide +kernel
  obtain ⟨s, hs, hover⟩ := (Option.any_eq_true _ _).mp hany
  have hle := h _ s halong hs ⟨"nvidia.com/gpu", 16, 8, 2⟩ (by decide)
    {hubUser.cluster, otherUser.cluster}
  rw [Finset.sum_pair (by decide +kernel)] at hle
  exact absurd hle (Nat.not_le.mpr (of_decide_eq_true hover))

/-- A call is granted 6 T4s, and 100 s later has not made its `POST`: another that asks for 8
is admitted with the 2 left. -/
theorem withinBudget_of_lasting_two :
    let acts := Action.call (.own hubUser (shapeOf "6") .post) ::
        answers 0 [.ok, .ok, .ok, .ok, .free none] ++ .env (.tick 100) ::
      .call (.own otherUser (shapeOf "8") .post) :: answers 1 [.ok, .ok, .ok, .ok, .free none]
    program.Watched Admitted.note (fun h s x => Silent s x ∧ Current s x ∧ Lasting h s x) []
        initial acts ∧
      ∃ s, program.run initial acts = some s ∧
        pending s hubUser.cluster "nvidia.com/gpu" = 6 ∧
        pending s otherUser.cluster "nvidia.com/gpu" = 2 ∧ WithinBudget s := by
  intro acts
  have hx : program.Watched Admitted.note
      (fun h s x => Silent s x ∧ Current s x ∧ Lasting h s x) [] initial acts := by
    decide +kernel
  have hany : (program.run initial acts).any (fun s => decide
      (pending s hubUser.cluster "nvidia.com/gpu" = 6 ∧
        pending s otherUser.cluster "nvidia.com/gpu" = 2)) = true := by
    decide +kernel
  obtain ⟨s, hs, hcount⟩ := (Option.any_eq_true _ _).mp hany
  obtain ⟨hfirst, hsecond⟩ := of_decide_eq_true hcount
  exact ⟨hx, s, hs, hfirst, hsecond, withinBudget_of_lasting hx hs⟩

end PurdueAF.RayClusters
