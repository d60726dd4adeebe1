import PurdueAF.RayClusterSteps

/-!
# The names GPUs are counted under

`admit` counts a RayJob's cluster under the name of the RayJob and a user's own under its
name. No two clusters are counted under one name, and a name that a submission draws is
no one else's until its RayJob is created.
-/
namespace PurdueAF.RayClusters
open Ray RayNaming Coroutine

/-- The name a cluster's GPUs count under: its RayJob's, or its own. -/
def RayCluster.key (c : RayCluster) : String := c.rayJob.getD c.name

structure Named (w : World) (g : Gateway) : Prop where
  own : ∀ c ∈ w.clusters, c.rayJob = none → ∃ u : User, c.name = u.cluster
  made : ∀ c ∈ w.clusters, ∀ n, c.rayJob = some n →
    n ∈ g.drawn ∧ ∃ owner cluster key, n = jobName owner cluster key
  jobs : ∀ j ∈ w.rayJobs, j.name ∈ g.drawn
  jobNames : (w.rayJobs.map RayJob.name).Nodup
  unmade : ∀ j ∈ w.rayJobs, j.made = false → ∀ c ∈ w.clusters, c.rayJob ≠ some j.name
  keys : (w.clusters.map RayCluster.key).Nodup

/-- The name that a submission drew is not in use before its `POST`. -/
def Unused (w : World) (_ : Gateway) (pc : Pc) (r : Option Answer) : Prop :=
  ∀ n, jobOf pc = some n → (∀ u s key mix, pc = .postJob u s key mix → r = none) →
    (∀ c ∈ w.clusters, c.rayJob ≠ some n) ∧ ∀ j ∈ w.rayJobs, j.name ≠ n

/-- No two submissions drew the same name. -/
abbrev Drawn : St → Prop :=
  Exclusive (fun g (n : String) => decide (n ∈ g.drawn)) fun pc n => jobOf pc = some n

variable {w w' : World} {g g' : Gateway}

theorem drawn_step {s s' : St} {x : Act} (h : Drawn s) (hs : program.step s x = some s') :
    Drawn s' := by
  refine h.step (fun w g i r hr => ?_) (fun w g pc a r hr => ?_) (fun w g e w' g' he k hk => ?_) hs
  · rcases start_cases hr with ⟨hg, rfl⟩ | ⟨why, rfl⟩ | ⟨hj, rfl⟩ | ⟨n, hj, hn, rfl⟩
    · exact .of_eq rfl (by simp [awaiting, jobOf])
    · exact .of_eq rfl (by simp)
    · exact .of_eq rfl (by simp [awaiting, jobOf, hj])
    · refine ⟨fun k _ hk => ?_, fun k pc hpc hk _ => ?_, fun _ _ _ _ h => h.elim⟩
      · simp only [awaiting, decide_eq_true_eq, List.mem_cons] at hk ⊢
        exact .inr hk
      · cases hpc
        obtain rfl : n = k := Option.some.inj (hj.symm.trans hk)
        exact ⟨by simpa using hn, by simp [awaiting]⟩
  · have he : Effect w g pc a r := resume_effect hr
    exact .of_eq (by simp [he.drawn]) fun n pc' hpc' hn => (he.next pc' hpc').job n hn
  · obtain ⟨_, _, _, _, _, hd⟩ := env_keeps he
    simpa [hd] using hk

theorem key_own {c : RayCluster} (h : c.rayJob = none) : c.key = c.name := by
  simp [RayCluster.key, h]

theorem key_made {c : RayCluster} {n : String} (h : c.rayJob = some n) : c.key = n := by
  simp [RayCluster.key, h]

/-- A name that no cluster has is no cluster's key, if it is a user's. -/
theorem Named.key_ne_cluster (hN : Named w g) {u : User} (hf : w.find u.cluster = none)
    {c : RayCluster} (hc : c ∈ w.clusters) : c.key ≠ u.cluster := by
  intro hk
  cases hj : c.rayJob with
  | none =>
    have hne : c.name ≠ u.cluster := by simpa using List.find?_eq_none.mp hf c hc
    exact hne (key_own hj ▸ hk)
  | some n =>
    obtain ⟨_, owner, cluster, key, rfl⟩ := hN.made c hc n hj
    rw [key_made hj] at hk
    refine clusterName_ne_jobName u.name owner cluster key "" ?_
    rw [String.append_empty]
    exact hk.symm

/-- A RayJob's name is no cluster's key, if it is no made cluster's. -/
theorem Named.key_ne_job (hN : Named w g) {owner cluster key : String}
    (hf : ∀ c ∈ w.clusters, c.rayJob ≠ some (jobName owner cluster key))
    {c : RayCluster} (hc : c ∈ w.clusters) : c.key ≠ jobName owner cluster key := by
  intro hk
  cases hj : c.rayJob with
  | none =>
    obtain ⟨u, hu⟩ := hN.own c hc hj
    rw [key_own hj, hu] at hk
    refine clusterName_ne_jobName u.name owner cluster key "" ?_
    rw [String.append_empty]
    exact hk
  | some n =>
    rw [key_made hj] at hk
    exact hf c hc (by rw [hj, hk])

/-- What the names depend on is the same, or less of it. -/
structure SameNames (w w' : World) : Prop where
  clusters : ∀ c ∈ w'.clusters, ∃ d ∈ w.clusters, d.name = c.name ∧ d.rayJob = c.rayJob
  keys : (w'.clusters.map RayCluster.key).Sublist (w.clusters.map RayCluster.key)
  jobs : ∀ j ∈ w'.rayJobs, j ∈ w.rayJobs
  jobNames : (w'.rayJobs.map RayJob.name).Sublist (w.rayJobs.map RayJob.name)

theorem SameNames.of_eq (hc : w'.clusters = w.clusters) (hj : w'.rayJobs = w.rayJobs) :
    SameNames w w' := by
  refine ⟨fun c h => ⟨c, hc ▸ h, rfl, rfl⟩, by rw [hc], fun j h => hj ▸ h, by rw [hj]⟩

theorem SameNames.mark (p : RayCluster → Bool) (f : RayCluster → RayCluster)
    (hn : ∀ c, (f c).name = c.name) (hj : ∀ c, (f c).rayJob = c.rayJob) :
    SameNames w (w.mark p f) where
  clusters c hc := by
    obtain ⟨d, hd, rfl⟩ := List.mem_map.mp hc
    refine ⟨d, hd, ?_⟩
    split_ifs
    · exact ⟨(hn d).symm, (hj d).symm⟩
    · exact ⟨rfl, rfl⟩
  keys := by
    have hmap : (w.mark p f).clusters.map RayCluster.key = w.clusters.map RayCluster.key := by
      simp only [World.mark, List.map_map]
      refine List.map_congr_left fun c _ => ?_
      simp only [Function.comp]
      split_ifs
      · simp [RayCluster.key, hn, hj]
      · rfl
    rw [hmap]
  jobs _ h := h
  jobNames := List.Sublist.refl _

theorem Named.of_same (hN : Named w g) (h : SameNames w w') (hd : g'.drawn = g.drawn) :
    Named w' g' where
  own c hc hj := by
    obtain ⟨d, hd, hn, hdj⟩ := h.clusters c hc
    rw [← hn]
    exact hN.own d hd (hdj.trans hj)
  made c hc n hj := by
    obtain ⟨d, hdm, hn, hdj⟩ := h.clusters c hc
    rw [hd]
    exact hN.made d hdm n (hdj.trans hj)
  jobs j hj := by
    rw [hd]
    exact hN.jobs j (h.jobs j hj)
  jobNames := hN.jobNames.sublist h.jobNames
  unmade j hj hm c hc := by
    obtain ⟨d, hd, hn, hdj⟩ := h.clusters c hc
    rw [← hdj]
    exact hN.unmade j (h.jobs j hj) hm d hd
  keys := hN.keys.sublist h.keys

theorem Named.mono (hN : Named w g) (h : ∀ n ∈ g.drawn, n ∈ g'.drawn) : Named w g' where
  own := hN.own
  made c hc n hj := ⟨h n (hN.made c hc n hj).1, (hN.made c hc n hj).2⟩
  jobs j hj := h _ (hN.jobs j hj)
  jobNames := hN.jobNames
  unmade := hN.unmade
  keys := hN.keys

theorem Unused.of_same {pc : Pc} {r r' : Option Answer} (hL : Unused w g pc r) (h : SameNames w w')
    (hr : r' = none → r = none) : Unused w' g' pc r' := by
  intro n hn hp
  obtain ⟨hc, hj⟩ := hL n hn fun u s key mix he => hr (hp u s key mix he)
  refine ⟨fun c hmem => ?_, fun j hmem => hj j (h.jobs j hmem)⟩
  obtain ⟨d, hd, _, hdj⟩ := h.clusters c hmem
  rw [← hdj]
  exact hc d hd

/-- KubeRay makes a RayJob's cluster. -/
def World.make (w : World) (j : RayJob) (ending : String) : World :=
  { w.add (j.cluster w ending) with
    rayJobs := w.rayJobs.map fun i => if i = j then { i with made := true } else i }

theorem env_make {key ending : String} (h : env w g (.makeCluster key ending) = some (w', g')) :
    ∃ j ∈ w.rayJobs, j.made = false ∧ w' = w.make j ending := by
  simp only [env] at h
  split at h
  · rename_i j hj
    split_ifs at h
    cases h
    have hp := List.find?_some hj
    simp only [Bool.and_eq_true, Bool.not_eq_true'] at hp
    exact ⟨j, List.mem_of_find?_eq_some hj, hp.2, rfl⟩
  · cases h

/-- By itself the world takes clusters and RayJobs away, or makes a RayJob's cluster. -/
theorem env_names {e : Move} (h : env w g e = some (w', g')) :
    SameNames w w' ∨ ∃ j ending, j ∈ w.rayJobs ∧ j.made = false ∧ w' = w.make j ending := by
  cases e with
  | tick d | declare account | withdraw account | silent cluster =>
    cases h
    exact .inl (.of_eq rfl rfl)
  | remove uid =>
    cases h
    refine .inl ⟨fun c hc => ⟨c, (List.mem_filter.mp hc).1, rfl, rfl⟩, List.filter_sublist.map _,
      fun _ h => h, List.Sublist.refl _⟩
  | removeJob key =>
    cases h
    exact .inl ⟨fun c hc => ⟨c, hc, rfl, rfl⟩, List.Sublist.refl _,
      fun j hj => (List.mem_filter.mp hj).1, List.filter_sublist.map _⟩
  | ready uid up | provision uid all | expireCluster uid =>
    cases h
    exact .inl (.mark _ _ (fun _ => rfl) fun _ => rfl)
  | makeCluster key ending =>
    obtain ⟨j, hj, hm, hw⟩ := env_make h
    exact .inr ⟨j, ending, hj, hm, hw⟩

theorem Named.add_own (hN : Named w g) {u : User} (hf : w.find u.cluster = none) (shape : Shape)
    (mix : Gpus) : Named (w.add (buildCluster w u shape mix)) g where
  own c hc hj := by
    rcases List.mem_append.mp hc with hc | hc
    · exact hN.own c hc hj
    · rw [List.mem_singleton.mp hc]
      exact ⟨u, rfl⟩
  made c hc n hj := by
    rcases List.mem_append.mp hc with hc | hc
    · exact hN.made c hc n hj
    · rw [List.mem_singleton.mp hc] at hj
      cases hj
  jobs := hN.jobs
  jobNames := hN.jobNames
  unmade j hj hm c hc := by
    rcases List.mem_append.mp hc with hc | hc
    · exact hN.unmade j hj hm c hc
    · rw [List.mem_singleton.mp hc]
      nofun
  keys := by
    simp only [World.add, List.map_append, List.map_cons, List.map_nil]
    refine List.nodup_append.mpr ⟨hN.keys, by simp, ?_⟩
    intro k hk k' hk'
    obtain ⟨c, hc, rfl⟩ := List.mem_map.mp hk
    rw [List.mem_singleton.mp hk']
    exact hN.key_ne_cluster hf hc

theorem Named.add_job (hN : Named w g) {u : User} {shape : Shape} {key : String} {mix : Gpus}
    (hd : jobName u.owner u.cluster key ∈ g.drawn)
    (hc : ∀ c ∈ w.clusters, c.rayJob ≠ some (jobName u.owner u.cluster key))
    (hj : ∀ j ∈ w.rayJobs, j.name ≠ jobName u.owner u.cluster key) :
    Named { w with rayJobs := w.rayJobs ++ [buildJob u shape key mix] } g where
  own := hN.own
  made := hN.made
  jobs j hmem := by
    rcases List.mem_append.mp hmem with hmem | hmem
    · exact hN.jobs j hmem
    · rw [List.mem_singleton.mp hmem]
      exact hd
  jobNames := by
    simp only [List.map_append, List.map_cons, List.map_nil]
    refine List.nodup_append.mpr ⟨hN.jobNames, by simp, ?_⟩
    intro k hk k' hk'
    obtain ⟨j, hmem, rfl⟩ := List.mem_map.mp hk
    rw [List.mem_singleton.mp hk']
    exact hj j hmem
  unmade j hmem hm c hcm := by
    rcases List.mem_append.mp hmem with hmem | hmem
    · exact hN.unmade j hmem hm c hcm
    · rw [List.mem_singleton.mp hmem]
      exact hc c hcm
  keys := hN.keys

theorem mem_make {j i : RayJob} {ending : String} (h : i ∈ (w.make j ending).rayJobs) :
    ∃ i' ∈ w.rayJobs, i'.name = i.name ∧ (i.made = false → i' = i ∧ i' ≠ j) := by
  obtain ⟨i', hi', rfl⟩ := List.mem_map.mp h
  refine ⟨i', hi', ?_⟩
  split_ifs with hij
  · exact ⟨rfl, by simp⟩
  · exact ⟨rfl, fun _ => ⟨rfl, hij⟩⟩

theorem Named.make (hN : Named w g) {j : RayJob} (hj : j ∈ w.rayJobs) (hm : j.made = false)
    (ending : String) : Named (w.make j ending) g where
  own c hc hnone := by
    rcases List.mem_append.mp hc with hc | hc
    · exact hN.own c hc hnone
    · rw [List.mem_singleton.mp hc] at hnone
      cases hnone
  made c hc n hn := by
    rcases List.mem_append.mp hc with hc | hc
    · exact hN.made c hc n hn
    · rw [List.mem_singleton.mp hc] at hn
      obtain rfl : j.name = n := Option.some.inj hn
      exact ⟨hN.jobs j hj, _, _, _, rfl⟩
  jobs i hi := by
    obtain ⟨i', hi', hn, _⟩ := mem_make hi
    rw [← hn]
    exact hN.jobs i' hi'
  jobNames := by
    have hmap : (w.make j ending).rayJobs.map RayJob.name = w.rayJobs.map RayJob.name := by
      simp only [World.make, List.map_map]
      refine List.map_congr_left fun i _ => ?_
      simp only [Function.comp]
      split_ifs <;> rfl
    rw [hmap]
    exact hN.jobNames
  unmade i hi hmade c hc := by
    obtain ⟨i', hi', hn, hsame⟩ := mem_make hi
    obtain ⟨rfl, hij⟩ := hsame hmade
    rcases List.mem_append.mp hc with hc | hc
    · exact hN.unmade i' hi' hmade c hc
    · rw [List.mem_singleton.mp hc]
      intro he
      exact hij (List.inj_on_of_nodup_map hN.jobNames hi' hj (Option.some.inj he).symm)
  keys := by
    simp only [World.make, World.add, List.map_append, List.map_cons, List.map_nil]
    refine List.nodup_append.mpr ⟨hN.keys, by simp, ?_⟩
    intro k hk k' hk'
    obtain ⟨c, hc, rfl⟩ := List.mem_map.mp hk
    rw [List.mem_singleton.mp hk']
    exact hN.key_ne_job (hN.unmade j hj hm) hc

/-- The names stay apart, and what a submission drew stays unused until its `POST`. -/
structure NamesInv (s : St) : Prop where
  drawn : Drawn s
  holds : Holds Named Unused s

theorem namesInv_step (s : St) (x : Act) (s' : St) (h : NamesInv s)
    (hs : program.step s x = some s') : NamesInv s' := by
  refine ⟨drawn_step h.drawn hs, ?_⟩
  refine Holds.step (C := fun s _ => Drawn s) ?_ ?_ ?_ ?_ s x s' h.holds h.drawn hs
  · intro s i r h _ hr
    have hothers : ∀ t pc a, s.at t = some ⟨pc, a⟩ → Unused s.world s.mem pc a →
        Unused s.world r.mem pc a := fun _ _ _ _ hL => hL
    rcases start_cases hr with ⟨_, rfl⟩ | ⟨why, rfl⟩ | ⟨hj, rfl⟩ | ⟨n, hj, hn, rfl⟩
    · refine ⟨h.shared.mono fun _ h => h, fun pc hpc n hn => ?_, hothers⟩
      cases hpc
      cases hn
    · exact ⟨h.shared, by simp, hothers⟩
    · refine ⟨h.shared, fun pc hpc n hn => ?_, hothers⟩
      cases hpc
      cases hj.symm.trans hn
    · refine ⟨h.shared.mono fun _ h => List.mem_cons_of_mem _ h, fun pc hpc m hm _ => ?_, hothers⟩
      cases hpc
      obtain rfl : n = m := Option.some.inj (hj.symm.trans hm)
      exact ⟨fun c hc hcn => hn (h.shared.made c hc n hcn).1,
        fun j hjm hjn => hn (hjn ▸ h.shared.jobs j hjm)⟩
  · intro s t c pc w a h hdr ht hv
    have hown := h.each t _ ht
    have hsame (hsn : SameNames s.world w) : Named w s.mem ∧ Unused w s.mem pc (some a) ∧
        ∀ j pc a, j ≠ t → s.at j = some ⟨pc, a⟩ → Unused s.world s.mem pc a →
          Unused w s.mem pc a :=
      ⟨h.shared.of_same hsn rfl, hown.of_same hsn (by simp), fun _ _ _ _ _ hL => hL.of_same hsn id⟩
    rcases serve_cases hv with rfl | ⟨name, why, after, rfl, rfl⟩ |
      ⟨user, shape, goal, mix, rfl, _, hf, rfl⟩ | ⟨user, shape, key, mix, rfl, hnew, rfl⟩
    · exact hsame (.of_eq rfl rfl)
    · exact hsame (.mark _ _ (fun _ => rfl) fun _ => rfl)
    · refine ⟨h.shared.add_own hf shape mix, nofun, fun j pc a _ _ hL n hn hp => ?_⟩
      obtain ⟨hc, hj⟩ := hL n hn hp
      refine ⟨fun c hcm => ?_, hj⟩
      rcases List.mem_append.mp hcm with hcm | hcm
      · exact hc c hcm
      · rw [List.mem_singleton.mp hcm]
        nofun
    · obtain ⟨hc, hj⟩ := hown _ rfl (by simp)
      have hd := hdr.flagged t _ _ ht rfl
      refine ⟨h.shared.add_job (by simpa using hd) hc hj, fun n _ hp => ?_, ?_⟩
      · cases hp user shape key mix rfl
      · intro i pc a hit hi hL n hn hp
        obtain ⟨hc', hj'⟩ := hL n hn hp
        refine ⟨hc', fun j hjm => ?_⟩
        rcases List.mem_append.mp hjm with hjm | hjm
        · exact hj' j hjm
        · rw [List.mem_singleton.mp hjm]
          intro he
          exact hit (hdr.one i t _ _ n hi ht hn (congrArg some he))
  · intro s t pc a r h _ ht hr
    have he : Effect s.world s.mem pc a r := resume_effect hr
    refine ⟨h.shared.of_same (.of_eq rfl rfl) he.drawn, fun pc' hpc' n hn _ => ?_,
      fun _ _ _ _ _ hL => hL⟩
    have hjob := (he.next pc' hpc').job n hn
    refine h.each t _ ht n hjob fun u sh key mix hpc => ?_
    subst hpc
    cases a <;> cases hr <;> cases hpc'
  · intro s e w g h _ he
    obtain ⟨_, _, _, _, _, hd⟩ := env_keeps he
    rcases env_names he with hsn | ⟨j, ending, hj, hm, rfl⟩
    · exact ⟨h.shared.of_same hsn hd, fun _ _ _ _ hL => hL.of_same hsn id⟩
    · refine ⟨(h.shared.make hj hm ending).of_same (.of_eq rfl rfl) hd, ?_⟩
      intro t pc a _ hL n hn hp
      obtain ⟨hc, hjobs⟩ := hL n hn hp
      refine ⟨fun c hcm => ?_, fun i hi => ?_⟩
      · rcases List.mem_append.mp hcm with hcm | hcm
        · exact hc c hcm
        · rw [List.mem_singleton.mp hcm]
          intro he
          exact hjobs j hj (Option.some.inj he)
      · obtain ⟨i', hi', hname, _⟩ := mem_make hi
        rw [← hname]
        exact hjobs i' hi'

theorem namesInv_initial : NamesInv initial where
  drawn := ⟨by simp [initial, State.at], by simp [initial, State.at]⟩
  holds := ⟨⟨by simp [initial], by simp [initial], by simp [initial], by simp [initial],
    by simp [initial], by simp [initial]⟩, by simp [initial, State.at]⟩

end PurdueAF.RayClusters
