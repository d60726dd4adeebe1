import PurdueAF.RayClusterSteps

/-!
# What the gateway believes of a live cluster

`start_cluster` checks a cluster's owner and shape once, before it waits for the head,
and `started` keeps the result. A call past that check and an entry of the cache are
beliefs about the live cluster of a name: they stay true until another cluster is
created under it.
-/
namespace PurdueAF.RayClusters
open Ray RayNaming Coroutine

/-- What of a cluster's owner and shape a belief is about, and whether `running`, which
takes a cluster in whatever shape, holds one too. -/
structure Facet (K : Type) where
  of : String → Shape → K
  asRunning : Bool

def ownerFacet : Facet String := ⟨fun owner _ => owner, true⟩

def shapeFacet : Facet Shape := ⟨fun _ shape => shape, false⟩

variable {K : Type} (F : Facet K)

/-- The cluster name a suspended call will go on with, and what it takes its cluster for. -/
def belief (pc : Pc) (r : Option Answer) : Option (String × K) :=
  ((takes pc r).or (if F.asRunning then sees pc r else none)).map fun us =>
    (us.1.cluster, F.of us.1.owner us.2)

/-- The user and shape of the cluster that this action creates, if it creates one. -/
def creates (s : St) : Act → Option (User × Shape)
  | .serve t c =>
    match s.at t with
    | some ⟨.post user shape _ _, none⟩ =>
      if (c = .ok ∨ c = .lost) ∧ (s.world.find user.cluster).isNone then some (user, shape)
      else none
    | _ => none
  | _ => none

/-- No cluster is created under a name that a call past its check, or the cache, still
takes for another. -/
def Unforgotten (s : St) (a : Act) : Prop :=
  ∀ new ∈ creates s a,
    (∀ th ∈ s.suspended, ∀ b ∈ belief F th.pc th.reply,
      b.1 = new.1.cluster → b.2 = F.of new.1.owner new.2) ∧
    ∀ e ∈ s.mem.started.get? new.1.cluster, F.of e.1 e.2 = F.of new.1.owner new.2

instance [DecidableEq K] (s : St) (a : Act) : Decidable (Unforgotten F s a) :=
  inferInstanceAs (Decidable (∀ new ∈ creates s a,
    (∀ th ∈ s.suspended, ∀ b ∈ belief F th.pc th.reply,
      b.1 = new.1.cluster → b.2 = F.of new.1.owner new.2) ∧
    ∀ e ∈ s.mem.started.get? new.1.cluster, F.of e.1 e.2 = F.of new.1.owner new.2))

/-- The belief `b` is true of every live cluster. -/
def TrueOf (w : World) (b : String × K) : Prop :=
  ∀ c ∈ w.clusters, live c = true → c.name = b.1 → F.of c.owner c.shape = b.2

structure Coherent (w : World) (g : Gateway) : Prop where
  names : (w.clusters.map RayCluster.name).Nodup
  keys : ∀ n e, g.started.get? n = some e → ∃ u : User, n = u.cluster
  started : ∀ n o s, g.started.get? n = some (o, s) → TrueOf F w (n, F.of o s)

def Believes (w : World) (_ : Gateway) (pc : Pc) (r : Option Answer) : Prop :=
  ∀ b, belief F pc r = some b → TrueOf F w b

variable {F} {w : World} {g g' : Gateway}

theorem belief_of_takes {pc : Pc} {r : Option Answer} {us : User × Shape}
    (h : takes pc r = some us) : belief F pc r = some (us.1.cluster, F.of us.1.owner us.2) := by
  simp [belief, h]

theorem belief_of_sees {pc : Pc} {r : Option Answer} {us : User × Shape}
    (hF : F.asRunning = true) (h : sees pc r = some us) :
    belief F pc r = some (us.1.cluster, F.of us.1.owner us.2) := by
  have ht : takes pc r = none := by
    unfold sees at h
    split at h
    · rfl
    · cases h
  simp [belief, ht, hF, h]

theorem belief_none {pc : Pc} {x : String × K} (h : belief F pc none = some x) :
    ∃ us, takes pc none = some us ∧ x = (us.1.cluster, F.of us.1.owner us.2) := by
  have hs : sees pc none = none := by cases pc <;> rfl
  obtain ⟨us, hus, rfl⟩ := Option.map_eq_some_iff.mp h
  exact ⟨us, by simpa [hs] using hus, rfl⟩

theorem belief_key {pc : Pc} {r : Option Answer} {x : String × K} (h : belief F pc r = some x) :
    ∃ u : User, x.1 = u.cluster := by
  obtain ⟨us, _, rfl⟩ := Option.map_eq_some_iff.mp h
  exact ⟨us.1, rfl⟩

/-- No cluster is added, and those that are live were live before. -/
structure World.Shrinks (w w' : World) : Prop where
  names : (w'.clusters.map RayCluster.name).Sublist (w.clusters.map RayCluster.name)
  live : ∀ c ∈ w'.clusters, live c = true → ∃ d ∈ w.clusters, RayClusters.live d = true ∧
    d.name = c.name ∧ d.owner = c.owner ∧ d.shape = c.shape

theorem World.Shrinks.of_eq {w' : World} (h : w'.clusters = w.clusters) : w.Shrinks w' where
  names := by rw [h]
  live c hc hl := ⟨c, h ▸ hc, hl, rfl, rfl, rfl⟩

theorem World.Shrinks.mark (p : RayCluster → Bool) (f : RayCluster → RayCluster)
    (hn : ∀ c, (f c).name = c.name) (ho : ∀ c, (f c).owner = c.owner)
    (hs : ∀ c, (f c).shape = c.shape)
    (hl : ∀ c, RayClusters.live (f c) = true → RayClusters.live c = true) :
    w.Shrinks (w.mark p f) where
  names := by
    have hmap : (w.mark p f).clusters.map RayCluster.name = w.clusters.map RayCluster.name := by
      simp only [World.mark, List.map_map]
      refine List.map_congr_left fun c _ => ?_
      simp only [Function.comp]
      split_ifs
      · exact hn c
      · rfl
    rw [hmap]
  live c hc hlive := by
    obtain ⟨d, hd, rfl⟩ := List.mem_map.mp hc
    refine ⟨d, hd, ?_⟩
    split_ifs at hlive ⊢
    · exact ⟨hl d hlive, (hn d).symm, (ho d).symm, (hs d).symm⟩
    · exact ⟨hlive, rfl, rfl, rfl⟩

theorem World.Shrinks.trueOf {w' : World} (h : w.Shrinks w') {x : String × K}
    (hx : TrueOf F w x) : TrueOf F w' x := by
  intro c hc hl hn
  obtain ⟨d, hd, hld, hnd, hod, hsd⟩ := h.live c hc hl
  rw [← hod, ← hsd]
  exact hx d hd hld (hnd.trans hn)

/-- Serving a call takes clusters away, if anything, except where a `POST` creates one. -/
theorem serve_clusters {pc : Pc} {c : Choice} {w' : World} {a : Answer}
    (h : serve w pc c = some (w', a)) :
    w.Shrinks w' ∨ ∃ user shape goal mix, pc = .post user shape goal mix ∧
      (c = .ok ∨ c = .lost) ∧ w.find user.cluster = none ∧
      w' = w.add (buildCluster w user shape mix) := by
  rcases serve_cases h with rfl | ⟨name, why, after, rfl, rfl⟩ | hpost | ⟨_, _, _, _, _, _, _, rfl⟩
  · exact .inl (.of_eq rfl)
  · exact .inl (.mark _ _ (fun _ => rfl) (fun _ => rfl) (fun _ => rfl) (by simp [RayClusters.live]))
  · exact .inr hpost
  · exact .inl (.of_eq rfl)

/-- By itself Kubernetes only takes clusters away and KubeRay makes those of RayJobs,
whose names are no user's. -/
theorem env_clusters {e : Move} {w' : World} (h : env w g e = some (w', g')) :
    (∀ n x, g'.started.get? n = some x → g.started.get? n = some x) ∧
    (w.Shrinks w' ∨ ∃ j ending, w.find (j.name ++ "-" ++ ending) = none ∧
      w'.clusters = w.clusters ++ [RayJob.cluster w j ending]) := by
  cases e with
  | tick d | declare account | withdraw account | removeJob key =>
    cases h
    exact ⟨fun _ _ hx => hx, .inl (.of_eq rfl)⟩
  | silent cluster =>
    cases h
    refine ⟨fun n x hx => ?_, .inl (.of_eq rfl)⟩
    rw [Dict.get?_pop] at hx
    split_ifs at hx
    exact hx
  | remove uid =>
    cases h
    refine ⟨fun _ _ hx => hx, .inl ⟨List.filter_sublist.map _, fun c hc hl => ?_⟩⟩
    exact ⟨c, (List.mem_filter.mp hc).1, hl, rfl, rfl, rfl⟩
  | ready uid up =>
    cases h
    exact ⟨fun _ _ hx => hx,
      .inl (.mark _ _ (fun _ => rfl) (fun _ => rfl) (fun _ => rfl) fun _ hl => hl)⟩
  | provision uid all =>
    cases h
    exact ⟨fun _ _ hx => hx,
      .inl (.mark _ _ (fun _ => rfl) (fun _ => rfl) (fun _ => rfl) fun _ hl => hl)⟩
  | expireCluster uid =>
    cases h
    exact ⟨fun _ _ hx => hx,
      .inl (.mark _ _ (fun _ => rfl) (fun _ => rfl) (fun _ => rfl) (by simp [RayClusters.live]))⟩
  | makeCluster key ending =>
    simp only [env] at h
    split at h
    · split_ifs at h with hf
      cases h
      exact ⟨fun _ _ hx => hx, .inr ⟨_, ending, by simpa using hf, rfl⟩⟩
    · cases h

theorem World.find_none {n : String} (h : w.find n = none) :
    ∀ c ∈ w.clusters, c.name ≠ n := by
  simpa [World.find] using h

theorem nodup_names_append {c : RayCluster} (h : (w.clusters.map RayCluster.name).Nodup)
    (hc : w.find c.name = none) :
    ((w.clusters ++ [c]).map RayCluster.name).Nodup := by
  rw [List.map_append, List.nodup_append]
  refine ⟨h, by simp, ?_⟩
  intro n hn m hm
  obtain ⟨d, hd, rfl⟩ := List.mem_map.mp hn
  obtain rfl : m = c.name := by simpa using hm
  exact World.find_none hc d hd

/-- The cluster a read found is the only one of its name. -/
theorem World.eq_of_find {n : String} {c d : RayCluster}
    (h : (w.clusters.map RayCluster.name).Nodup) (hf : w.find n = some c)
    (hd : d ∈ w.clusters) (hn : d.name = n) : d = c := by
  have hc : c ∈ w.clusters := List.mem_of_find?_eq_some hf
  have hcn : c.name = n := by simpa using List.find?_some hf
  exact List.inj_on_of_nodup_map h hd hc (hn.trans hcn.symm)

/-- Creating a cluster of which `x` holds keeps `x` true. -/
theorem TrueOf.append {x : String × K} {w' : World} {c : RayCluster} (hx : TrueOf F w x)
    (hw : w'.clusters = w.clusters ++ [c]) (hc : c.name = x.1 → F.of c.owner c.shape = x.2) :
    TrueOf F w' x := by
  intro d hd hl hn
  rw [hw, List.mem_append, List.mem_singleton] at hd
  rcases hd with hd | rfl
  · exact hx d hd hl hn
  · exact hc hn

theorem trueOf_of_find {n : String} {c : RayCluster}
    (h : (w.clusters.map RayCluster.name).Nodup) (hf : w.find n = some c) :
    TrueOf F w (n, F.of c.owner c.shape) := by
  intro d hd _ hn
  rw [World.eq_of_find h hf hd hn]

theorem reading_cluster {f f' : Option RayCluster} {c : Choice}
    (h : reading (.cluster f) c = some (.cluster f')) : f' = f := by
  cases c <;> simp_all [reading]

theorem runs_shape {c : RayCluster} {shape : Shape} (h : runs c shape = true) :
    c.shape = shape := by
  simp only [runs, Bool.and_eq_true, decide_eq_true_eq] at h
  exact h.2

/-- What a call reads of its cluster, or creates, is true when it is answered. -/
theorem served_takes {pc : Pc} {c : Choice} {w' : World} {a : Answer} {us : User × Shape}
    (hn : (w.clusters.map RayCluster.name).Nodup) (hb : Believes F w g pc none)
    (h : serve w pc c = some (w', a)) (ht : takes pc (some a) = some us) :
    TrueOf F w' (us.1.cluster, F.of us.1.owner us.2) := by
  have hsame (hpc : ∀ u s goal mix, pc ≠ .post u s goal mix) (he : takes pc none = some us) :
      TrueOf F w' (us.1.cluster, F.of us.1.owner us.2) := by
    rcases serve_clusters h with hs | ⟨u, s, goal, mix, rfl, _⟩
    · exact hs.trueOf (hb _ (belief_of_takes he))
    · exact absurd rfl (hpc u s goal mix)
  cases pc with
  | headUp u s goal => exact hsame (by simp) ht
  | headOpen u s goal => exact hsame (by simp) ht
  | post u s goal mix =>
    cases a with
    | created d =>
      obtain rfl : (u, s) = us := Option.some.inj ht
      obtain ⟨hf, rfl⟩ := serve_created h
      intro d hd _ hdn
      rcases List.mem_append.mp hd with hd | hd
      · exact absurd hdn (World.find_none hf d hd)
      · rw [List.mem_singleton.mp hd]
        rfl
    | _ => cases ht
  | read u s goal | conflict u s goal =>
    obtain ⟨rfl, ha⟩ := reading_world h
    cases a with
    | cluster f =>
      obtain rfl := reading_cluster ha
      cases hf : w'.find u.cluster with
      | none => simp [takes, hf] at ht
      | some c =>
        simp only [takes, hf] at ht
        split_ifs at ht with hc
        cases ht
        rw [← hc.1, ← runs_shape hc.2]
        exact trueOf_of_find hn hf
    | _ => cases ht
  | _ => cases ht

theorem served_sees {pc : Pc} {c : Choice} {w' : World} {a : Answer} {us : User × Shape}
    (hn : (w.clusters.map RayCluster.name).Nodup) (h : serve w pc c = some (w', a))
    (hs : sees pc (some a) = some us) : TrueOf F w' (us.1.cluster, F.of us.1.owner us.2) := by
  cases pc with
  | running u =>
    obtain ⟨rfl, ha⟩ := reading_world h
    cases a with
    | cluster f =>
      obtain rfl := reading_cluster ha
      cases hf : w'.find u.cluster with
      | none => simp [sees, hf] at hs
      | some c =>
        simp only [sees, hf] at hs
        split_ifs at hs with hc
        cases hs
        rw [← hc.2]
        exact trueOf_of_find hn hf
    | _ => cases hs
  | _ => cases hs

theorem served_believes {pc : Pc} {c : Choice} {w' : World} {a : Answer}
    (hn : (w.clusters.map RayCluster.name).Nodup) (hb : Believes F w g pc none)
    (h : serve w pc c = some (w', a)) : Believes F w' g pc (some a) := by
  intro x hx
  obtain ⟨us, hus, rfl⟩ := Option.map_eq_some_iff.mp hx
  rcases Option.or_eq_some_iff.mp hus with ht | ⟨_, hs⟩
  · exact served_takes hn hb h ht
  · split_ifs at hs
    exact served_sees hn h hs

theorem Effect.coherent {pc : Pc} {a : Answer} {r : Step} (he : Effect w g pc a r)
    (hI : Coherent F w g) (hb : Believes F w g pc (some a)) : Coherent F w r.mem where
  names := hI.names
  keys n e h := by
    rcases he.started n e h with h | ⟨us, _, hn, _⟩
    · exact hI.keys n e h
    · exact ⟨us.1, hn⟩
  started n o s h := by
    rcases he.started n (o, s) h with h | ⟨us, ht, rfl, hos⟩
    · exact hI.started n o s h
    · cases hos
      exact hb _ (belief_of_takes ht)

theorem Effect.believes {pc : Pc} {a : Answer} {r : Step} (he : Effect w g pc a r)
    (hb : Believes F w g pc (some a)) :
    ∀ pc', r.next = some pc' → Believes F w r.mem pc' none := by
  intro pc' hpc x hx
  obtain ⟨us, hus, rfl⟩ := belief_none hx
  exact hb _ (belief_of_takes ((he.next pc' hpc).takes us hus))

/-- A call that comes in changes neither the cache nor what it takes its cluster for. -/
theorem start_coherent {call : Call} {r : Step} (h : start w g call = some r)
    (hI : Coherent F w g) :
    Coherent F w r.mem ∧ ∀ pc, r.next = some pc → Believes F w r.mem pc none := by
  rcases start_cases h with ⟨_, rfl⟩ | ⟨why, rfl⟩ | ⟨_, rfl⟩ | ⟨n, _, _, rfl⟩
  all_goals refine ⟨⟨hI.names, hI.keys, hI.started⟩, fun pc hpc x hx => ?_⟩
  all_goals
    obtain ⟨us, hus, _⟩ := belief_none hx
    cases hpc <;> cases hus

theorem creates_of_post {s : St} {t : ℕ} {c : Choice} {user : User} {shape : Shape}
    {goal : Goal} {mix : Gpus} (ht : s.at t = some ⟨.post user shape goal mix, none⟩)
    (hc : c = .ok ∨ c = .lost) (hf : s.world.find user.cluster = none) :
    creates s (.serve t c) = some (user, shape) := by
  simp [creates, ht, hc, hf]

theorem coherent_step (F : Facet K) (s : St) (a : Act) (s' : St)
    (h : Holds (Coherent F) (Believes F) s) (hc : Unforgotten F s a)
    (hs : program.step s a = some s') : Holds (Coherent F) (Believes F) s' := by
  refine Holds.step ?_ ?_ ?_ ?_ s a s' h hc hs
  · intro s i r h _ hr
    obtain ⟨hI, hnext⟩ := start_coherent hr h.shared
    exact ⟨hI, hnext, fun _ _ _ _ hL => hL⟩
  · intro s t c pc w a h hc ht hv
    have hown : Believes F w s.mem pc (some a) :=
      served_believes h.shared.names (h.each t _ ht) hv
    rcases serve_clusters hv with hs | ⟨user, shape, goal, mix, rfl, hok, hf, rfl⟩
    · refine ⟨⟨h.shared.names.sublist hs.names, h.shared.keys, ?_⟩, hown, ?_⟩
      · exact fun n o sh he => hs.trueOf (h.shared.started n o sh he)
      · exact fun _ _ _ _ _ hL x hx => hs.trueOf (hL x hx)
    · replace hc := hc _ (creates_of_post ht hok hf)
      refine ⟨⟨nodup_names_append h.shared.names hf, h.shared.keys, ?_⟩, hown, ?_⟩
      · intro n o sh he
        refine (h.shared.started n o sh he).append rfl fun hn => ?_
        obtain rfl : user.cluster = n := hn
        exact (hc.2 _ he).symm
      · intro j pc a _ hj hL x hx
        refine (hL x hx).append rfl fun hn => ?_
        exact (hc.1 _ (mem_suspended.mpr ⟨j, hj⟩) x hx hn.symm).symm
  · intro s t pc a r h _ ht hr
    have he : Effect s.world s.mem pc a r := resume_effect hr
    have hb := h.each t _ ht
    exact ⟨he.coherent h.shared hb, he.believes hb, fun _ _ _ _ _ hL => hL⟩
  · intro s e w g h _ he
    obtain ⟨hst, hs | ⟨j, ending, hf, hw⟩⟩ := env_clusters he
    · refine ⟨⟨h.shared.names.sublist hs.names, fun n x hx => h.shared.keys n x (hst n x hx), ?_⟩, ?_⟩
      · exact fun n o sh hx => hs.trueOf (h.shared.started n o sh (hst n _ hx))
      · exact fun _ _ _ _ hL x hx => hs.trueOf (hL x hx)
    · have hnot (u : User) : (RayJob.cluster s.world j ending).name ≠ u.cluster := fun hn =>
        clusterName_ne_jobName u.name j.user.owner j.user.cluster j.key ("-" ++ ending)
          (by rw [← String.append_assoc]; exact hn.symm)
      refine ⟨⟨?_, fun n x hx => h.shared.keys n x (hst n x hx), ?_⟩, ?_⟩
      · rw [hw]
        exact nodup_names_append h.shared.names hf
      · intro n o sh hx
        obtain ⟨u, rfl⟩ := h.shared.keys n _ (hst n _ hx)
        exact (h.shared.started _ o sh (hst _ _ hx)).append hw fun hn => absurd hn (hnot u)
      · intro t pc a _ hL x hx
        obtain ⟨u, hu⟩ := belief_key hx
        exact (hL x hx).append hw fun hn => absurd (hn.trans hu) (hnot u)

theorem coherent_initial (F : Facet K) : Holds (Coherent F) (Believes F) initial where
  shared := ⟨List.nodup_nil, by simp [initial, Dict.get?], by simp [initial, Dict.get?]⟩
  each t th ht := by simp [initial, State.at] at ht

theorem coherent_run (F : Facet K) {acts : List Act} {s : St}
    (hc : program.Along (Unforgotten F) initial acts) (hr : program.run initial acts = some s) :
    Holds (Coherent F) (Believes F) s :=
  Program.run_invariant (coherent_step F) (coherent_initial F) hc hr

/-- The user to whom `cluster_for` or `running` returns the name of their cluster. -/
def Event.returnedTo : Event → Option User
  | .clusterFor user _ | .running user => some user
  | _ => none

/-- Whoever is returned a cluster's name in this step owns the live cluster of it. -/
def ReturnsOwned (s : St) (a : Act) : Prop :=
  ∀ e ∈ program.emits s a, ∀ u ∈ e.returnedTo, ∀ c ∈ s.world.clusters,
    live c = true → c.name = u.cluster → c.owner = u.owner

instance (s : St) (a : Act) : Decidable (ReturnsOwned s a) :=
  inferInstanceAs (Decidable (∀ e ∈ program.emits s a, ∀ u ∈ e.returnedTo, ∀ c ∈ s.world.clusters,
    live c = true → c.name = u.cluster → c.owner = u.owner))

theorem returnsOwned_of_unforgotten {acts : List Act} {s : St} (a : Act)
    (hc : program.Along (Unforgotten ownerFacet) initial acts)
    (hr : program.run initial acts = some s) : ReturnsOwned s a := by
  have hI := coherent_run ownerFacet hc hr
  intro e he u hu c hmem hl hn
  rcases emits_reason he with ⟨why, rfl⟩ | ⟨t, pc, x, rfl, ht, hreason⟩
  · cases hu
  have hb := hI.each t _ ht
  cases e with
  | clusterFor v shape =>
    obtain rfl : v = u := Option.some.inj hu
    rcases hreason with hst | ht
    · exact hI.shared.started _ _ _ hst c hmem hl hn
    · exact hb _ (belief_of_takes ht) c hmem hl hn
  | running v =>
    obtain rfl : v = u := Option.some.inj hu
    obtain ⟨shape, hst | hs⟩ := hreason
    · exact hI.shared.started _ _ _ hst c hmem hl hn
    · exact hb _ (belief_of_sees rfl hs) c hmem hl hn
  | _ => cases hu

/-- A Hub user's call waits for its head while they delete the cluster, an account of their
name is declared, and the account's call creates its own. -/
def namesakeRun : List Act :=
  .call (.own hubUser (shapeOf "1") .post) :: creating 0 ++
    .call (.own hubUser (shapeOf "1") (.delete true)) :: answers 1 [.ok, .ok, .ok, .ok] ++
    [.env (.remove 0), .env (.declare "alice"), .call (.own workloadUser (shapeOf "1") .post)] ++
    creating 2 ++ [.env (.ready 1 true), .serve 0 .ok, .resume 0, .serve 0 (.bool false)]

theorem not_returnsOwned_namesake :
    ¬∀ acts s a, program.run initial acts = some s → ReturnsOwned s a := by
  intro h
  have hany : (program.run initial namesakeRun).any
      (fun s => !decide (ReturnsOwned s (.resume 0))) = true := by decide +kernel
  obtain ⟨s, hs, hnot⟩ := (Option.any_eq_true _ _).mp hany
  exact absurd (h _ s _ hs) (by simpa using hnot)

/-- The Hub user deletes their cluster once their call has returned, and then the account of their
name creates its own. -/
theorem returnsOwned_of_unforgotten_namesake :
    let acts := Action.call (.own hubUser (shapeOf "1") .post) :: creating 0 ++
      .env (.ready 0 true) :: answers 0 [.ok, .bool false] ++
      .call (.own hubUser (shapeOf "1") (.delete true)) :: answers 1 [.ok, .ok, .ok, .ok] ++
      [.env (.remove 0), .env (.declare "alice"), .call (.own workloadUser (shapeOf "1") .post)] ++
      creating 2 ++ [.env (.ready 1 true), .serve 2 .ok, .resume 2, .serve 2 (.bool false)]
    program.Along (Unforgotten ownerFacet) initial acts ∧
      ∃ s, program.run initial acts = some s ∧
        program.emits s (.resume 2) = [.clusterFor workloadUser (shapeOf "1")] ∧
        ReturnsOwned s (.resume 2) := by
  intro acts
  have hc : program.Along (Unforgotten ownerFacet) initial acts := by decide +kernel
  have hany : (program.run initial acts).any
      (fun s => program.emits s (.resume 2) = [.clusterFor workloadUser (shapeOf "1")]) = true := by
    decide +kernel
  obtain ⟨s, hs, he⟩ := (Option.any_eq_true _ _).mp hany
  exact ⟨hc, s, hs, by simpa using he, returnsOwned_of_unforgotten _ hc hs⟩

/-- The shape `cluster_for` returns a cluster in. -/
def Event.returnedIn : Event → Option (User × Shape)
  | .clusterFor user shape => some (user, shape)
  | _ => none

/-- Whoever is returned a cluster in this step is returned it in the shape they asked for,
and the cache has the shape of every live cluster it has. -/
def ReturnsShape (s : St) (a : Act) : Prop :=
  (∀ e ∈ program.emits s a, ∀ us ∈ e.returnedIn, ∀ c ∈ s.world.clusters,
    live c = true → c.name = us.1.cluster → c.shape = us.2) ∧
  ∀ c ∈ s.world.clusters, live c = true → ∀ e ∈ s.mem.started.get? c.name, c.shape = e.2

instance (s : St) (a : Act) : Decidable (ReturnsShape s a) :=
  inferInstanceAs (Decidable ((∀ e ∈ program.emits s a, ∀ us ∈ e.returnedIn,
    ∀ c ∈ s.world.clusters, live c = true → c.name = us.1.cluster → c.shape = us.2) ∧
    ∀ c ∈ s.world.clusters, live c = true → ∀ e ∈ s.mem.started.get? c.name, c.shape = e.2))

theorem returnsShape_of_unforgotten {acts : List Act} {s : St} (a : Act)
    (hc : program.Along (Unforgotten shapeFacet) initial acts)
    (hr : program.run initial acts = some s) : ReturnsShape s a := by
  have hI := coherent_run shapeFacet hc hr
  refine ⟨?_, fun c hmem hl e he => hI.shared.started _ e.1 e.2 he c hmem hl rfl⟩
  intro e he us hus c hmem hl hn
  rcases emits_reason he with ⟨why, rfl⟩ | ⟨t, pc, x, rfl, ht, hreason⟩
  · cases hus
  cases e with
  | clusterFor u shape =>
    obtain rfl : (u, shape) = us := Option.some.inj hus
    rcases hreason with hst | htakes
    · exact hI.shared.started _ _ _ hst c hmem hl hn
    · exact hI.each t _ ht _ (belief_of_takes htakes) c hmem hl hn
  | _ => cases hus

/-- A call waits for its head while another in a second shape replaces the cluster. -/
def replacedRun : List Act :=
  .call (.own hubUser (shapeOf "1") .post) :: creating 0 ++
    .call (.own hubUser (shapeOf "2") .post) ::
      answers 1 [.ok, .ok, .bool false, .ok, .ok, .free none, .ok, .ok] ++
    .env (.remove 0) :: answers 1 [.ok, .ok] ++
    [.env (.ready 1 true), .serve 0 .ok, .resume 0, .serve 0 (.bool false)]

theorem not_returnsShape_replaced :
    ¬∀ acts s a, program.run initial acts = some s → ReturnsShape s a := by
  intro h
  have hany : (program.run initial replacedRun).any
      (fun s => !decide (ReturnsShape s (.resume 0))) = true := by decide +kernel
  obtain ⟨s, hs, hnot⟩ := (Option.any_eq_true _ _).mp hany
  exact absurd (h _ s _ hs) (by simpa using hnot)

/-- A call that replaces its user's cluster once the call before it was returned. -/
theorem returnsShape_of_unforgotten_replacing :
    let acts := Action.call (.own hubUser (shapeOf "1") .post) :: creating 0 ++
      .env (.ready 0 true) :: answers 0 [.ok, .bool false] ++
      .call (.own hubUser (shapeOf "2") .post) ::
        answers 1 [.ok, .ok, .bool false, .ok, .ok, .free none, .ok, .ok] ++
      .env (.remove 0) :: answers 1 [.ok, .ok] ++
      [.env (.ready 1 true), .serve 1 .ok, .resume 1, .serve 1 (.bool false)]
    program.Along (Unforgotten shapeFacet) initial acts ∧
      ∃ s, program.run initial acts = some s ∧
        program.emits s (.resume 1) = [.clusterFor hubUser (shapeOf "2")] ∧
        ReturnsShape s (.resume 1) := by
  intro acts
  have hc : program.Along (Unforgotten shapeFacet) initial acts := by decide +kernel
  have hany : (program.run initial acts).any
      (fun s => program.emits s (.resume 1) = [.clusterFor hubUser (shapeOf "2")]) = true := by
    decide +kernel
  obtain ⟨s, hs, he⟩ := (Option.any_eq_true _ _).mp hany
  exact ⟨hc, s, hs, by simpa using he, returnsShape_of_unforgotten _ hc hs⟩

end PurdueAF.RayClusters
