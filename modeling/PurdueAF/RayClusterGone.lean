import PurdueAF.RayClusterSteps

/-!
# Who hears that a cluster was removed

`clients` has the client IDs whose calls were relayed to each cluster, and `gone` those
whose cluster the gateway deleted, with the text their next call is refused with. Both are
keyed by what the client sends. Over a run, each entry is traced back to the relayed call
and the deletion it comes from.
-/
namespace PurdueAF.RayClusters
open Ray RayNaming Coroutine

def Call.for? : Call → Option (User × Goal)
  | .relay user _ client => some (user, .relay client)
  | .own user _ .post => some (user, .own)
  | _ => none

def Admission.for? (a : Admission) : Option (User × Goal) :=
  match a.next with
  | .replace goal | .outlast goal | .create goal => some (a.user, goal)
  | .job _ => none

def AfterDelete.for? : AfterDelete → Option (User × Goal)
  | .replace user _ goal _ => some (user, goal)
  | _ => none

/-- The user for whom the coroutine finds or creates a cluster, and what for. -/
def servedOf : Pc → Option (User × Goal)
  | .caller call => call.for?
  | .read user _ goal | .busyOld user _ goal _ | .gone user _ goal _ | .post user _ goal _
  | .conflict user _ goal | .headUp user _ goal | .headOpen user _ goal => some (user, goal)
  | .lock a | .list a | .free a _ _ _ => a.for?
  | .delete _ _ after | .close _ after => after.for?
  | _ => none

/-- The step lets a call of `user` with that client ID through to the user's cluster. -/
def relays (s : St) (user : User) (client : String) : Act → Bool
  | .resume t =>
    match s.at t with
    | some ⟨pc, some a⟩ => decide (servedOf pc = some (user, .relay client)) &&
      ((resume s.world s.mem pc a).any fun r => r.next = some (.relaying user.cluster))
    | _ => false
  | _ => false

/-- The step completes a deletion of the cluster, which its clients are to hear as `why`. -/
def deletes (s : St) (name why : String) : Act → Bool
  | .resume t =>
    match s.at t with
    | some ⟨.delete n y _, some .done⟩ => decide (n = name) && decide (y = why)
    | _ => false
  | _ => false

/-- The step refuses a relayed call as its client's cluster is gone. -/
def refusesGone (s : St) (user : User) (client why : String) : Act → Bool
  | .resume t =>
    match s.at t with
    | some ⟨.caller (.relay u sh c), some .done⟩ => decide (u = user) && decide (c = client) &&
      decide ((entered s.world s.mem (.relay u sh c)).events = [.refused ⟨.notFound, why⟩])
    | _ => false
  | _ => false

theorem relays_iff {s : St} {user : User} {client : String} {x : Act} :
    relays s user client x = true ↔ ∃ t pc a r, x = .resume t ∧ s.at t = some ⟨pc, some a⟩ ∧
      servedOf pc = some (user, .relay client) ∧ resume s.world s.mem pc a = some r ∧
      r.next = some (.relaying user.cluster) := by
  constructor
  · intro h
    unfold relays at h
    split at h
    · rename_i t
      split at h
      · rename_i pc a ht
        simp only [Bool.and_eq_true, decide_eq_true_eq, Option.any_eq_true] at h
        obtain ⟨hpc, r, hr, hn⟩ := h
        exact ⟨t, pc, a, r, rfl, ht, hpc, hr, hn⟩
      · cases h
    · cases h
  · rintro ⟨t, pc, a, r, rfl, ht, hpc, hr, hn⟩
    simp [relays, ht, hpc, hr, hn]

theorem deletes_of_at {s : St} {t : ℕ} {name why : String} {after : AfterDelete}
    (h : s.at t = some ⟨.delete name why after, some .done⟩) :
    deletes s name why (.resume t) = true := by
  simp [deletes, h]

/-- `clients` and `gone` stay, but that `gone` may lose entries; a call is let through; or a
deletion is completed. -/
inductive Tables (w : World) (g : Gateway) (pc : Pc) (a : Answer) (r : Step) : Prop
  | same (hc : r.mem.clients = g.clients) (hg : r.mem.gone ⊆ g.gone)
  | relayed (user : User) (client : String) (hpc : servedOf pc = some (user, .relay client))
      (hn : r.next = some (.relaying user.cluster))
      (hc : r.mem.clients = g.clients.set user.cluster
        (client :: ((g.clients.get? user.cluster).getD []).filter (· ≠ client)))
      (hg : r.mem.gone ⊆ g.gone)
  | deleted (name why : String) (after : AfterDelete) (hpc : pc = .delete name why after)
      (ha : a = .done) (hc : r.mem.clients = g.clients.pop name)
      (hg : r.mem.gone = (RayClusters.deleted w g name why).gone)

structure Tells (w : World) (g : Gateway) (pc : Pc) (a : Answer) (r : Step) : Prop where
  next : ∀ pc', r.next = some pc' → servedOf pc' = none ∨ servedOf pc' = servedOf pc
  tables : Tables w g pc a r

variable {w : World} {g g' : Gateway} {pc pc' : Pc} {a : Answer}

theorem Tells.quiet {next : Option Pc} {events : List Event} (hc : g'.clients = g.clients)
    (hg : g'.gone ⊆ g.gone)
    (hn : ∀ pc', next = some pc' → servedOf pc' = none ∨ servedOf pc' = servedOf pc) :
    Tells w g pc a ⟨g', next, events⟩ :=
  ⟨hn, .same hc hg⟩

theorem Tells.ends {events : List Event} (hc : g'.clients = g.clients) (hg : g'.gone ⊆ g.gone) :
    Tells w g pc a ⟨g', none, events⟩ :=
  .quiet hc hg (by simp)

theorem Tells.goes (hc : g'.clients = g.clients) (hg : g'.gone ⊆ g.gone)
    (hn : servedOf pc' = none ∨ servedOf pc' = servedOf pc) :
    Tells w g pc a (awaiting g' pc') := by
  apply Tells.quiet hc hg
  intro x hx
  obtain rfl : pc' = x := Option.some.inj hx
  exact hn

theorem Tells.admission (hc : g'.clients = g.clients) (hg : g'.gone ⊆ g.gone) {user : User}
    {shape : Shape} {replaced : Gpus} {next : AfterAdmit}
    (hn : (Admission.mk user shape replaced next).for? = none ∨
      (Admission.mk user shape replaced next).for? = servedOf pc) :
    Tells w g pc a (RayClusters.admission g' user shape replaced next) := by
  unfold RayClusters.admission
  split
  · exact .ends hc hg
  · exact .goes hc hg hn

theorem Tells.nextReap (hc : g'.clients = g.clients) (hg : g'.gone ⊆ g.gone) (now : ℤ)
    (cs : List RayCluster) : Tells w g pc a (RayClusters.nextReap w g' now cs) := by
  induction cs with
  | nil => exact .ends hc hg
  | cons c cs ih =>
    unfold RayClusters.nextReap
    split_ifs
    · exact ih
    · exact .goes hc hg (.inl rfl)
    · exact .goes hc hg (.inl rfl)

theorem Tells.found (hc : g'.clients = g.clients) (hg : g'.gone ⊆ g.gone) {user : User}
    {shape : Shape} {goal : Goal} (hpc : servedOf pc = some (user, goal)) :
    Tells w g pc a (RayClusters.found w g' user shape goal) := by
  cases goal with
  | relay client =>
    refine ⟨?_, .relayed user client hpc rfl ?_ ?_⟩
    · intro x hx
      cases hx
      exact .inl rfl
    · simp [RayClusters.found, noteUse, hc]
    · intro e he
      exact hg (Dict.mem_pop.mp he).1
  | own =>
    refine ⟨?_, .same hc hg⟩
    intro x hx
    cases hx
    exact .inl rfl

theorem Tells.clusterFor (hc : g'.clients = g.clients) (hg : g'.gone ⊆ g.gone) {user : User}
    {shape : Shape} {goal : Goal} (hpc : servedOf pc = some (user, goal)) :
    Tells w g pc a (RayClusters.clusterFor w g' user shape goal) := by
  unfold RayClusters.clusterFor
  split
  · exact .ends hc hg
  split
  · exact .ends hc hg
  split
  · exact .ends hc hg
  split_ifs
  · exact .found hc hg hpc
  · exact .goes hc hg (.inr hpc.symm)

theorem Tells.entered (call : Call) : Tells w g (.caller call) a (RayClusters.entered w g call) := by
  have hself : g.gone ⊆ g.gone := List.Subset.refl _
  cases call with
  | relay user shape client =>
    have hf : List.filter (fun e => decide (w.now < e.2.1)) g.gone ⊆ g.gone :=
      List.filter_subset_self _
    simp only [RayClusters.entered]
    split
    · exact .ends rfl hf
    · exact .clusterFor (by rfl) hf (by rfl)
  | http user =>
    simp only [RayClusters.entered, RayClusters.running]
    split
    · split_ifs
      · exact .ends rfl hself
      · exact .goes rfl hself (.inl rfl)
    · exact .goes rfl hself (.inl rfl)
  | own user shape method =>
    cases method with
    | post => exact .clusterFor (by rfl) hself (by rfl)
    | get => exact .goes rfl hself (.inl rfl)
    | delete force => exact .goes rfl hself (.inl rfl)
  | submit user shape key =>
    simp only [RayClusters.entered]
    split_ifs
    · exact .ends rfl hself
    · split
      · exact .ends rfl hself
      · exact .admission rfl hself (.inl rfl)
  | reap => exact .ends rfl hself

theorem Tells.resumeRead (user : User) (shape : Shape) (goal : Goal) (c : Option RayCluster) :
    Tells w g (.read user shape goal) a (RayClusters.resumeRead w g user shape goal c) := by
  have hself : g.gone ⊆ g.gone := List.Subset.refl _
  cases c with
  | none => exact .admission (by rfl) (by exact hself) (.inr (by rfl))
  | some c =>
    simp only [RayClusters.resumeRead]
    split_ifs
    · exact .ends rfl hself
    · exact .goes (by rfl) hself (.inr rfl)
    · exact .goes (by rfl) hself (.inr rfl)
    · exact .admission (by rfl) (by exact hself) (.inr (by rfl))

theorem Tells.resumeConflict (user : User) (shape : Shape) (goal : Goal)
    (c : Option RayCluster) : Tells w g (.conflict user shape goal) a
      (RayClusters.resumeConflict g user shape goal c) := by
  have hself : g.gone ⊆ g.gone := List.Subset.refl _
  cases c with
  | none => exact .ends rfl hself
  | some c =>
    simp only [RayClusters.resumeConflict]
    split_ifs
    · exact .ends rfl hself
    · exact .goes rfl hself (.inr rfl)
    · exact .ends rfl hself

theorem Tells.resumeRunning (user : User) (c : Option RayCluster) :
    Tells w g pc a (RayClusters.resumeRunning w g user c) := by
  have hself : g.gone ⊆ g.gone := List.Subset.refl _
  cases c with
  | none => exact .ends rfl hself
  | some c =>
    simp only [RayClusters.resumeRunning]
    split_ifs
    all_goals exact .ends (by rfl) hself

theorem Tells.resumeOwn (user : User) (method : Method) (c : Option RayCluster) :
    Tells w g pc a (RayClusters.resumeOwn g user method c) := by
  have hself : g.gone ⊆ g.gone := List.Subset.refl _
  unfold RayClusters.resumeOwn
  split
  · exact .ends rfl hself
  · exact .ends rfl hself
  · split_ifs
    · exact .ends rfl hself
    · split
      · exact .goes rfl hself (.inl rfl)
      · exact .goes rfl hself (.inl rfl)
      · exact .ends rfl hself

theorem Tells.completed (name why : String) (after : AfterDelete) :
    Tells w g (.delete name why after) .done
      (awaiting (RayClusters.deleted w g name why) (.close name after)) := by
  refine ⟨?_, .deleted name why after rfl rfl rfl rfl⟩
  intro x hx
  cases hx
  exact .inr rfl

theorem Tells.resumeClose (name : String) (after : AfterDelete) :
    Tells w g (.close name after) a (RayClusters.resumeClose w g name after) := by
  have hself : g.gone ⊆ g.gone := List.Subset.refl _
  cases after with
  | replace user shape goal mix => exact .goes rfl hself (.inr rfl)
  | openHead => exact .ends rfl hself
  | byUser => exact .ends (by rfl) hself
  | unprovisioned p => exact .nextReap (by rfl) (by exact hself) _ _
  | idle p => exact .nextReap (by rfl) (by exact hself) _ _

theorem Tells.deleteFailed {otherwise : Step} (after : AfterDelete)
    (h : Tells w g pc a otherwise) :
    Tells w g pc a (RayClusters.deleteFailed w g otherwise after) := by
  have hself : g.gone ⊆ g.gone := List.Subset.refl _
  cases after with
  | unprovisioned p => exact .nextReap rfl hself _ _
  | idle p => exact .nextReap rfl hself _ _
  | _ => exact h

theorem Tells.resumeReap (c : RayCluster) (p : Pass) (busy : Bool) :
    Tells w g pc a (RayClusters.resumeReap w g c p busy) := by
  have hself : g.gone ⊆ g.gone := List.Subset.refl _
  have hc : (seen g c.name p.now).clients = g.clients := by
    unfold seen
    split <;> rfl
  have hg : (seen g c.name p.now).gone ⊆ g.gone := by
    unfold seen
    split <;> exact hself
  unfold RayClusters.resumeReap
  split_ifs
  · exact .nextReap (by rfl) (by exact hself) _ _
  dsimp only
  split_ifs
  · apply Tells.quiet hc hg
    intro x hx
    cases hx
    exact .inl rfl
  · exact .nextReap hc hg _ _

theorem Tells.decided (ad : Admission) (now : ℤ) (granted others : Dict String Gpus) (sc : Scene) :
    Tells w g (.free ad now granted others) a (RayClusters.decided g ad now sc) := by
  have hself : g.gone ⊆ g.gone := List.Subset.refl _
  unfold RayClusters.decided
  split
  · exact .ends (by rfl) hself
  · split
    · exact .ends (by rfl) hself
    · have hr : servedOf (.free ad now granted others) = ad.for? := rfl
      unfold RayClusters.admitted
      cases hnext : ad.next with
      | job key => exact .goes (by rfl) hself (.inl rfl)
      | _ => exact .goes (by rfl) hself (.inr (by rw [hr]; simp only [Admission.for?, hnext]; rfl))

/-- Running a coroutine to its next await. -/
theorem resume_tells {r : Step} (h : resume w g pc a = some r) : Tells w g pc a r := by
  have hself : g.gone ⊆ g.gone := List.Subset.refl _
  cases pc with
  | caller call =>
    cases a with
    | done => cases h; exact .entered call
    | _ => cases h; exact .ends rfl hself
  | read user shape goal =>
    cases a with
    | cluster c => cases h; exact .resumeRead user shape goal c
    | _ => cases h; exact .ends rfl hself
  | busyOld user shape goal old =>
    cases a with
    | bool b =>
      unfold resume at h
      dsimp only at h
      split_ifs at h <;> cases h
      · exact .ends rfl hself
      · exact .admission rfl hself (.inr rfl)
    | _ => cases h
  | lock ad =>
    cases a with
    | done =>
      unfold resume at h
      dsimp only at h
      split_ifs at h
      cases h
      exact .goes (by rfl) hself (.inr rfl)
    | _ => cases h
  | list ad =>
    cases a with
    | clusters cs => cases h; exact .goes (by rfl) hself (.inr rfl)
    | _ => cases h; exact .ends (by rfl) hself
  | free ad now granted others =>
    cases a with
    | free f => cases h; exact .decided ad now granted others _
    | _ => cases h
  | delete name why after =>
    cases a with
    | done => cases h; exact .completed name why after
    | _ => cases h; exact .deleteFailed after (.ends rfl hself)
  | close name after =>
    cases a with
    | done => cases h; exact .resumeClose name after
    | _ => cases h
  | gone user shape goal mix =>
    cases a with
    | done => cases h; exact .goes rfl hself (.inr rfl)
    | _ => cases h; exact .ends rfl hself
  | post user shape goal mix =>
    cases a with
    | created c => cases h; exact .goes (by rfl) hself (.inr rfl)
    | conflict => cases h; exact .goes rfl hself (.inr rfl)
    | _ => cases h; exact .ends (by rfl) hself
  | conflict user shape goal =>
    cases a with
    | cluster c => cases h; exact .resumeConflict user shape goal c
    | _ => cases h; exact .ends rfl hself
  | headUp user shape goal =>
    cases a with
    | done => cases h; exact .goes rfl hself (.inr rfl)
    | _ => cases h; exact .ends rfl hself
  | headOpen user shape goal =>
    cases a with
    | bool isOpen =>
      unfold resume at h
      dsimp only at h
      split_ifs at h <;> cases h
      · exact .goes rfl hself (.inl rfl)
      · exact .found (by rfl) (by exact hself) (by rfl)
    | _ => cases h
  | postJob user shape key mix =>
    cases a with
    | _ => cases h; exact .ends (by rfl) hself
  | running user =>
    cases a with
    | cluster c => cases h; exact .resumeRunning user c
    | _ => cases h; exact .ends rfl hself
  | ownRead user method =>
    cases a with
    | cluster c => cases h; exact .resumeOwn user method c
    | _ => cases h; exact .ends rfl hself
  | ownBusy user =>
    cases a with
    | bool busy =>
      unfold resume at h
      dsimp only at h
      split_ifs at h <;> cases h
      · exact .ends rfl hself
      · exact .goes rfl hself (.inl rfl)
    | _ => cases h
  | relaying cluster =>
    cases a with
    | request => cases h; exact .goes (by rfl) hself (.inl rfl)
    | ended unavailable =>
      cases h
      cases unavailable
      · exact .ends (by rfl) hself
      · exact .ends (by rfl) hself
    | _ => cases h
  | reapList =>
    cases a with
    | clusters cs => cases h; exact .nextReap rfl hself _ cs
    | _ => cases h; exact .ends (by rfl) hself
  | reapBusy c p =>
    cases a with
    | bool busy => cases h; exact .resumeReap c p busy
    | _ => cases h

theorem mem_gone_deleted {name why : String} {e : String × ℤ × String}
    (h : e ∈ (deleted w g name why).gone) : e ∈ g.gone ∨
      e.1 ∈ (g.clients.get? name).getD [] ∧ e.2 = (w.now + goneS, why) := by
  have hfold (ids : List String) (d : Dict String (ℤ × String))
      (he : e ∈ ids.foldl (fun d i => Dict.set d i (w.now + goneS, why)) d) :
      e ∈ d ∨ e.1 ∈ ids ∧ e.2 = (w.now + goneS, why) := by
    induction ids generalizing d with
    | nil => exact .inl he
    | cons i ids ih =>
      rcases ih _ he with hd | ⟨hi, hw⟩
      · rcases Dict.mem_set.mp hd with rfl | ⟨hd, _⟩
        · exact .inr ⟨by simp, rfl⟩
        · exact .inl hd
      · exact .inr ⟨by simp [hi], hw⟩
  exact hfold _ _ h

/-- A call that asks so came in. -/
def Called (acts : List Act) (x : User × Goal) : Prop :=
  ∃ call, Action.call call ∈ acts ∧ call.for? = some x

theorem Called.mono {acts : List Act} {x : User × Goal} (h : Called acts x) (y : Act) :
    Called (acts ++ [y]) x := by
  obtain ⟨call, hc, hx⟩ := h
  exact ⟨call, List.mem_append_left _ hc, hx⟩

/-- A RayCluster is that of a user whose call came in, or one that KubeRay named. -/
def Owned (acts : List Act) (c : RayCluster) : Prop :=
  (∃ x, Called acts x ∧ x.1.cluster = c.name ∧ x.1.owner = c.owner) ∨
    ∃ owner cluster key more, c.name = jobName owner cluster key ++ more

theorem Owned.mono {acts : List Act} {c : RayCluster} (h : Owned acts c) (y : Act) :
    Owned (acts ++ [y]) c := by
  rcases h with ⟨x, hx, hc⟩ | h
  · exact .inl ⟨x, hx.mono y, hc⟩
  · exact .inr h

theorem Owned.of_eq {acts : List Act} {c d : RayCluster} (h : Owned acts c)
    (hn : d.name = c.name) (ho : d.owner = c.owner) : Owned acts d := by
  unfold Owned
  rw [hn, ho]
  exact h

theorem owned_mark {acts : List Act} (h : ∀ c ∈ w.clusters, Owned acts c)
    (p : RayCluster → Bool) (f : RayCluster → RayCluster) (hn : ∀ c, (f c).name = c.name)
    (ho : ∀ c, (f c).owner = c.owner) : ∀ c ∈ (w.mark p f).clusters, Owned acts c := by
  intro c hc
  obtain ⟨d, hd, rfl⟩ := List.mem_map.mp hc
  split_ifs
  · exact (h d hd).of_eq (hn d) (ho d)
  · exact h d hd

theorem owned_serve {acts : List Act} {c : Choice} {w' : World}
    (h : ∀ c ∈ w.clusters, Owned acts c) (hpc : ∀ x, servedOf pc = some x → Called acts x)
    (hs : serve w pc c = some (w', a)) : ∀ c ∈ w'.clusters, Owned acts c := by
  rcases serve_cases hs with rfl | ⟨name, _, _, _, rfl⟩ | ⟨user, shape, goal, mix, rfl, _, _, rfl⟩ |
    ⟨_, _, _, _, _, _, rfl⟩
  · exact h
  · exact owned_mark h _ _ (fun _ => rfl) fun _ => rfl
  · intro c hc
    rcases List.mem_append.mp hc with hc | hc
    · exact h c hc
    · obtain rfl : c = buildCluster w user shape mix := by simpa using hc
      exact .inl ⟨(user, goal), hpc _ rfl, rfl, rfl⟩
  · exact h

theorem owned_env {acts : List Act} {e : Move} {w' : World}
    (h : ∀ c ∈ w.clusters, Owned acts c) (hs : env w g e = some (w', g')) :
    ∀ c ∈ w'.clusters, Owned acts c := by
  cases e with
  | tick d | declare account | withdraw account | removeJob key | silent cluster =>
    cases hs
    exact h
  | remove uid =>
    cases hs
    intro c hc
    exact h c (List.mem_filter.mp hc).1
  | ready uid up | provision uid all | expireCluster uid =>
    cases hs
    exact owned_mark h _ _ (fun _ => rfl) fun _ => rfl
  | makeCluster key ending =>
    simp only [env] at hs
    split at hs
    · rename_i j _
      split_ifs at hs
      cases hs
      intro c hc
      rcases List.mem_append.mp hc with hc | hc
      · exact h c hc
      · obtain rfl : c = RayJob.cluster w j ending := by simpa using hc
        refine .inr ⟨j.user.owner, j.user.cluster, j.key, "-" ++ ending, ?_⟩
        simp [RayJob.cluster, RayJob.name, String.append_assoc]
    · cases hs

/-- Earlier in the run, a call with that client ID was let through to the cluster. -/
def LetThrough (acts : List Act) (name client : String) : Prop :=
  ∃ p ∈ program.trail initial acts, ∃ u, relays p.1 u client p.2 = true ∧
    Called acts (u, .relay client) ∧ u.cluster = name

/-- Earlier in the run, a call with that client ID was let through to its user's cluster,
and later the gateway deleted that cluster. -/
def LetThroughAndDeleted (acts : List Act) (client : String) (till : ℤ) (why : String) : Prop :=
  ∃ p q u, List.Sublist [p, q] (program.trail initial acts) ∧ relays p.1 u client p.2 = true ∧
    Called acts (u, .relay client) ∧ deletes q.1 u.cluster why q.2 = true ∧
    (∀ c ∈ q.1.world.clusters, Owned acts c) ∧ till = q.1.world.now + goneS

structure Traced (acts : List Act) (s : St) : Prop where
  served : ∀ t th x, s.at t = some th → servedOf th.pc = some x → Called acts x
  clusters : ∀ c ∈ s.world.clusters, Owned acts c
  clients : ∀ n ids client, (n, ids) ∈ s.mem.clients → client ∈ ids → LetThrough acts n client
  gone : ∀ client till why, (client, till, why) ∈ s.mem.gone →
    LetThroughAndDeleted acts client till why

section History
variable {acts : List Act} {s : St}

theorem LetThrough.mono {n client : String} (h : LetThrough acts n client)
    (hr : program.run initial acts = some s) (x : Act) : LetThrough (acts ++ [x]) n client := by
  obtain ⟨p, hp, u, hu, hc, hn⟩ := h
  refine ⟨p, ?_, u, hu, hc.mono x, hn⟩
  rw [Program.trail_snoc x hr]
  exact List.mem_append_left _ hp

theorem LetThroughAndDeleted.mono {client why : String} {till : ℤ}
    (h : LetThroughAndDeleted acts client till why) (hr : program.run initial acts = some s)
    (x : Act) : LetThroughAndDeleted (acts ++ [x]) client till why := by
  obtain ⟨p, q, u, hpq, hu, hc, hd, ho, ht⟩ := h
  refine ⟨p, q, u, ?_, hu, hc.mono x, hd, fun c hc => (ho c hc).mono x, ht⟩
  rw [Program.trail_snoc x hr]
  exact hpq.trans (List.sublist_append_left _ _)

/-- A call came in, or the world answered one or moved by itself: the tables stay. -/
theorem Traced.of_tables (h : Traced acts s) (hr : program.run initial acts = some s) (x : Act)
    {s' : St} (hserved : ∀ t th y, s'.at t = some th → servedOf th.pc = some y →
      Called (acts ++ [x]) y)
    (hclusters : ∀ c ∈ s'.world.clusters, Owned (acts ++ [x]) c)
    (hc : s'.mem.clients = s.mem.clients) (hg : s'.mem.gone = s.mem.gone) :
    Traced (acts ++ [x]) s' where
  served := hserved
  clusters := hclusters
  clients n ids client hm hi := by
    rw [hc] at hm
    exact (h.clients n ids client hm hi).mono hr x
  gone client till why hm := by
    rw [hg] at hm
    exact (h.gone client till why hm).mono hr x

theorem Traced.call (h : Traced acts s) (hr : program.run initial acts = some s) {call : Call}
    {s' : St} (hs : program.step s (.call call) = some s') :
    Traced (acts ++ [.call call]) s' := by
  obtain ⟨r, hst, rfl⟩ := Program.step_call hs
  have hcases := start_cases hst
  have htables : r.mem.clients = s.mem.clients ∧ r.mem.gone = s.mem.gone := by
    rcases hcases with ⟨_, rfl⟩ | ⟨_, rfl⟩ | ⟨_, rfl⟩ | ⟨_, _, _, rfl⟩
    all_goals exact ⟨rfl, rfl⟩
  have hnew (pc : Pc) (hp : r.next = some pc) (x : User × Goal) (hx : servedOf pc = some x) :
      call.for? = some x := by
    rcases hcases with ⟨_, rfl⟩ | ⟨_, rfl⟩ | ⟨_, rfl⟩ | ⟨_, _, _, rfl⟩
    all_goals cases hp
    · cases hx
    · exact hx
    · exact hx
  refine h.of_tables hr _ (fun t th x ht hx => ?_) (fun c hc => (h.clusters c hc).mono _)
    htables.1 htables.2
  rw [at_append] at ht
  split_ifs at ht
  · exact ⟨call, by simp, hnew _ (suspend_eq_some ht).1 x hx⟩
  · exact (h.served t th x ht hx).mono _

theorem Traced.serve (h : Traced acts s) (hr : program.run initial acts = some s) {t : ℕ}
    {c : Choice} {s' : St} (hs : program.step s (.serve t c) = some s') :
    Traced (acts ++ [.serve t c]) s' := by
  obtain ⟨pc, w, a, ht, hv, rfl⟩ := Program.step_serve hs
  have hpc : ∀ x, servedOf pc = some x → Called acts x := fun x hx => h.served t _ x ht hx
  refine h.of_tables hr _ (fun j th x hj hx => ?_)
    (fun c hc => (owned_serve h.clusters hpc hv c hc).mono _) rfl rfl
  rw [at_set s _ _ t j _ (by simp [ht])] at hj
  split_ifs at hj with htj
  · obtain rfl := Option.some.inj hj
    exact (hpc x hx).mono _
  · exact (h.served j th x hj hx).mono _

theorem Traced.env (h : Traced acts s) (hr : program.run initial acts = some s) {e : Move}
    {s' : St} (hs : program.step s (.env e) = some s') : Traced (acts ++ [.env e]) s' := by
  obtain ⟨w, g, he, rfl⟩ := Program.step_env hs
  have htables : g.clients = s.mem.clients ∧ g.gone = s.mem.gone := by
    cases e with
    | makeCluster key ending =>
      have he' : RayClusters.env s.world s.mem (.makeCluster key ending) = some (w, g) := he
      simp only [RayClusters.env] at he'
      split at he'
      · split_ifs at he'
        cases he'
        exact ⟨rfl, rfl⟩
      · cases he'
    | _ =>
      cases he
      exact ⟨rfl, rfl⟩
  exact h.of_tables hr _ (fun t th x ht hx => (h.served t th x ht hx).mono _)
    (fun c hc => (owned_env h.clusters he c hc).mono _) htables.1 htables.2

/-- A client ID in the table of a deleted cluster: its call came before this deletion. -/
theorem Traced.deleted (h : Traced acts s) (hr : program.run initial acts = some s) {t : ℕ}
    {name why client : String} {after : AfterDelete}
    (ht : s.at t = some ⟨.delete name why after, some .done⟩)
    (hc : client ∈ (s.mem.clients.get? name).getD []) :
    LetThroughAndDeleted (acts ++ [.resume t]) client (s.world.now + goneS) why := by
  cases hids : s.mem.clients.get? name with
  | none => simp [hids] at hc
  | some ids =>
    have hmem : client ∈ ids := by simpa [hids] using hc
    obtain ⟨p, hp, u, hu, hcalled, rfl⟩ := h.clients name ids client (Dict.mem_of_get? hids) hmem
    refine ⟨p, (s, .resume t), u, ?_, hu, hcalled.mono _, deletes_of_at ht,
      fun c hc => (h.clusters c hc).mono _, rfl⟩
    rw [Program.trail_snoc _ hr]
    exact (List.singleton_sublist.mpr hp).append (List.Sublist.refl [(s, Action.resume t)])

theorem Traced.resume (h : Traced acts s) (hr : program.run initial acts = some s) {t : ℕ}
    {s' : St} (hs : program.step s (.resume t) = some s') : Traced (acts ++ [.resume t]) s' := by
  obtain ⟨pc, a, r, ht, hre, rfl⟩ := Program.step_resume hs
  have htells := resume_tells hre
  refine ⟨fun j th x hj hx => ?_, fun c hc => (h.clusters c hc).mono _,
    fun n ids client hm hi => ?_, fun client till why hm => ?_⟩
  · rw [at_set s _ _ t j _ (by simp [ht])] at hj
    split_ifs at hj
    · rcases htells.next _ (suspend_eq_some hj).1 with hnone | hsame
      · rw [hnone] at hx
        cases hx
      · rw [hsame] at hx
        exact (h.served t _ x ht hx).mono _
    · exact (h.served j th x hj hx).mono _
  · have hold (hm : (n, ids) ∈ s.mem.clients) : LetThrough (acts ++ [.resume t]) n client :=
      (h.clients n ids client hm hi).mono hr _
    cases htells.tables with
    | same hc _ =>
      rw [hc] at hm
      exact hold hm
    | relayed user client' hpc hn hc _ =>
      rw [hc] at hm
      rcases Dict.mem_set.mp hm with heq | ⟨hm, _⟩
      · obtain ⟨rfl, rfl⟩ := Prod.mk.inj heq
        by_cases hcl : client = client'
        · subst hcl
          refine ⟨(s, .resume t), ?_, user, ?_, (h.served t _ _ ht hpc).mono _, rfl⟩
          · rw [Program.trail_snoc _ hr]
            simp
          · exact relays_iff.mpr ⟨t, pc, a, r, rfl, ht, hpc, hre, hn⟩
        · have hin : client ∈ (s.mem.clients.get? user.cluster).getD [] := by
            simpa [hcl] using hi
          cases hids : s.mem.clients.get? user.cluster with
          | none => simp [hids] at hin
          | some old =>
            have hmem : client ∈ old := by simpa [hids] using hin
            exact (h.clients _ old client (Dict.mem_of_get? hids) hmem).mono hr _
      · exact hold hm
    | deleted name why after _ _ hc _ =>
      rw [hc] at hm
      exact hold (Dict.mem_pop.mp hm).1
  · have hold (hm : (client, till, why) ∈ s.mem.gone) :
        LetThroughAndDeleted (acts ++ [.resume t]) client till why :=
      (h.gone client till why hm).mono hr _
    cases htells.tables with
    | same _ hg => exact hold (hg hm)
    | relayed user client' _ _ _ hg => exact hold (hg hm)
    | deleted name why' after hpc ha _ hg =>
      rw [hg] at hm
      rcases mem_gone_deleted hm with hm | ⟨hin, heq⟩
      · exact hold hm
      · obtain ⟨rfl, rfl⟩ := Prod.mk.inj heq
        subst hpc ha
        exact h.deleted hr ht hin

/-- Every entry of the two tables is traced back in every run. -/
theorem traced_of_run (hr : program.run initial acts = some s) : Traced acts s := by
  refine Program.run_history ?_ (fun acts m x m' hm h hs => ?_) hr
  · exact ⟨fun t th x ht => by simp [State.at, initial] at ht, by simp [initial],
      by simp [initial], by simp [initial]⟩
  · cases x with
    | call c => exact h.call hm hs
    | serve t c => exact h.serve hm hs
    | resume t => exact h.resume hm hs
    | env e => exact h.env hm hs

end History

def sameUser (u v : User) : Bool := u.name = v.name && u.workload = v.workload

theorem sameUser_iff {u v : User} :
    sameUser u v = true ↔ u.name = v.name ∧ u.workload = v.workload := by
  simp [sameUser]

theorem owner_of_sameUser {u v : User} (h : sameUser u v = true) : u.owner = v.owner := by
  obtain ⟨hn, hw⟩ := sameUser_iff.mp h
  simp [User.owner, hn, hw]

theorem cluster_of_sameUser {u v : User} (h : sameUser u v = true) : u.cluster = v.cluster := by
  rw [User.cluster, User.cluster, (sameUser_iff.mp h).1]

def Call.client? : Call → Option String
  | .relay _ _ client => some client
  | _ => none

def callsOf (acts : List Act) : List Call :=
  acts.filterMap fun
    | .call call => some call
    | _ => none

/-- Two calls of one user, or of users whose clusters have different names and that do not
relay under one client ID. -/
def apart (c d : Call) : Bool :=
  match c.user?, d.user? with
  | some u, some v =>
    sameUser u v || (u.cluster ≠ v.cluster && (c.client?.isNone || c.client? ≠ d.client?))
  | _, _ => true

def Apart (acts : List Act) : Prop := ∀ c ∈ callsOf acts, ∀ d ∈ callsOf acts, apart c d = true

instance (acts : List Act) : Decidable (Apart acts) :=
  inferInstanceAs (Decidable (∀ c ∈ callsOf acts, ∀ d ∈ callsOf acts, apart c d = true))

/-- A call of the user with that client ID was let through to the user's own cluster, and
later the gateway deleted that cluster, less than `goneS` before `now`. -/
def OwnRemoval (acts : List Act) (now : ℤ) (user : User) (client why : String) : Prop :=
  ∃ p q u, List.Sublist [p, q] (program.trail initial acts) ∧ sameUser u user = true ∧
    relays p.1 u client p.2 = true ∧ deletes q.1 user.cluster why q.2 = true ∧
    (∀ c ∈ q.1.world.clusters, c.name = user.cluster → c.owner = user.owner) ∧
    now < q.1.world.now + goneS

theorem mem_callsOf {acts : List Act} {call : Call} (h : Action.call call ∈ acts) :
    call ∈ callsOf acts :=
  List.mem_filterMap.mpr ⟨_, h, rfl⟩

theorem Apart.same {acts : List Act} (h : Apart acts) {u v : User} {x y : Goal}
    (hu : Called acts (u, x)) (hv : Called acts (v, y))
    (hs : u.cluster = v.cluster ∨ ∃ client, x = .relay client ∧ y = .relay client) :
    sameUser u v = true := by
  have hcall {z : User × Goal} {c : Call} (hz : c.for? = some z) :
      c.user? = some z.1 ∧ ∀ client, z.2 = .relay client → c.client? = some client := by
    unfold Call.for? at hz
    split at hz
    · cases hz
      exact ⟨rfl, fun _ h => by cases h; rfl⟩
    · cases hz
      exact ⟨rfl, nofun⟩
    · cases hz
  obtain ⟨c, hc, hcx⟩ := hu
  obtain ⟨d, hd, hdy⟩ := hv
  have hapart := h c (mem_callsOf hc) d (mem_callsOf hd)
  simp only [apart, (hcall hcx).1, (hcall hdy).1, Bool.or_eq_true, Bool.and_eq_true,
    decide_eq_true_eq, Option.isNone_iff_eq_none] at hapart
  rcases hapart with hsame | ⟨hne, hclient⟩
  · exact hsame
  · rcases hs with hcluster | ⟨client, rfl, rfl⟩
    · exact absurd hcluster hne
    · simp [(hcall hcx).2 client rfl, (hcall hdy).2 client rfl] at hclient

/-- Where `relay` refuses with what `gone` keeps, the client ID is in it. -/
theorem gone_of_refusesGone {s : St} {user : User} {client why : String} {x : Act}
    (h : refusesGone s user client why x = true) :
    ∃ t th till, s.at t = some th ∧ servedOf th.pc = some (user, .relay client) ∧
      (client, till, why) ∈ s.mem.gone ∧ s.world.now < till := by
  unfold refusesGone at h
  split at h
  · rename_i t
    split at h
    · rename_i u sh c ht
      simp only [Bool.and_eq_true, decide_eq_true_eq] at h
      obtain ⟨⟨rfl, rfl⟩, hev⟩ := h
      simp only [entered] at hev
      split at hev
      · rename_i till why' hget
        have hmem := List.mem_filter.mp (Dict.mem_of_get? hget)
        obtain rfl : why' = why := by simpa [refuse] using hev
        exact ⟨t, _, till, ht, rfl, hmem.1, by simpa using hmem.2⟩
      · -- `cluster_for` refuses with other codes, and otherwise goes on.
        exfalso
        unfold clusterFor at hev
        split at hev
        · simp [refuse] at hev
        split at hev
        · simp [refuse] at hev
        split at hev
        · rename_i e he
          have hcode : e.code = .invalidArgument := by
            unfold mountedEnv at he
            dsimp only at he
            split_ifs at he
            cases he
            rfl
          simp only [List.cons.injEq, Event.refused.injEq, and_true] at hev
          simp [hev] at hcode
        split_ifs at hev
        · simp [found] at hev
        · simp [awaiting] at hev
    · cases h
  · cases h

/-- Where no two users share a client ID or the name of their clusters, a call hears only of
the removal of its own user's cluster. -/
theorem ownRemoval_of_apart {acts : List Act} {s : St} {x : Act} {user : User}
    {client why : String} (ha : Apart acts) (hr : program.run initial acts = some s)
    (hx : refusesGone s user client why x = true) :
    OwnRemoval acts s.world.now user client why := by
  have htraced := traced_of_run hr
  obtain ⟨t, th, till, ht, hth, hmem, hnow⟩ := gone_of_refusesGone hx
  have hself : Called acts (user, .relay client) := htraced.served t th _ ht hth
  obtain ⟨p, q, u, hpq, hp, hu, hq, howned, rfl⟩ := htraced.gone client till why hmem
  have hsame : sameUser u user = true := ha.same hu hself (.inr ⟨client, rfl, rfl⟩)
  rw [cluster_of_sameUser hsame] at hq
  refine ⟨p, q, u, hpq, hsame, hp, hq, fun c hc hname => ?_, hnow⟩
  rcases howned c hc with ⟨⟨v, goal⟩, hv, hcluster, howner⟩ | ⟨owner, cluster, key, more, hjob⟩
  · have hvs : sameUser v user = true := ha.same hv hself (.inl (hcluster.trans hname))
    rw [← owner_of_sameUser hvs]
    exact howner.symm
  · exact absurd (hname.symm.trans hjob) (clusterName_ne_jobName _ _ _ _ _)

def secondUser : User := { name := "bob", account := "bob", uid := 3, gid := 3 }

/-- Alice's notebook, which names no client ID, is relayed to her new cluster, and she
deletes it; then Bob's call comes in, which names none either. -/
def unnamedRun : List Act :=
  .call (.relay hubUser (shapeOf "1") "") :: creating 0 ++
    .env (.ready 0 true) :: answers 0 [.ok, .bool false] ++
    .call (.own hubUser (shapeOf "1") (.delete true)) :: answers 1 [.ok, .ok, .ok] ++
    [.call (.relay secondUser (shapeOf "1") ""), .serve 2 .ok]

theorem not_ownRemoval_unnamed :
    ¬∀ acts s x user client why, program.run initial acts = some s →
      refusesGone s user client why x = true →
      ∃ q ∈ program.trail initial acts, deletes q.1 user.cluster why q.2 = true := by
  intro h
  have hany : (program.run initial unnamedRun).any
      (fun s => refusesGone s secondUser "" removedByUser (.resume 2)) = true := by decide +kernel
  obtain ⟨s, hs, hx⟩ := (Option.any_eq_true _ _).mp hany
  obtain ⟨q, hq, hd⟩ := h _ s _ _ _ _ hs hx
  have hnone : (program.trail initial unnamedRun).all
      (fun q => !deletes q.1 secondUser.cluster removedByUser q.2) = true := by decide +kernel
  simpa [hd] using List.all_eq_true.mp hnone q hq

/-- With client IDs of their own, Alice hears of her cluster's removal when she calls again. -/
theorem ownRemoval_of_apart_named :
    let acts := Action.call (.relay hubUser (shapeOf "1") "c1") :: creating 0 ++
      .env (.ready 0 true) :: answers 0 [.ok, .bool false] ++
      .call (.relay secondUser (shapeOf "1") "c2") ::
      .call (.own hubUser (shapeOf "1") (.delete true)) :: answers 2 [.ok, .ok, .ok] ++
      [.env (.tick 299), .call (.relay hubUser (shapeOf "1") "c1"), .serve 3 .ok]
    Apart acts ∧ ∃ s, program.run initial acts = some s ∧
      refusesGone s hubUser "c1" removedByUser (.resume 3) = true ∧
      OwnRemoval acts s.world.now hubUser "c1" removedByUser := by
  intro acts
  have ha : Apart acts := by decide +kernel
  have hany : (program.run initial acts).any
      (fun s => refusesGone s hubUser "c1" removedByUser (.resume 3)) = true := by decide +kernel
  obtain ⟨s, hs, hx⟩ := (Option.any_eq_true _ _).mp hany
  exact ⟨ha, s, hs, hx, ownRemoval_of_apart ha hs hx⟩

end PurdueAF.RayClusters
