import PurdueAF.RayClusters

/-!
# What a step of the gateway can do

Every invariant below is about a few things: what a suspended call takes its cluster for,
the pass it is in, the GPUs it was admitted with, the RayJob's name it drew, the two locks,
and the gateway's dictionaries. Here it is said once what running a coroutine from one
await to the next can do to them, and what serving a call can do to the world.
-/
namespace PurdueAF.RayClusters
open Ray RayNaming Coroutine

/-- The user and shape for which a call will take the cluster of the user's name without
looking again. -/
def takes : Pc → Option Answer → Option (User × Shape)
  | .headUp u s _, _ | .headOpen u s _, _ => some (u, s)
  | .post u s _ _, some (.created _) => some (u, s)
  | .read u s _, some (.cluster (some c)) | .conflict u s _, some (.cluster (some c)) =>
    if c.owner = u.owner ∧ runs c s then some (u, s) else none
  | _, _ => none

/-- The same of `running`, which takes the cluster in whatever shape it read. -/
def sees : Pc → Option Answer → Option (User × Shape)
  | .running u, some (.cluster (some c)) =>
    if live c ∧ c.owner = u.owner then some (u, c.shape) else none
  | _, _ => none

/-- The pass that a coroutine is in the middle of. -/
def passOf : Pc → Option Pass
  | .reapBusy _ p | .delete _ _ (.unprovisioned p) | .delete _ _ (.idle p)
  | .close _ (.unprovisioned p) | .close _ (.idle p) => some p
  | _ => none

/-- When the pass began that a coroutine is in, or is about to begin. -/
def passNow (w : World) : Pc → Option ℤ
  | .reapList => some w.now
  | pc => (passOf pc).map Pass.now

theorem passNow_cases {w : World} {pc : Pc} {now : ℤ} (h : passNow w pc = some now) :
    (pc = .reapList ∧ now = w.now) ∨ ∃ p, passOf pc = some p ∧ p.now = now := by
  unfold passNow at h
  split at h
  · exact .inl ⟨rfl, (Option.some.inj h).symm⟩
  · exact .inr (Option.map_eq_some_iff.mp h)

/-- The name and GPUs of a cluster that was admitted and is not created yet. -/
def pendingOf : Pc → Option Answer → Option (String × Gpus)
  | .delete _ _ (.replace u s _ mix), _ | .close _ (.replace u s _ mix), _
  | .gone u s _ mix, _ | .post u s _ mix, none => some (u.cluster, scaled (perWorkerOf s) mix)
  | .postJob u s key mix, none =>
    some (jobName u.owner u.cluster key, scaled (perWorkerOf s) mix)
  | _, _ => none

theorem pendingOf_reply (pc : Pc) (a : Answer) :
    pendingOf pc (some a) = none ∨ pendingOf pc (some a) = pendingOf pc none := by
  cases pc with
  | delete name why after | close name after => cases after <;> exact .inr rfl
  | post | postJob => exact .inl rfl
  | _ => exact .inr rfl

/-- What `admit` grants when it is answered. -/
def grantsOf : Pc → Answer → Option (String × Gpus)
  | .free a _ granted others, .free f =>
    match a.shape.ask with
    | some ask =>
      match admitMix ask a.shape.memory (a.scene f granted others) with
      | .ok mix => some (a.name, scaled (perWorkerOf a.shape) mix)
      | .error _ => none
    | none => none
  | _, _ => none

def Admission.job? (a : Admission) : Option String :=
  match a.next with
  | .job _ => some a.name
  | _ => none

/-- The name a submission drew for its RayJob, until the answer to its `POST`. -/
def jobOf : Pc → Option String
  | .caller call => call.job?
  | .lock a | .list a | .free a _ _ _ => a.job?
  | .postJob u _ key _ => some (jobName u.owner u.cluster key)
  | _ => none

/-- Whether a coroutine is inside `async with self.admitting`. -/
def admits : Pc → Bool
  | .list _ | .free _ _ _ _ => true
  | _ => false

/-- Whether a coroutine is the reaper's, which starts no pass before the last one ended. -/
def reaps : Pc → Bool
  | .reapList => true
  | pc => (passOf pc).isSome

/-- Why the cluster that a Ray Client lost is gone, while the gateway remembers it. -/
def toldGone (w : World) (g : Gateway) (client : String) : Option (ℤ × String) :=
  Dict.get? (List.filter (fun e => decide (w.now < e.2.1)) g.gone) client

/-- `cluster_for` lets the call in, and knows the user's cluster started in that shape. -/
def knows (g : Gateway) (user : User) (shape : Shape) : Bool :=
  shape.site = "purdue" && !user.sessionGpu && (mountedEnv shape.env user).isOk &&
    decide (g.started.get? user.cluster = some (user.owner, shape))

/-- The cluster that a call gets through to at once, as the gateway knows it started. -/
def throughAtOnce (w : World) (g : Gateway) : Call → Option String
  | .relay user shape client =>
    if (toldGone w g client).isNone && knows g user shape then some user.cluster else none
  | .http user =>
    if (g.started.get? user.cluster).any (fun e => decide (e.1 = user.owner)) then
      some user.cluster else none
  | .own user shape .post => if knows g user shape then some user.cluster else none
  | _ => none

/-- What shows a cluster in use: a call or a request that gets through to it, or a busy head
that a pass hears of. -/
inductive Use
  | through (cluster : String)
  | busy (cluster : String) (began : ℤ)
  deriving DecidableEq

/-- A call gets through when the gateway knows its cluster started, when its read of it is
answered and when its head is up, and a request when it is taken up. -/
def useOf (w : World) (g : Gateway) : Pc → Answer → Option Use
  | .caller call, .done => (throughAtOnce w g call).map .through
  | .read user _ _, .cluster found =>
    if found.any fun c => live c && c.owner ≠ user.owner then none
    else some (.through user.cluster)
  | .headOpen user _ _, .bool isOpen => if isOpen then none else some (.through user.cluster)
  | .running user, .cluster (some c) =>
    if live c && c.owner = user.owner then some (.through user.cluster) else none
  | .relaying cluster, .request => some (.through cluster)
  | .reapBusy c p, .bool busy => if busy then some (.busy c.name p.now) else none
  | _, _ => none

/-- The coroutine that resumes here, with its answer. -/
def resumed (s : St) : Act → Option (Pc × Answer)
  | .resume t =>
    match s.at t with
    | some ⟨pc, some a⟩ => some (pc, a)
    | _ => none
  | _ => none

theorem resumed_of_at {s : St} {t : ℕ} {pc : Pc} {a : Answer}
    (ht : s.at t = some ⟨pc, some a⟩) : resumed s (.resume t) = some (pc, a) := by
  simp [resumed, ht]

/-- The clocks stay, a call or a request that gets through sets one, one is forgotten, or a
pass writes its beginning: over whatever there is where the head is busy, else only where
there is nothing. -/
inductive Clocks (w : World) (g : Gateway) (pc : Pc) (a : Answer) (g' : Gateway) : Prop
  | same (hn : useOf w g pc a = none) (hu : g'.lastUsed = g.lastUsed)
  | used (n : String) (hn : useOf w g pc a = some (.through n))
      (hu : g'.lastUsed = g.lastUsed.set n w.now)
  | lost (n : String) (hn : useOf w g pc a = none) (hu : g'.lastUsed = g.lastUsed.pop n)
  | busy (c : RayCluster) (p : Pass) (hpc : pc = .reapBusy c p) (ha : a = .bool true)
      (hu : g'.lastUsed = (reapBusy g c.name p.now).lastUsed)
  | seen (c : RayCluster) (p : Pass) (hpc : pc = .reapBusy c p) (ha : a = .bool false)
      (hu : g'.lastUsed = (seen g c.name p.now).lastUsed)

/-- Whatever the next await carries comes from the one before it. -/
structure Carries (w : World) (g : Gateway) (pc : Pc) (a : Answer) (pc' : Pc) : Prop where
  takes : ∀ us, takes pc' none = some us → RayClusters.takes pc (some a) = some us
  pass : ∀ p, passOf pc' = some p → passNow w pc = some p.now
  pending : ∀ x, pendingOf pc' none = some x → pendingOf pc (some a) = some x ∨ grantsOf pc a = some x
  job : ∀ n, jobOf pc' = some n → jobOf pc = some n
  scene : ∀ ad now granted others, pc' = .free ad now granted others → ∃ cs, pc = .list ad ∧
    a = .clusters cs ∧ granted = grantedBut ad.name (liveGrants w.now g.grants) ∧
    others = Dict.pop (othersOf cs) ad.name

/-- What a call returns, or a pass deletes, it has reason to. -/
def Reason (g : Gateway) (pc : Pc) (a : Answer) : Event → Prop
  | .clusterFor u s =>
    g.started.get? u.cluster = some (u.owner, s) ∨ takes pc (some a) = some (u, s)
  | .running u => ∃ s, g.started.get? u.cluster = some (u.owner, s) ∨ sees pc (some a) = some (u, s)
  | .deletesIdle n => ∃ c p u, pc = .reapBusy c p ∧ a = .bool false ∧ n = c.name ∧
      g.lastUsed.get? n = some u ∧ idleTimeoutS ≤ p.now - u
  | _ => True

structure Effect (w : World) (g : Gateway) (pc : Pc) (a : Answer) (r : Step) : Prop where
  started : ∀ n e, r.mem.started.get? n = some e → g.started.get? n = some e ∨
    ∃ us, takes pc (some a) = some us ∧ n = us.1.cluster ∧ e = (us.1.owner, us.2)
  clocks : Clocks w g pc a r.mem
  drawn : r.mem.drawn = g.drawn
  admitting : Locks (fun g (_ : Unit) => g.admitting) (fun pc _ => admits pc = true) g
    (fun _ => admits pc = true) r
  reaping : Locks (fun g (_ : Unit) => g.reaping) (fun pc _ => reaps pc = true) g
    (fun _ => reaps pc = true) r
  next : ∀ pc', r.next = some pc' → Carries w g pc a pc'
  events : ∀ e ∈ r.events, Reason g pc a e

/-- Whether a coroutine carries nothing at this await. -/
def plain (pc : Pc) : Bool :=
  (takes pc none).isNone && (passOf pc).isNone && (pendingOf pc none).isNone &&
    (jobOf pc).isNone && !admits pc && !reaps pc

/-- The drawn names and the locks are as they were, and `started` has what it had or what
the call found. -/
structure Keeps (g : Gateway) (pc : Pc) (a : Answer) (g' : Gateway) : Prop where
  started : ∀ n e, g'.started.get? n = some e → g.started.get? n = some e ∨
    ∃ us, takes pc (some a) = some us ∧ n = us.1.cluster ∧ e = (us.1.owner, us.2)
  drawn : g'.drawn = g.drawn
  admitting : g'.admitting = g.admitting
  reaping : g'.reaping = g.reaping

variable {w : World} {g g' : Gateway} {pc pc' : Pc} {a : Answer}

theorem Keeps.of_eq (hs : g'.started = g.started) (hd : g'.drawn = g.drawn)
    (ha : g'.admitting = g.admitting) (hr : g'.reaping = g.reaping) : Keeps g pc a g' where
  started _ _ h := .inl (hs ▸ h)
  drawn := hd
  admitting := ha
  reaping := hr

theorem Keeps.refl : Keeps g pc a g := .of_eq (by rfl) (by rfl) (by rfl) (by rfl)

theorem Clocks.refl (hn : useOf w g pc a = none) : Clocks w g pc a g := .same hn (by rfl)

theorem carries_of_plain (h : plain pc' = true) : Carries w g pc a pc' ∧
    (admits pc' = true → admits pc = true) ∧ (reaps pc' = true → reaps pc = true) := by
  simp only [plain, Bool.and_eq_true, Option.isNone_iff_eq_none, Bool.not_eq_true'] at h
  obtain ⟨⟨⟨⟨⟨ht, hp⟩, hm⟩, hj⟩, ha⟩, hr⟩ := h
  refine ⟨⟨by simp [ht], by simp [hp], by simp [hm], by simp [hj], ?_⟩, by simp [ha], by simp [hr]⟩
  rintro ad now granted others rfl
  cases ha

/-- A coroutine that goes on to `next` and leaves the locks alone. -/
theorem Effect.going {next : Option Pc} {events : List Event} (hk : Keeps g pc a g')
    (hc : Clocks w g pc a g') (hn : ∀ pc', next = some pc' → Carries w g pc a pc' ∧
      (admits pc' = true → admits pc = true) ∧ (reaps pc' = true → reaps pc = true))
    (he : ∀ e ∈ events, Reason g pc a e) : Effect w g pc a ⟨g', next, events⟩ where
  started := hk.started
  clocks := hc
  drawn := hk.drawn
  admitting := .of_eq (funext fun _ => hk.admitting) fun _ pc' h hp => (hn pc' h).2.1 hp
  reaping := .of_eq (funext fun _ => hk.reaping) fun _ pc' h hp => (hn pc' h).2.2 hp
  next pc' h := (hn pc' h).1
  events := he

theorem Effect.ends {events : List Event} (hk : Keeps g pc a g') (hc : Clocks w g pc a g')
    (he : ∀ e ∈ events, Reason g pc a e) : Effect w g pc a ⟨g', none, events⟩ :=
  .going hk hc (by simp) he

theorem Effect.refuse (hk : Keeps g pc a g') (hc : Clocks w g pc a g') (code : StatusCode)
    (text : String) : Effect w g pc a (RayClusters.refuse g' code text) :=
  .ends hk hc (by simp [Reason])

theorem Effect.raised (hk : Keeps g pc a g') (hc : Clocks w g pc a g') :
    Effect w g pc a (RayClusters.raised g') :=
  .ends hk hc (by simp [Reason])

theorem Effect.refuse_self (hn : useOf w g pc a = none) (code : StatusCode) (text : String) :
    Effect w g pc a (RayClusters.refuse g code text) :=
  .refuse .refl (.refl hn) code text

theorem Effect.raised_self (hn : useOf w g pc a = none) :
    Effect w g pc a (RayClusters.raised g) :=
  .raised .refl (.refl hn)

theorem Effect.plain (hk : Keeps g pc a g') (hc : Clocks w g pc a g')
    (hp : RayClusters.plain pc' = true) :
    Effect w g pc a (RayClusters.awaiting g' pc') := by
  refine .going hk hc (fun x h => ?_) (by simp)
  obtain rfl : pc' = x := Option.some.inj h
  exact carries_of_plain hp

theorem plain_lock {ad : Admission} (h : ad.job? = none) :
    RayClusters.plain (.lock ad) = true := by
  simp [RayClusters.plain, jobOf, h, takes, passOf, pendingOf, admits, reaps]

theorem Effect.admission (hk : Keeps g pc a g') (hc : Clocks w g pc a g') (user : User)
    (shape : Shape) (replaced : Gpus) {next : AfterAdmit} (hn : ∀ key, next ≠ .job key) :
    Effect w g pc a (RayClusters.admission g' user shape replaced next) := by
  unfold RayClusters.admission
  split
  · exact .raised hk hc
  · refine .plain hk hc (plain_lock ?_)
    cases next with
    | job key => exact absurd rfl (hn key)
    | _ => rfl

theorem Effect.nextReap (hk : Keeps g pc a g') (hc : Clocks w g pc a g') {now : ℤ}
    (hp : passNow w pc = some now) (hr : reaps pc = true) (cs : List RayCluster) :
    Effect w g pc a (RayClusters.nextReap w g' now cs) := by
  induction cs with
  | nil =>
    refine ⟨hk.started, ?_, hk.drawn, ?_, ?_, ?_, ?_⟩
    · cases hc
      case same hn hu => exact .same hn hu
      case used n hn hu => exact .used n hn hu
      case lost n hn hu => exact .lost n hn hu
      case busy c p hpc ha hu => exact .busy c p hpc ha hu
      case seen c p hpc ha hu => exact .seen c p hpc ha hu
    · exact .of_eq (funext fun _ => hk.admitting) (by simp [RayClusters.nextReap])
    · exact ⟨fun _ hnot => absurd hr hnot, by simp [RayClusters.nextReap],
        by simp [RayClusters.nextReap]⟩
    · simp [RayClusters.nextReap]
    · simp [RayClusters.nextReap]
  | cons c cs ih =>
    unfold RayClusters.nextReap
    split_ifs
    · exact ih
    all_goals
      refine .going hk hc (fun x h => ?_) (by simp)
      cases h
      refine ⟨⟨nofun, fun p h => ?_, nofun, nofun, by simp⟩, by simp [admits], fun _ => hr⟩
      cases h
      exact hp

theorem Effect.found (hk : Keeps g pc a g') (hu : g'.lastUsed = g.lastUsed) {user : User}
    {shape : Shape} (hn : useOf w g pc a = some (.through user.cluster)) (goal : Goal)
    (h : Reason g pc a (.clusterFor user shape)) :
    Effect w g pc a (RayClusters.found w g' user shape goal) := by
  cases goal with
  | relay client =>
    refine .going ⟨hk.started, hk.drawn, hk.admitting, hk.reaping⟩
      (.used user.cluster hn (by simp [noteUse, hu])) ?_ (by simpa using h)
    intro x hx
    cases hx
    exact carries_of_plain rfl
  | own =>
    refine .going ⟨hk.started, hk.drawn, hk.admitting, hk.reaping⟩
      (.used user.cluster hn (by simp [noteUse, hu])) ?_ (by simpa using h)
    intro x hx
    cases hx
    exact carries_of_plain rfl

theorem Effect.clusterFor (hs : g'.started = g.started) (hk : Keeps g pc a g')
    (hu : g'.lastUsed = g.lastUsed) (user : User) (shape : Shape) (goal : Goal)
    (hn : useOf w g pc a =
      if knows g user shape then some (.through user.cluster) else none) :
    Effect w g pc a (RayClusters.clusterFor w g' user shape goal) := by
  have hc (h : knows g user shape = false) : Clocks w g pc a g' := .same (by simp [hn, h]) hu
  unfold RayClusters.clusterFor
  split
  · rename_i hsite
    exact .refuse hk (hc (by simp [knows, hsite])) _ _
  rename_i hsite
  split
  · rename_i hgpu
    exact .refuse hk (hc (by simp [knows, hgpu])) _ _
  rename_i hgpu
  split
  · rename_i e henv
    exact .ends hk (hc (by simp [knows, henv, Except.isOk, Except.toBool])) (by simp [Reason])
  rename_i env henv
  split_ifs with h
  · rw [hs] at h
    have hknows : knows g user shape = true := by
      simp_all [knows, Except.isOk, Except.toBool]
    exact .found hk hu (by simp [hn, hknows]) goal (.inl h)
  · rw [hs] at h
    exact .plain hk (hc (by simp [knows, h])) (by rfl)

theorem Effect.running (user : User) :
    Effect w g (.caller (.http user)) .done (RayClusters.running w g user) := by
  unfold RayClusters.running
  split
  · rename_i owner shape h
    split_ifs with ho
    · subst ho
      refine .ends (.of_eq (by rfl) (by rfl) (by rfl) (by rfl))
        (.used user.cluster (by simp [useOf, throughAtOnce, h]) rfl) ?_
      simpa [Reason] using ⟨shape, .inl h⟩
    · exact .plain .refl (.refl (by simp [useOf, throughAtOnce, h, ho])) (by rfl)
  · rename_i h
    exact .plain .refl (.refl (by simp [useOf, throughAtOnce, h])) (by rfl)

theorem Effect.entered (call : Call) :
    Effect w g (.caller call) .done (RayClusters.entered w g call) := by
  cases call with
  | relay user shape client =>
    simp only [RayClusters.entered]
    split
    · rename_i late why hgone
      have htold : toldGone w g client = some (late, why) := hgone
      exact .refuse (.of_eq (by rfl) (by rfl) (by rfl) (by rfl))
        (.same (by simp [useOf, throughAtOnce, htold]) (by rfl)) _ _
    · rename_i hgone
      have htold : toldGone w g client = none := hgone
      exact .clusterFor (by rfl) (.of_eq (by rfl) (by rfl) (by rfl) (by rfl)) (by rfl) user shape _
        (by simp [useOf, throughAtOnce, htold])
  | http user => exact .running user
  | own user shape method =>
    cases method with
    | post => exact .clusterFor rfl .refl rfl user shape _ (by simp [useOf, throughAtOnce])
    | get => exact .plain .refl (.refl (by rfl)) (by rfl)
    | delete force => exact .plain .refl (.refl (by rfl)) (by rfl)
  | submit user shape key =>
    simp only [RayClusters.entered]
    split_ifs
    · exact .refuse_self (by rfl) _ _
    · split
      · exact .ends .refl (.refl (by rfl)) (by simp [Reason])
      · unfold RayClusters.admission
        split
        · exact .raised_self (by rfl)
        · refine .going .refl (.refl (by rfl)) (fun x h => ?_) (by simp)
          cases h
          exact ⟨⟨by rintro _ ⟨⟩, by rintro _ ⟨⟩, by rintro _ ⟨⟩, fun n h => h, by simp⟩, by simp [admits],
            by simp [reaps, passOf]⟩
  | reap => exact .raised_self (by rfl)

theorem Effect.resumeRead (user : User) (shape : Shape) (goal : Goal) (c : Option RayCluster) :
    Effect w g (.read user shape goal) (.cluster c)
      (RayClusters.resumeRead w g user shape goal c) := by
  have hk (b : Answer) : Keeps g (.read user shape goal) b (noteUse w g user.cluster) :=
    .of_eq rfl rfl rfl rfl
  cases c with
  | none => exact .admission (hk _) (.used user.cluster rfl rfl) _ _ _ (by simp)
  | some c =>
    simp only [RayClusters.resumeRead]
    by_cases ho : (live c && c.owner ≠ user.owner) = true
    · rw [if_pos ho]
      refine .refuse .refl (.refl ?_) _ _
      simpa [useOf] using ho
    rw [if_neg ho]
    have hc : Clocks w g (.read user shape goal) (.cluster (some c)) (noteUse w g user.cluster) :=
      .used user.cluster (by simpa [useOf] using ho) rfl
    split_ifs with hr hl
    · have hlive : live c = true := by
        simp only [runs, Bool.and_eq_true] at hr
        exact hr.1
      have hown : c.owner = user.owner := by simpa [hlive] using ho
      refine .going (hk _) hc (fun x h => ?_) (by simp)
      cases h
      refine ⟨⟨fun us h => ?_, nofun, nofun, nofun, by simp⟩, by simp [admits], by simp [reaps, passOf]⟩
      simpa [takes, hown, hr] using h
    · exact .plain (hk _) hc (by rfl)
    · exact .admission (hk _) hc _ _ _ (by simp)

theorem Effect.resumeConflict (user : User) (shape : Shape) (goal : Goal)
    (c : Option RayCluster) : Effect w g (.conflict user shape goal) (.cluster c)
      (RayClusters.resumeConflict g user shape goal c) := by
  cases c with
  | none => exact .refuse_self (by rfl) _ _
  | some c =>
    simp only [RayClusters.resumeConflict]
    split_ifs with ho hr
    · exact .refuse_self (by rfl) _ _
    · have hown : c.owner = user.owner := by simpa using ho
      refine .going .refl (.refl (by rfl)) (fun x h => ?_) (by simp)
      cases h
      refine ⟨⟨fun us h => ?_, nofun, nofun, nofun, by simp⟩, by simp [admits], by simp [reaps, passOf]⟩
      simpa [takes, hown, hr] using h
    · exact .refuse_self (by rfl) _ _

theorem Effect.resumeRunning (user : User) (c : Option RayCluster) :
    Effect w g (.running user) (.cluster c) (RayClusters.resumeRunning w g user c) := by
  cases c with
  | none => exact .refuse_self (by rfl) _ _
  | some c =>
    simp only [RayClusters.resumeRunning]
    split_ifs with hl ho
    · exact .refuse .refl (.refl (by simp [useOf, ho])) _ _
    · have hown : c.owner = user.owner := by simpa using ho
      refine .ends (.of_eq (by rfl) (by rfl) (by rfl) (by rfl))
        (.used user.cluster (by simp [useOf, hl, hown]) rfl) ?_
      simpa [Reason] using ⟨c.shape, .inr (by simp [sees, hl, hown])⟩
    · exact .refuse .refl (.refl (by simp [useOf, hl])) _ _

theorem Effect.resumeOwn (user : User) (method : Method) (c : Option RayCluster) :
    Effect w g (.ownRead user method) a (RayClusters.resumeOwn g user method c) := by
  unfold RayClusters.resumeOwn
  split
  · exact .refuse_self (by rfl) _ _
  · exact .ends .refl (.refl (by rfl)) (by simp)
  · split_ifs
    · exact .refuse_self (by rfl) _ _
    · split
      · exact .plain .refl (.refl (by rfl)) (by rfl)
      · exact .plain .refl (.refl (by rfl)) (by rfl)
      · exact .ends .refl (.refl (by rfl)) (by simp)

/-- A deletion was answered: the name is no longer known started. -/
theorem Effect.deleted (name why : String) (after : AfterDelete) :
    Effect w g (.delete name why after) a
      (RayClusters.awaiting (RayClusters.deleted w g name why) (.close name after)) where
  started n e h := by
    have h' : (g.started.pop name).get? n = some e := h
    rw [Dict.get?_pop] at h'
    split_ifs at h'
    exact .inl h'
  clocks := .same rfl rfl
  drawn := rfl
  admitting := .of_eq rfl (by simp [RayClusters.awaiting, admits])
  reaping := .of_eq rfl fun _ x h hx => by
    cases h
    cases after <;> simp_all [reaps, passOf]
  next x h := by
    cases h
    refine ⟨by rintro _ ⟨⟩, fun p hp => ?_, fun m hm => ?_, by rintro _ ⟨⟩, by simp⟩
    · cases after <;> simp_all [passNow, passOf]
    · cases after <;> simp_all [pendingOf]
  events := by simp [RayClusters.awaiting]

theorem Effect.resumeClose (name : String) (after : AfterDelete) :
    Effect w g (.close name after) a (RayClusters.resumeClose w g name after) := by
  cases after with
  | replace user shape goal mix =>
    refine .going .refl (.refl (by rfl)) (fun x h => ?_) (by simp)
    cases h
    exact ⟨⟨nofun, nofun, fun m hm => .inl hm, nofun, by simp⟩, by simp [admits],
      by simp [reaps, passOf]⟩
  | openHead => exact .refuse_self (by rfl) _ _
  | byUser => exact .ends (.of_eq (by rfl) (by rfl) (by rfl) (by rfl)) (.lost name rfl rfl) (by simp)
  | unprovisioned p | idle p =>
    refine .nextReap ?_ (.lost name (by rfl) ?_) (by rfl) (by rfl) p.rest
    all_goals first
      | rfl
      | exact .of_eq (by rfl) (by rfl) (by rfl) (by rfl)

theorem Effect.deleteFailed {otherwise : Step} (name why : String) (after : AfterDelete)
    (h : Effect w g (.delete name why after) a otherwise) :
    Effect w g (.delete name why after) a (RayClusters.deleteFailed w g otherwise after) := by
  cases after with
  | unprovisioned p => exact .nextReap .refl (.refl (by rfl)) rfl rfl p.rest
  | idle p => exact .nextReap .refl (.refl (by rfl)) rfl rfl p.rest
  | _ => exact h

theorem Effect.resumeReap (c : RayCluster) (p : Pass) (busy : Bool) :
    Effect w g (.reapBusy c p) (.bool busy) (RayClusters.resumeReap w g c p busy) := by
  cases busy with
  | true =>
    exact .nextReap (.of_eq (by rfl) (by rfl) (by rfl) (by rfl)) (.busy c p rfl rfl rfl) rfl rfl p.rest
  | false =>
    have hk : Keeps g (.reapBusy c p) (.bool false) (RayClusters.seen g c.name p.now) := by
      unfold RayClusters.seen
      split <;> exact .of_eq (by rfl) (by rfl) (by rfl) (by rfl)
    have hc : Clocks w g (.reapBusy c p) (.bool false) (RayClusters.seen g c.name p.now) :=
      .seen c p rfl rfl rfl
    simp only [RayClusters.resumeReap, Bool.false_eq_true, if_false]
    split_ifs with hidle
    · refine .going hk hc (fun x h => ?_) ?_
      · cases h
        refine ⟨⟨by rintro _ ⟨⟩, fun q hq => ?_, by rintro _ ⟨⟩, by rintro _ ⟨⟩, by simp⟩, by simp [admits], fun _ => rfl⟩
        cases hq
        rfl
      · simp only [List.mem_singleton, forall_eq, Reason]
        cases hu : g.lastUsed.get? c.name with
        | none => simp [RayClusters.seen, hu, idleTimeoutS] at hidle
        | some u =>
          simp only [RayClusters.seen, hu, Option.getD_some] at hidle
          exact ⟨c, p, u, rfl, trivial, rfl, rfl, hidle⟩
    · exact .nextReap hk hc rfl rfl p.rest

/-- `admit` ends in an answer, and gives the lock back. -/
theorem Effect.unlocks {next : Option Pc} {events : List Event} (ha : admits pc = true)
    (hs : g'.started = g.started) (hu : g'.lastUsed = g.lastUsed)
    (hd : g'.drawn = g.drawn) (hr : g'.reaping = g.reaping)
    (hn : ∀ pc', next = some pc' → Carries w g pc a pc' ∧ admits pc' = false ∧ reaps pc' = false)
    (he : ∀ e ∈ events, Reason g pc a e) : Effect w g pc a ⟨g', next, events⟩ where
  started n e h := by
    rw [hs] at h
    exact .inl h
  clocks := .same (by cases pc <;> first | rfl | cases ha) hu
  drawn := hd
  admitting := ⟨fun _ hnot => absurd ha hnot, fun _ _ _ _ hnot => absurd ha hnot,
    fun _ pc' h hp => by simp [(hn pc' h).2.1] at hp⟩
  reaping := .of_eq (funext fun _ => hr) fun _ pc' h hp => by simp [(hn pc' h).2.2] at hp
  next pc' h := (hn pc' h).1
  events := he

theorem perWorkerOf_of_ask {shape : Shape} {ask : Ask} (h : shape.ask = some ask) :
    perWorkerOf shape = ask.perWorker := by
  unfold Shape.ask at h
  split at h
  · rename_i hp _
    split_ifs at h
    cases h
    simp [perWorkerOf, hp]
  · cases h

theorem Effect.decided (ad : Admission) (now : ℤ) (granted others : Dict String Gpus)
    (f : Option Free) : Effect w g (.free ad now granted others) (.free f)
      (RayClusters.decided g ad now (ad.scene f granted others)) := by
  unfold RayClusters.decided
  split
  · exact .unlocks rfl (by rfl) (by rfl) (by rfl) (by rfl) (by simp) (by simp [Reason])
  · rename_i ask hask
    split
    · exact .unlocks rfl (by rfl) (by rfl) (by rfl) (by rfl) (by simp) (by simp [Reason])
    · rename_i mix hmix
      have hg : grantsOf (.free ad now granted others) (.free f) =
          some (ad.name, scaled (perWorkerOf ad.shape) mix) := by
        simp [grantsOf, hask, hmix]
      unfold RayClusters.admitted
      split
      all_goals
        rename_i hnext
        refine .unlocks rfl (by rfl) (by rfl) (by rfl) (by rfl) (fun x h => ?_) (by simp)
        cases h
        refine ⟨⟨by rintro _ ⟨⟩, by rintro _ ⟨⟩, fun m hm => .inr (hg.trans (.trans ?_ hm)), ?_, by simp⟩, by rfl, by rfl⟩
        · simp [pendingOf, Admission.name, hnext]
      · rintro _ ⟨⟩
      · rintro _ ⟨⟩
      · rintro _ ⟨⟩
      · intro n hn
        simpa [jobOf, Admission.job?, Admission.name, hnext] using hn

theorem Effect.listed (ad : Admission) (cs : List RayCluster) (grants : Grants) :
    Effect w g (.list ad) (.clusters cs) (RayClusters.awaiting { g with grants := grants }
      (.free ad w.now (grantedBut ad.name (liveGrants w.now g.grants))
        (Dict.pop (othersOf cs) ad.name))) := by
  refine .going (.of_eq rfl rfl rfl rfl) (.same rfl rfl) (fun x h => ?_) (by simp)
  cases h
  refine ⟨⟨nofun, nofun, nofun, fun n h => h, ?_⟩, by simp [admits], by simp [reaps, passOf]⟩
  intro ad' now granted others h
  cases h
  exact ⟨cs, rfl, rfl, rfl, rfl⟩

theorem Effect.locked (ad : Admission) (h : ¬g.admitting = true) :
    Effect w g (.lock ad) .done (RayClusters.awaiting { g with admitting := true } (.list ad)) where
  started n e h := .inl h
  clocks := .same rfl rfl
  drawn := rfl
  admitting := ⟨fun _ _ _ => rfl, fun _ _ _ _ _ => ⟨by simpa using h, rfl⟩, fun _ _ _ _ _ _ => rfl⟩
  reaping := .of_eq rfl (by simp [RayClusters.awaiting, reaps, passOf])
  next x h := by
    cases h
    exact ⟨nofun, nofun, nofun, fun n h => h, by simp⟩
  events := by simp [RayClusters.awaiting]

theorem Effect.headOpen (user : User) (shape : Shape) (goal : Goal) :
    Effect w g (.headOpen user shape goal) (.bool false) (RayClusters.found w
      { g with started := g.started.set user.cluster (user.owner, shape) } user shape goal) := by
  have ht : takes (.headOpen user shape goal) (some (.bool false)) = some (user, shape) := rfl
  refine .found ⟨fun n e h => ?_, by rfl, by rfl, by rfl⟩ (by rfl) (by rfl) goal (.inr ht)
  rw [Dict.get?_set] at h
  split_ifs at h with hn
  · cases h
    exact .inr ⟨(user, shape), rfl, hn, rfl⟩
  · exact .inl h

/-- The next await carries what this one did, and is outside the locks. -/
theorem Effect.passesOn (hk : Keeps g pc a g') (hc : Clocks w g pc a g')
    (ht : takes pc' none = none ∨ takes pc' none = takes pc (some a)) (hp : passOf pc' = none)
    (hm : pendingOf pc' none = none ∨ pendingOf pc' none = pendingOf pc (some a))
    (hj : jobOf pc' = none) (ha : admits pc' = false) (hr : reaps pc' = false) :
    Effect w g pc a (RayClusters.awaiting g' pc') := by
  refine .going hk hc (fun x h => ?_) (by simp)
  obtain rfl : pc' = x := Option.some.inj h
  refine ⟨⟨fun us h => ?_, by simp [hp], fun x h => .inl ?_, by simp [hj], ?_⟩, by simp [ha],
    by simp [hr]⟩
  · rcases ht with ht | ht
    · simp [ht] at h
    · rwa [← ht]
  · rcases hm with hm | hm
    · simp [hm] at h
    · rwa [← hm]
  · rintro ad now granted others rfl
    cases ha

/-- Running a coroutine to its next await. -/
theorem resume_effect {r : Step} (h : resume w g pc a = some r) : Effect w g pc a r := by
  cases pc with
  | caller call =>
    cases a with
    | done => cases h; exact .entered call
    | failed said => cases h; exact .refuse_self (by rfl) _ _
    | _ => cases h; exact .raised_self (by rfl)
  | read user shape goal =>
    cases a with
    | cluster c => cases h; exact .resumeRead user shape goal c
    | failed said => cases h; exact .refuse_self (by rfl) _ _
    | _ => cases h; exact .raised_self (by rfl)
  | busyOld user shape goal old =>
    cases a with
    | bool b =>
      unfold resume at h
      dsimp only at h
      split_ifs at h <;> cases h
      · exact .refuse_self (by rfl) _ _
      · exact .admission .refl (.refl (by rfl)) _ _ _ (by simp)
    | _ => cases h
  | lock ad =>
    cases a with
    | done =>
      unfold resume at h
      dsimp only at h
      split_ifs at h with hl
      cases h
      exact .locked ad hl
    | _ => cases h
  | list ad =>
    cases a with
    | clusters cs => cases h; exact .listed ad cs _
    | failed said =>
      cases h
      exact .unlocks rfl (by rfl) (by rfl) (by rfl) (by rfl) (by simp) (by simp [Reason])
    | _ =>
      cases h
      exact .unlocks rfl (by rfl) (by rfl) (by rfl) (by rfl) (by simp) (by simp [Reason])
  | free ad now granted others =>
    cases a with
    | free f => cases h; exact .decided ad now granted others f
    | _ => cases h
  | delete name why after =>
    cases a with
    | done => cases h; exact .deleted name why after
    | failed said => cases h; exact .deleteFailed name why after (.refuse_self (by rfl) _ _)
    | _ => cases h; exact .deleteFailed name why after (.raised_self (by rfl))
  | close name after =>
    cases a with
    | done => cases h; exact .resumeClose name after
    | _ => cases h
  | gone user shape goal mix =>
    cases a with
    | done => cases h; exact .passesOn .refl (.refl (by rfl)) (.inl rfl) rfl (.inr rfl) rfl rfl rfl
    | failed said => cases h; exact .refuse_self (by rfl) _ _
    | _ => cases h; exact .raised_self (by rfl)
  | post user shape goal mix =>
    cases a with
    | created c =>
      cases h
      exact .passesOn (.of_eq (by rfl) (by rfl) (by rfl) (by rfl)) (.same (by rfl) (by rfl))
        (.inr rfl) rfl (.inl rfl) rfl rfl rfl
    | conflict => cases h; exact .plain .refl (.refl (by rfl)) (by rfl)
    | failed said =>
      cases h
      exact .refuse (.of_eq (by rfl) (by rfl) (by rfl) (by rfl)) (.same (by rfl) (by rfl)) _ _
    | _ => cases h; exact .raised_self (by rfl)
  | conflict user shape goal =>
    cases a with
    | cluster c => cases h; exact .resumeConflict user shape goal c
    | failed said => cases h; exact .refuse_self (by rfl) _ _
    | _ => cases h; exact .raised_self (by rfl)
  | headUp user shape goal =>
    cases a with
    | done => cases h; exact .passesOn .refl (.refl (by rfl)) (.inr rfl) rfl (.inl rfl) rfl rfl rfl
    | failed said => cases h; exact .refuse_self (by rfl) _ _
    | _ => cases h; exact .raised_self (by rfl)
  | headOpen user shape goal =>
    cases a with
    | bool isOpen =>
      cases isOpen with
      | true => cases h; exact .plain .refl (.refl (by rfl)) (by rfl)
      | false => cases h; exact .headOpen user shape goal
    | _ => cases h
  | postJob user shape key mix =>
    cases a with
    | done => cases h; exact .ends .refl (.refl (by rfl)) (by simp)
    | failed said =>
      cases h
      exact .refuse (.of_eq (by rfl) (by rfl) (by rfl) (by rfl)) (.same (by rfl) (by rfl)) _ _
    | _ => cases h; exact .raised_self (by rfl)
  | running user =>
    cases a with
    | cluster c => cases h; exact .resumeRunning user c
    | failed said => cases h; exact .refuse_self (by rfl) _ _
    | _ => cases h; exact .raised_self (by rfl)
  | ownRead user method =>
    cases a with
    | cluster c => cases h; exact .resumeOwn user method c
    | failed said => cases h; exact .refuse_self (by rfl) _ _
    | _ => cases h; exact .raised_self (by rfl)
  | ownBusy user =>
    cases a with
    | bool busy =>
      unfold resume at h
      dsimp only at h
      split_ifs at h <;> cases h
      · exact .refuse_self (by rfl) _ _
      · exact .plain .refl (.refl (by rfl)) (by rfl)
    | _ => cases h
  | relaying cluster =>
    cases a with
    | request =>
      cases h
      exact .plain (.of_eq (by rfl) (by rfl) (by rfl) (by rfl)) (.used cluster (by rfl) (by rfl))
        (by rfl)
    | ended unavailable =>
      cases h
      refine .ends ⟨fun n e h => ?_, ?_, ?_, ?_⟩ (.same ?_ ?_) (by simp)
      · cases unavailable with
        | false => exact .inl h
        | true =>
          have h' : (g.started.pop cluster).get? n = some e := h
          rw [Dict.get?_pop] at h'
          split_ifs at h'
          exact .inl h'
      all_goals cases unavailable <;> rfl
    | _ => cases h
  | reapList =>
    have hends : Effect w g .reapList a (RayClusters.nextReap w g w.now []) :=
      .nextReap .refl (.refl (by rfl)) rfl rfl []
    cases a with
    | clusters cs => cases h; exact .nextReap .refl (.refl (by rfl)) rfl rfl cs
    | _ => cases h; exact hends
  | reapBusy c p =>
    cases a with
    | bool busy => cases h; exact .resumeReap c p busy
    | _ => cases h

/-- The table of grants after running a coroutine: `admit` drops what expired as it takes up
its listing and enters what it grants, and a refused `POST` gives its grant back. -/
def grantsAfter (w : World) (g : Gateway) : Pc → Answer → Grants
  | .list _, .clusters _ => liveGrants w.now g.grants
  | .free ad now granted others, .free f =>
    (grantsOf (.free ad now granted others) (.free f)).elim g.grants fun m =>
      g.grants.set m.1 ⟨m.2, now + grantS⟩
  | .post user _ _ _, .failed _ => g.grants.pop user.cluster
  | .postJob user _ key _, .failed _ => g.grants.pop (jobName user.owner user.cluster key)
  | _, _ => g.grants

theorem found_grants (user : User) (shape : Shape) (goal : Goal) :
    (found w g user shape goal).mem.grants = g.grants := by
  cases goal <;> rfl

theorem clusterFor_grants (user : User) (shape : Shape) (goal : Goal) :
    (clusterFor w g user shape goal).mem.grants = g.grants := by
  unfold clusterFor
  split
  · rfl
  split
  · rfl
  split
  · rfl
  split
  · exact found_grants user shape goal
  · rfl

theorem admission_grants (user : User) (shape : Shape) (replaced : Gpus) (next : AfterAdmit) :
    (admission g user shape replaced next).mem.grants = g.grants := by
  unfold admission
  split <;> rfl

theorem entered_grants (call : Call) : (entered w g call).mem.grants = g.grants := by
  cases call with
  | relay user shape client =>
    simp only [entered]
    split
    · rfl
    · exact clusterFor_grants user shape _
  | http user =>
    simp only [entered, running]
    split
    · split <;> rfl
    · rfl
  | own user shape method =>
    cases method with
    | post => exact clusterFor_grants user shape _
    | _ => rfl
  | submit user shape key =>
    simp only [entered]
    split
    · rfl
    split
    · rfl
    · exact admission_grants user shape _ _
  | reap => rfl

theorem nextReap_grants (now : ℤ) (cs : List RayCluster) :
    (nextReap w g now cs).mem.grants = g.grants := by
  induction cs with
  | nil => rfl
  | cons c cs ih =>
    unfold nextReap
    split
    · exact ih
    · split <;> rfl

theorem deleteFailed_grants {otherwise : Step} (h : otherwise.mem.grants = g.grants)
    (after : AfterDelete) : (deleteFailed w g otherwise after).mem.grants = g.grants := by
  cases after with
  | unprovisioned p | idle p => exact nextReap_grants p.now p.rest
  | _ => exact h

theorem resumeRead_grants (user : User) (shape : Shape) (goal : Goal) (c : Option RayCluster) :
    (resumeRead w g user shape goal c).mem.grants = g.grants := by
  cases c with
  | none => exact admission_grants user shape _ _
  | some c =>
    simp only [resumeRead]
    split
    · rfl
    split
    · rfl
    split
    · rfl
    · exact admission_grants user shape _ _

theorem resumeRunning_grants (user : User) (c : Option RayCluster) :
    (resumeRunning w g user c).mem.grants = g.grants := by
  unfold resumeRunning
  split
  · split
    · split <;> rfl
    · rfl
  · rfl

theorem resumeOwn_grants (user : User) (method : Method) (c : Option RayCluster) :
    (resumeOwn g user method c).mem.grants = g.grants := by
  unfold resumeOwn
  split
  · rfl
  · rfl
  · split
    · rfl
    · split <;> rfl

theorem resumeClose_grants (name : String) (after : AfterDelete) :
    (resumeClose w g name after).mem.grants = g.grants := by
  cases after with
  | unprovisioned p | idle p => exact nextReap_grants p.now p.rest
  | _ => rfl

theorem resumeReap_grants (c : RayCluster) (p : Pass) (busy : Bool) :
    (resumeReap w g c p busy).mem.grants = g.grants := by
  have hseen : (seen g c.name p.now).grants = g.grants := by
    unfold seen
    split <;> rfl
  unfold resumeReap
  split
  · exact nextReap_grants _ _
  · dsimp only
    split
    · exact hseen
    · exact (nextReap_grants _ _).trans hseen

theorem decided_grants (ad : Admission) (now : ℤ) (granted others : Dict String Gpus)
    (f : Option Free) : (decided g ad now (ad.scene f granted others)).mem.grants =
      grantsAfter w g (.free ad now granted others) (.free f) := by
  unfold decided
  cases hask : ad.shape.ask with
  | none => simp [grantsAfter, grantsOf, hask, raised]
  | some ask =>
    cases hmix : admitMix ask ad.shape.memory (ad.scene f granted others) with
    | error e => simp [grantsAfter, grantsOf, hask, hmix]
    | ok mix =>
      have hper : perWorkerOf ad.shape = ask.perWorker := perWorkerOf_of_ask hask
      simp only [grantsAfter, grantsOf, hask, hmix, Option.elim_some, hper]
      unfold admitted
      split <;> rfl

/-- What running a coroutine makes of the grants. -/
theorem resume_grants {r : Step} (h : resume w g pc a = some r) :
    r.mem.grants = grantsAfter w g pc a := by
  cases pc with
  | caller call =>
    cases a with
    | done => cases h; exact entered_grants call
    | _ => cases h; rfl
  | read user shape goal =>
    cases a with
    | cluster c => cases h; exact resumeRead_grants user shape goal c
    | _ => cases h; rfl
  | busyOld user shape goal old =>
    cases a with
    | bool b =>
      cases b with
      | true => cases h; rfl
      | false => cases h; exact admission_grants user shape _ _
    | _ => cases h
  | lock ad =>
    cases a with
    | done =>
      unfold resume at h
      dsimp only at h
      split_ifs at h
      cases h
      rfl
    | _ => cases h
  | list ad => cases a <;> cases h <;> rfl
  | free ad now granted others =>
    cases a with
    | free f => cases h; exact decided_grants ad now granted others f
    | _ => cases h
  | delete name why after =>
    cases a with
    | done => cases h; rfl
    | _ => cases h; exact deleteFailed_grants (g := g) (by rfl) after
  | close name after =>
    cases a with
    | done => cases h; exact resumeClose_grants name after
    | _ => cases h
  | headOpen user shape goal =>
    cases a with
    | bool isOpen =>
      cases isOpen with
      | true => cases h; rfl
      | false => cases h; exact found_grants user shape goal
    | _ => cases h
  | running user =>
    cases a with
    | cluster c => cases h; exact resumeRunning_grants user c
    | _ => cases h; rfl
  | conflict user shape goal =>
    cases a with
    | cluster c =>
      cases h
      cases c with
      | none => rfl
      | some c =>
        simp only [resumeConflict]
        split
        · rfl
        · split <;> rfl
    | _ => cases h; rfl
  | ownRead user method =>
    cases a with
    | cluster c => cases h; exact resumeOwn_grants user method c
    | _ => cases h; rfl
  | ownBusy user =>
    cases a with
    | bool busy => cases busy <;> cases h <;> rfl
    | _ => cases h
  | relaying cluster =>
    cases a with
    | request => cases h; rfl
    | ended unavailable => cases unavailable <;> cases h <;> rfl
    | _ => cases h
  | reapList =>
    cases a with
    | clusters cs => cases h; exact nextReap_grants _ cs
    | _ => cases h; rfl
  | reapBusy c p =>
    cases a with
    | bool busy => cases h; exact resumeReap_grants c p busy
    | _ => cases h
  | gone user shape goal mix | post user shape goal mix | headUp user shape goal
    | postJob user shape key mix => cases a <;> cases h <;> rfl

/-- A call comes in: it carries at most the name it draws, and may start a pass. -/
theorem start_cases {call : Call} {r : Step} (h : start w g call = some r) :
    (g.reaping = false ∧ r = awaiting { g with reaping := true } .reapList) ∨
    (∃ e, r = ⟨g, none, [.refused e]⟩) ∨
    (call.job? = none ∧ r = awaiting g (.caller call)) ∨
    ∃ n, call.job? = some n ∧ n ∉ g.drawn ∧
      r = awaiting { g with drawn := n :: g.drawn } (.caller call) := by
  unfold start at h
  split at h
  · split_ifs at h with hr
    cases h
    exact .inl ⟨by simpa using hr, rfl⟩
  · split at h
    · cases h
    · cases h
      exact .inr (.inl ⟨_, rfl⟩)
    · split at h
      · rename_i hj
        cases h
        exact .inr (.inr (.inl ⟨hj, rfl⟩))
      · rename_i n hj
        split_ifs at h with hd
        cases h
        exact .inr (.inr (.inr ⟨n, hj, hd, rfl⟩))

/-- Nothing but a refusal comes of a call before its first await. -/
theorem emits_reason {s : St} {x : Act} {e : Event} (he : e ∈ program.emits s x) :
    (∃ why, e = .refused why) ∨ ∃ t pc a, x = .resume t ∧ s.at t = some ⟨pc, some a⟩ ∧
      Reason s.mem pc a e := by
  rcases Program.mem_emits he with ⟨i, r, _, hr, her⟩ | ⟨t, pc, a, r, rfl, ht, hr, her⟩
  · left
    rcases start_cases hr with ⟨_, rfl⟩ | ⟨why, rfl⟩ | ⟨_, rfl⟩ | ⟨n, _, _, rfl⟩
    · simp [awaiting] at her
    · exact ⟨why, by simpa using her⟩
    · simp [awaiting] at her
    · simp [awaiting] at her
  · exact .inr ⟨t, pc, a, rfl, ht, (resume_effect hr).events e her⟩

variable {w' : World} {c : Choice}

theorem reading_world {a' : Answer} (h : (reading a c).map (w, ·) = some (w', a')) :
    w' = w ∧ reading a c = some a' := by
  obtain ⟨x, hx, he⟩ := Option.map_eq_some_iff.mp h
  obtain ⟨rfl, rfl⟩ := Prod.mk.inj he
  exact ⟨rfl, hx⟩

theorem serve_post {user : User} {shape : Shape} {goal : Goal} {mix : Gpus}
    (h : serve w (.post user shape goal mix) c = some (w', a)) :
    w' = w ∨ (c = .ok ∨ c = .lost) ∧ w.find user.cluster = none ∧
      w' = w.add (buildCluster w user shape mix) := by
  simp only [serve] at h
  split at h
  · split_ifs at h with hf <;> cases h
    · exact .inl rfl
    · exact .inr ⟨.inl rfl, by simpa using hf, rfl⟩
  · split_ifs at h with hf <;> cases h
    · exact .inl rfl
    · exact .inr ⟨.inr rfl, by simpa using hf, rfl⟩
  all_goals cases h
  all_goals exact .inl rfl

theorem serve_created {user : User} {shape : Shape} {goal : Goal} {mix : Gpus} {d : RayCluster}
    (h : serve w (.post user shape goal mix) c = some (w', .created d)) :
    w.find user.cluster = none ∧ w' = w.add (buildCluster w user shape mix) := by
  simp only [serve] at h
  split at h
  · split_ifs at h with hf <;> cases h
    exact ⟨by simpa using hf, rfl⟩
  · split_ifs at h <;> cases h
  all_goals cases h

theorem serve_postJob {user : User} {shape : Shape} {key : String} {mix : Gpus}
    (h : serve w (.postJob user shape key mix) c = some (w', a)) :
    w' = w ∨ (∀ j ∈ w.rayJobs, j.name ≠ jobName user.owner user.cluster key) ∧
      w' = { w with rayJobs := w.rayJobs ++ [buildJob user shape key mix] } := by
  have hnew (hk : ¬(w.rayJobs.any fun j => j.name = (buildJob user shape key mix).name) = true) :
      ∀ j ∈ w.rayJobs, j.name ≠ jobName user.owner user.cluster key := by
    intro j hj hn
    exact hk (List.any_eq_true.mpr ⟨j, hj, decide_eq_true hn⟩)
  simp only [serve] at h
  split at h
  · split_ifs at h with hf <;> cases h
    · exact .inl rfl
    · exact .inr ⟨hnew hf, rfl⟩
  · split_ifs at h with hf <;> cases h
    · exact .inl rfl
    · exact .inr ⟨hnew hf, rfl⟩
  all_goals cases h
  all_goals exact .inl rfl

/-- Only a deletion and the two `POST`s change the world. -/
theorem serve_cases (h : serve w pc c = some (w', a)) :
    w' = w ∨
    (∃ name why after, pc = .delete name why after ∧ w' = w.delete name) ∨
    (∃ user shape goal mix, pc = .post user shape goal mix ∧ (c = .ok ∨ c = .lost) ∧
      w.find user.cluster = none ∧ w' = w.add (buildCluster w user shape mix)) ∨
    ∃ user shape key mix, pc = .postJob user shape key mix ∧
      (∀ j ∈ w.rayJobs, j.name ≠ jobName user.owner user.cluster key) ∧
      w' = { w with rayJobs := w.rayJobs ++ [buildJob user shape key mix] } := by
  cases pc with
  | post user shape goal mix =>
    rcases serve_post h with rfl | hp
    · exact .inl rfl
    · exact .inr (.inr (.inl ⟨user, shape, goal, mix, rfl, hp⟩))
  | postJob user shape key mix =>
    rcases serve_postJob h with rfl | hp
    · exact .inl rfl
    · exact .inr (.inr (.inr ⟨user, shape, key, mix, rfl, hp⟩))
  | delete name why after =>
    simp only [serve] at h
    split at h <;> cases h
    · exact .inr (.inl ⟨name, why, after, rfl, rfl⟩)
    · exact .inr (.inl ⟨name, why, after, rfl, rfl⟩)
    · exact .inl rfl
    · exact .inl rfl
  | gone | headUp =>
    left
    simp only [serve] at h
    split at h
    · split_ifs at h
      cases h
      rfl
    all_goals cases h
    all_goals rfl
  | caller | read | conflict | running | ownRead | list | reapList =>
    exact .inl (reading_world h).1
  | lock | close =>
    cases h
    exact .inl rfl
  | _ =>
    left
    simp only [serve] at h
    split at h <;> cases h <;> rfl

theorem serve_now (h : serve w pc c = some (w', a)) : w'.now = w.now := by
  rcases serve_cases h with rfl | ⟨_, _, _, _, rfl⟩ | ⟨_, _, _, _, _, _, _, rfl⟩ |
    ⟨_, _, _, _, _, _, rfl⟩
  all_goals rfl

/-- By itself the world leaves the gateway's clocks, grants, locks and drawn names alone. -/
theorem env_keeps {e : Move} (h : env w g e = some (w', g')) :
    w.now ≤ w'.now ∧ g'.lastUsed = g.lastUsed ∧ g'.grants = g.grants ∧
      g'.admitting = g.admitting ∧ g'.reaping = g.reaping ∧ g'.drawn = g.drawn := by
  cases e with
  | tick d =>
    cases h
    exact ⟨by simp, rfl, rfl, rfl, rfl, rfl⟩
  | makeCluster key ending =>
    simp only [env] at h
    split at h
    · split_ifs at h
      cases h
      exact ⟨le_refl _, rfl, rfl, rfl, rfl, rfl⟩
    · cases h
  | _ =>
    cases h
    exact ⟨le_refl _, rfl, rfl, rfl, rfl, rfl⟩

end PurdueAF.RayClusters
