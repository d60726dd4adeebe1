import PurdueAF.RaySubmissions

/-!
# What a step of a submission or of the reaper can do

Said once, for every invariant below: which await a coroutine goes on to from which and on
what grounds, what it then leaves in the gateway's memory, and what serving an await or a
move of the environment does to the RayJobs.
-/
namespace PurdueAF.RaySubmissions
open Ray RayNaming Coroutine

/-- The user's lock that a coroutine holds. -/
def Pc.holds : Pc → Option String
  | .package c | .nrpRest c | .undo c _ _ => some c
  | .nrpBody r _ _ | .before r _ _ | .nrpBefore r _ _ | .patch r _ _ | .gpus r _ _
  | .nrpPost r _ _ => some r.cluster
  | .admission j | .post j | .secret j _ | .findHead j _ | .headStatus j _ _ | .sleep j _
  | .openHead j _ => some j.request.cluster
  | _ => none

/-- `start_job` once its RayJob is created. -/
def Pc.posted : Pc → Option Start
  | .secret j _ | .findHead j _ | .headStatus j _ _ | .sleep j _ | .openHead j _ => some j
  | _ => none

/-- `start_job` with the name it has drawn. -/
def Pc.started : Pc → Option Start
  | .admission j | .post j => some j
  | pc => pc.posted

def Pc.pass : Pc → Option Pass
  | .cluster _ _ _ _ p | .headJob _ _ _ _ p | .free _ _ _ p | .watch _ p | .delete _ p => some p
  | _ => none

/-- The call on a RayJob that a coroutine awaits. -/
def Pc.write : Pc → Option Write
  | .post j => some (.create (.purdue, j.name) (buildJob j.request.user))
  | .patch _ asked x => some (.give x.name asked)
  | .undo _ name _ | .deleteRecord name | .delete name _ => some (.delete name)
  | .nrpPost r asked name => some (.create (.nrp, name) (nrpJob r.user asked))
  | _ => none

theorem Pc.started_posted {pc : Pc} {j : Start} (h : pc.posted = some j) : pc.started = some j := by
  cases pc <;> first | exact h | cases h

theorem Pc.holds_started {pc : Pc} {j : Start} (h : pc.started = some j) :
    pc.holds = some j.request.cluster := by
  cases pc <;> cases h <;> rfl

/-- What a call does with the RayJob it holds. -/
inductive Uses (g : Gateway) (r : Request) (x : Waiting) : Option String → Gateway → Pc → Prop
  | upload : Uses g r x none
      (release { g with waiting := g.waiting.set r.cluster x } r.cluster) (.relay x.head x.name none)
  | submit (id : String) : Uses g r x (some id)
      { g with given := x.name :: g.given, serving := x.name :: g.serving } (.patch r id x)

/-- A call takes the RayJob that waits for it, or draws the name of a new one. -/
inductive Takes (w : World) (g : Gateway) (r : Request) (asked : Option String) :
    Gateway → Pc → Prop
  | waits (x : Waiting) (hx : fitting w g r = some x) (g' : Gateway) (pc' : Pc)
      (hu : Uses { g with waiting := g.waiting.pop r.cluster } r x asked g' pc') :
      Takes w g r asked g' pc'
  | draws (hd : g.drawn.get? r.name = none) :
      Takes w g r asked
        { g with waiting := g.waiting.pop r.cluster, drawn := g.drawn.set r.name (owned r.user) }
        (.admission ⟨r, asked, r.name⟩)

/-- Code for NRP waits under its name, or a new one is drawn. -/
inductive Draws (g : Gateway) (r : Request) : Gateway → Prop
  | waits : Draws g r g
  | draws (hd : g.drawn.get? r.name = none) :
      Draws g r { g with drawn := g.drawn.set r.name (owned r.user) }

/-- A submission whose ID `submitted_before` does not find. -/
inductive Passed (g : Gateway) (r : Request) (asked : String) (goal : Goal) : Pc → Answer → Prop
  | purdue (listed : List (String × RayJob)) (hn : g.nrp = false)
      (hno : ∀ e ∈ listed, e.2.owner = owned r.user → e.2.jobId ≠ some asked) :
      Passed g r asked goal (.before r asked goal) (.jobs listed)
  | nrp (a : Answer) (hno : ∀ listed, a = .jobs listed → ∀ e ∈ listed, e.2.jobId ≠ some asked) :
      Passed g r asked goal (.nrpBefore r asked goal) a

/-- What a pass first does about a RayJob of its listing. -/
inductive Checks (name : String) (job : RayJob) (p : Pass) : Pc → Prop
  | unsubmitted (hd : job.deleting = false) (hi : job.jobId = none) (hw : name ∉ p.waited)
      (ha : 2 * startTimeoutS ≤ p.now - job.created) : Checks name job p (.delete name p)
  | unfollowed (hd : job.deleting = false) (hi : job.jobId ≠ none) (hs : job.status = .new)
      (hh : job.head = none) (ha : jobRecordS ≤ p.now - job.created) :
      Checks name job p (.delete name p)
  | cluster (head id : String) (hi : job.jobId = some id) :
      Checks name job p (.cluster name job head id p)
  | free (hi : job.jobId ≠ none) (he : ended job.status = true) :
      Checks name job p (.free name job true p)
  | watch (head : String) : Checks name job p (.watch head p)

/-- The pass goes on to the next RayJob that asks for something. -/
inductive Nexts (p : Pass) : Pc → Prop
  | next (name : String) (job : RayJob) (rest : List (String × RayJob))
      (hs : (name, job) :: rest <:+ p.rest) (pc : Pc)
      (hc : Checks name job ⟨p.now, p.waited, rest⟩ pc) : Nexts p pc

/-- Every way from an await to the next one, with the memory it leaves. -/
inductive Leads (w : World) (g : Gateway) : Pc → Answer → Gateway → Pc → Prop
  | lock (r : Request) : Leads w g (.body r) .done g (.lock r)
  | before (r : Request) (asked : String) (hfree : r.cluster ∉ g.submitting) :
      Leads w g (.lock r) .done (hold g r.cluster) (.before r asked .purdue)
  | upload (r : Request) (hfree : r.cluster ∉ g.submitting) (g' : Gateway) (pc' : Pc)
      (ht : Takes w (hold g r.cluster) r none g' pc') : Leads w g (.lock r) .done g' pc'
  | package (r : Request) (hfree : r.cluster ∉ g.submitting) (g' : Gateway)
      (hn : Draws (hold g r.cluster) r g') (waits : Dict String (String × ℤ)) :
      Leads w g (.lock r) .done { g' with nrpWaiting := waits } (.package r.cluster)
  | nrpBody (r : Request) (sub : Submission) (name : String) (hfree : r.cluster ∉ g.submitting)
      (g' : Gateway) (hn : Draws (hold g r.cluster) r g') :
      Leads w g (.lock r) .done g' (.nrpBody r sub name)
  | nrpAsks (r : Request) (sub : Submission) (name : String) :
      Leads w g (.nrpBody r sub name) .done { g with nrpWaiting := g.nrpWaiting.pop r.cluster }
        (.before r sub.asked (.nrp name))
  | nrpBefore (r : Request) (asked : String) (goal : Goal) (listed : List (String × RayJob))
      (hno : ∀ e ∈ listed, e.2.owner = owned r.user → e.2.jobId ≠ some asked) :
      Leads w g (.before r asked goal) (.jobs listed) g (.nrpBefore r asked goal)
  | gpus (r : Request) (asked name : String) (pc : Pc) (a : Answer)
      (hp : Passed g r asked (.nrp name) pc a) : Leads w g pc a g (.gpus r asked name)
  | takes (r : Request) (asked : String) (pc : Pc) (a : Answer)
      (hp : Passed g r asked .purdue pc a) (g' : Gateway) (pc' : Pc)
      (ht : Takes w g r (some asked) g' pc') : Leads w g pc a g' pc'
  | posts (j : Start) : Leads w g (.admission j) .done g (.post j)
  | polls (j : Start) (pc : Pc) (a : Answer) (pc' : Pc)
      (h : pc = .post j ∧ a = .done ∨ pc.posted = some j) (h' : pc'.posted = some j) :
      Leads w g pc a g pc'
  | uses (j : Start) (head : String) (g' : Gateway) (pc' : Pc)
      (hu : Uses g j.request ⟨j.name, head, j.request.shape, w.now⟩ j.asked g' pc') :
      Leads w g (.openHead j head) (.bool false) g' pc'
  | undoes (j : Start) (pc : Pc) (a : Answer) (h : pc.posted = some j) (why : Refused) :
      Leads w g pc a g (.undo j.request.cluster j.name why)
  | relays (r : Request) (asked : String) (x : Waiting) :
      Leads w g (.patch r asked x) .done (release g r.cluster) (.relay x.head x.name (some asked))
  | unpatched (r : Request) (asked : String) (x : Waiting) (said : String) (why : Refused) :
      Leads w g (.patch r asked x) (.failed said) (drop g x.name) (.undo r.cluster x.name why)
  | nrpPost (r : Request) (asked name : String) :
      Leads w g (.gpus r asked name) .done g (.nrpPost r asked name)
  | nrpRest (r : Request) (asked name : String) :
      Leads w g (.nrpPost r asked name) .done g (.nrpRest r.cluster)
  | findCluster (user : User) (jobId : String) (about : About) (a : Answer) (name : String)
      (job : RayJob) (head : String) :
      Leads w g (.find user jobId about) a g (.findCluster name job head about)
  | deleteRecord (pc : Pc) (a : Answer) (hh : pc.holds = none) (hs : pc.started = none)
      (name : String) : Leads w g pc a (drop g name) (.deleteRecord name)
  | pass (listed : List (String × RayJob)) (pc' : Pc)
      (hn : Nexts ⟨w.now, waitedFor w g, listed⟩ pc') : Leads w g .list (.jobs listed) g pc'
  | headJob (name : String) (job : RayJob) (head id : String) (p : Pass) :
      Leads w g (.cluster name job head id p) (.bool true) g (.headJob name job head id p)
  | unfollowed (name : String) (job : RayJob) (head id : String) (p : Pass)
      (ha : jobRecordS ≤ p.now - job.created) :
      Leads w g (.cluster name job head id p) (.bool false) g (.delete name p)
  | unknown (name : String) (job : RayJob) (head id : String) (p : Pass)
      (ha : 2 * startTimeoutS ≤ p.now - job.created) :
      Leads w g (.headJob name job head id p) (.headJob none) g (.delete name p)
  | frees (name : String) (job : RayJob) (head id : String) (p : Pass) (a : Answer) :
      Leads w g (.headJob name job head id p) a g (.free name job false p)
  | record (name : String) (job : RayJob) (p : Pass) (e : ℤ) (he : job.endTime = some e)
      (ha : jobRecordS ≤ p.now - e) :
      Leads w g (.free name job true p) .done g (.delete name p)
  | passes (pc : Pc) (a : Answer) (p : Pass) (hp : pc.pass = some p) (pc' : Pc)
      (hn : Nexts p pc') : Leads w g pc a g pc'

variable {w : World} {g g' : Gateway} {pc pc' : Pc} {a : Answer} {r : Step}

theorem checking_checks {name : String} {job : RayJob} {p : Pass} {events : List Event}
    (h : checking name job p = some (pc', events)) :
    Checks name job p pc' ∧ ∀ n, .reaps n ∈ events → pc' = .delete n p := by
  have hreap (hc : Checks name job p (.delete name p)) :
      Checks name job p (.delete name p) ∧
        ∀ n, Event.reaps n ∈ [Event.reaps name] → Pc.delete name p = .delete n p := by
    refine ⟨hc, fun n hn => ?_⟩
    obtain rfl : n = name := by simpa using hn
    rfl
  unfold checking at h
  split at h
  · cases h
  · rename_i hdel
    have hdel : job.deleting = false := by simpa using hdel
    split at h
    · rename_i hi
      split at h
      · rename_i hold
        cases h
        exact hreap (.unsubmitted hdel hi hold.1 hold.2)
      · cases h
    · rename_i id hi
      have hne : job.jobId ≠ none := by simp [hi]
      split at h
      · rename_i hs
        split at h
        · rename_i head _
          cases h
          exact ⟨.cluster head id hi, by simp⟩
        · rename_i hh
          unfold RaySubmissions.unfollowed at h
          split at h
          · rename_i ha
            cases h
            exact hreap (.unfollowed hdel hne hs hh ha)
          · cases h
      · split at h
        · rename_i he
          cases h
          exact ⟨.free hne he, by simp⟩
        · obtain ⟨head, -, heq⟩ := Option.map_eq_some_iff.mp h
          cases heq
          exact ⟨.watch head, by simp⟩

/-- A coroutine that is over gave up its lock. -/
structure Quits (g : Gateway) (pc : Pc) (g' : Gateway) : Prop where
  submitting : g'.submitting = g.submitting ∨
    ∃ cluster, pc.holds = some cluster ∧ g'.submitting = g.submitting.filter (· ≠ cluster)
  waiting : ∀ c x, g'.waiting.get? c = some x → g.waiting.get? c = some x
  drawn : g'.drawn = g.drawn
  given : g'.given = g.given
  serving : ∀ n ∈ g'.serving, n ∈ g.serving

/-- What resuming a coroutine comes to. -/
structure Resumes (w : World) (g : Gateway) (pc : Pc) (a : Answer) (r : Step) : Prop where
  next : ∀ pc', r.next = some pc' → Leads w g pc a r.mem pc'
  quits : r.next = none → Quits g pc r.mem
  reaps : ∀ n, .reaps n ∈ r.events → ∃ p, r.next = some (.delete n p)

theorem Resumes.awaiting (h : Leads w g pc a g' pc') : Resumes w g pc a (awaiting g' pc') where
  next _ hn := by
    cases hn
    exact h
  quits hn := by cases hn
  reaps _ hn := absurd hn (by simp [RaySubmissions.awaiting])

theorem Resumes.over {events : List Event} (h : Quits g pc g')
    (he : ∀ n, Event.reaps n ∉ events) : Resumes w g pc a ⟨g', none, events⟩ where
  next _ hn := absurd hn (by simp)
  quits _ := h
  reaps n hn := absurd hn (he n)

theorem Quits.same : Quits g pc g := ⟨.inl rfl, fun _ _ h => h, rfl, rfl, fun _ h => h⟩

theorem Quits.endPass : Quits g pc (endPass g).mem :=
  ⟨.inl rfl, fun _ _ h => h, rfl, rfl, fun _ h => h⟩

theorem Quits.release {cluster : String} (h : pc.holds = some cluster) : Quits g pc (release g cluster) :=
  ⟨.inr ⟨cluster, h, rfl⟩, fun _ _ h => h, rfl, rfl, fun _ h => h⟩

theorem Quits.drop {name : String} : Quits g pc (drop g name) :=
  ⟨.inl rfl, fun _ _ h => h, rfl, rfl, fun _ h => (List.mem_filter.mp h).1⟩

theorem Resumes.ends {cluster : String} (h : pc.holds = some cluster) {event : Event}
    (he : ∀ n, .reaps n ≠ event) : Resumes w g pc a (ends g cluster event) :=
  .over (.release h) fun n => by simpa using he n

theorem nextJob_resumes {now : ℤ} {waited : List String} {listed : List (String × RayJob)}
    (hl : ∀ pc', Nexts ⟨now, waited, listed⟩ pc' → Leads w g pc a g pc') :
    Resumes w g pc a (nextJob g now waited listed) := by
  induction listed with
  | nil => exact .over .endPass (by simp)
  | cons e rest ih =>
    unfold nextJob
    split
    · rename_i pc' events hc
      obtain ⟨hch, hev⟩ := checking_checks hc
      refine ⟨fun x hx => ?_, fun hx => absurd hx (by simp), fun n hn => ⟨_, congrArg some (hev n hn)⟩⟩
      cases hx
      exact hl _ (.next e.1 e.2 rest (List.suffix_refl _) _ hch)
    · refine ih fun pc' hn => hl pc' ?_
      obtain ⟨name, job, rest', hs, _, hc⟩ := hn
      exact .next name job rest' (hs.trans (List.suffix_cons e rest)) _ hc

theorem Resumes.passes {p : Pass} (h : pc.pass = some p) : Resumes w g pc a (passes g p) :=
  nextJob_resumes fun pc' hn => .passes pc a p h pc' hn

/-- A pass that deletes the RayJob, if `q` says so, or goes on. -/
theorem Resumes.follows {p : Pass} {name : String} {q : Prop} [Decidable q]
    (h : pc.pass = some p) (hl : q → Leads w g pc a g (.delete name p)) :
    Resumes w g pc a (follows g p (if q then some (reaping name p) else none)) := by
  split_ifs with hq
  · refine ⟨fun x hx => ?_, fun hx => absurd hx (by simp [RaySubmissions.follows, reaping]),
      fun n hn => ⟨p, ?_⟩⟩
    · cases hx
      exact hl hq
    · obtain rfl : n = name := by simpa [RaySubmissions.follows, reaping] using hn
      rfl
  · exact .passes h

theorem Resumes.holding {r : Request} {asked : Option String} {x : Waiting}
    (hq : Quits g pc (release g' r.cluster))
    (hl : ∀ g'' pc', Uses g' r x asked g'' pc' → Leads w g pc a g'' pc') :
    Resumes w g pc a (holding g' r asked x) := by
  cases asked with
  | none => exact .awaiting (hl _ _ .upload)
  | some id =>
    simp only [RaySubmissions.holding]
    split
    · exact .over hq (by simp)
    · exact .awaiting (hl _ _ (.submit id))

theorem drawing_eq {r : Request} (h : drawing g r = some g') :
    g.drawn.get? r.name = none ∧ g' = { g with drawn := g.drawn.set r.name (owned r.user) } := by
  unfold drawing at h
  split_ifs at h with hd
  cases h
  exact ⟨by simpa using hd, rfl⟩

theorem Quits.popped {c c' : String} (h : Quits g pc (RaySubmissions.release g' c)) :
    Quits g pc (RaySubmissions.release { g' with waiting := g'.waiting.pop c' } c) := by
  refine ⟨h.submitting, fun k x hx => h.waiting k x ?_, h.drawn, h.given, h.serving⟩
  have hx : (g'.waiting.pop c').get? k = some x := hx
  rw [Dict.get?_pop] at hx
  split_ifs at hx
  exact hx

theorem Resumes.taking {r : Request} {asked : Option String} {step : Step}
    (h : taking w g' r asked = some step) (hq : Quits g pc (release g' r.cluster))
    (hl : ∀ g'' pc', Takes w g' r asked g'' pc' → Leads w g pc a g'' pc') :
    Resumes w g pc a step := by
  unfold RaySubmissions.taking at h
  split at h
  · cases h
    exact .over hq (by simp)
  · dsimp only at h
    split at h
    · rename_i x hx
      cases h
      exact .holding hq.popped fun g'' pc' hu => hl g'' pc' (.waits x hx g'' pc' hu)
    · obtain ⟨g'', hd, rfl⟩ := Option.map_eq_some_iff.mp h
      obtain ⟨hnone, rfl⟩ := drawing_eq hd
      exact .awaiting (hl _ _ (.draws hnone))

theorem Resumes.checked {r : Request} {asked : String} {goal : Goal} {step : Step}
    (h : checked w g r asked goal = some step) (hh : pc.holds = some r.cluster)
    (hp : Passed g r asked goal pc a) : Resumes w g pc a step := by
  cases goal with
  | purdue => exact .taking h (.release hh) fun g' pc' ht => .takes r asked pc a hp g' pc' ht
  | nrp name =>
    cases h
    exact .awaiting (.gpus r asked name pc a hp)

theorem Quits.held {c : String} (hfree : c ∉ g.submitting) :
    Quits g pc (RaySubmissions.release (hold g c) c) := by
  refine ⟨.inl ?_, fun _ _ h => h, rfl, rfl, fun _ h => h⟩
  have hne : ∀ x ∈ g.submitting, (decide (x ≠ c)) = true := fun x hx => by
    simpa using fun heq : x = c => hfree (heq ▸ hx)
  simp only [RaySubmissions.release, hold, List.filter_cons, ne_eq, not_true_eq_false, decide_false,
    Bool.false_eq_true, if_false]
  exact List.filter_eq_self.mpr hne

theorem Resumes.nrpNamed {r : Request} {name : String} (hfree : r.cluster ∉ g.submitting)
    (hn : Draws (hold g r.cluster) r g') :
    Resumes w g (.lock r) .done (nrpNamed w g' r name) := by
  unfold RaySubmissions.nrpNamed
  split
  · exact .awaiting (.package r hfree g' hn _)
  · rename_i sub _
    exact .awaiting (.nrpBody r sub name hfree g' hn)

theorem Resumes.entered {r : Request} {step : Step} (hfree : r.cluster ∉ g.submitting)
    (h : entered w (hold g r.cluster) r = some step) : Resumes w g (.lock r) .done step := by
  unfold RaySubmissions.entered at h
  split at h
  · split at h
    · cases h
      exact .nrpNamed hfree .waits
    · obtain ⟨g', hd, rfl⟩ := Option.map_eq_some_iff.mp h
      obtain ⟨hnone, rfl⟩ := drawing_eq hd
      exact .nrpNamed hfree (.draws hnone)
  · split at h
    · cases h
      exact .awaiting (.before r _ hfree)
    · exact .taking h (.held hfree) fun g' pc' ht => .upload r hfree g' pc' ht

theorem Resumes.polled {j : Start} {deadline : ℤ} (h : pc.posted = some j) :
    Resumes w g pc a (polled w g j deadline) := by
  unfold RaySubmissions.polled
  split
  · exact .awaiting (.undoes j pc a h _)
  · exact .awaiting (.polls j pc a _ (.inr h) rfl)

theorem Resumes.recorded {name : String} {job : RayJob} {about : About} (hh : pc.holds = none)
    (hs : pc.started = none) : Resumes w g pc a (recorded g name job about) := by
  cases about with
  | delete =>
    simp only [RaySubmissions.recorded]
    split
    · exact .awaiting (.deleteRecord pc a hh hs name)
    · exact .over .same (by simp)
  | stop =>
    simp only [RaySubmissions.recorded]
    split
    · exact .over .same (by simp)
    · exact .awaiting (.deleteRecord pc a hh hs name)

/-- What a step leaves when the coroutine does not go on and its lock, if any, is given up. -/
theorem Resumes.refused {cluster : String} (h : pc.holds = some cluster) {event : Event} (he : ∀ n, .reaps n ≠ event)
    (hr : some (RaySubmissions.ends g cluster event) = some r) : Resumes w g pc a r := by
  obtain rfl := Option.some.inj hr
  exact .ends h he

theorem Resumes.next_eq (h : Leads w g pc a g' pc')
    (hr : some (RaySubmissions.awaiting g' pc') = some r) : Resumes w g pc a r := by
  obtain rfl := Option.some.inj hr
  exact .awaiting h

theorem Resumes.over_eq {events : List Event} (h : Quits g pc g') (he : ∀ n, Event.reaps n ∉ events)
    (hr : some (⟨g', none, events⟩ : Step) = some r) : Resumes w g pc a r := by
  obtain rfl := Option.some.inj hr
  exact .over h he

theorem Resumes.passes_eq {p : Pass} (h : pc.pass = some p)
    (hr : some (RaySubmissions.passes g p) = some r) : Resumes w g pc a r := by
  obtain rfl := Option.some.inj hr
  exact .passes h

theorem resume_before {r' : Request} {asked : String} {goal : Goal}
    (h : resume w g (.before r' asked goal) a = some r) :
    Resumes w g (.before r' asked goal) a r := by
  cases a with
  | jobs listed =>
    unfold resume at h
    dsimp only at h
    split at h
    · exact .refused rfl (by simp) h
    · rename_i hno
      have hno : ∀ e ∈ listed, e.2.owner = owned r'.user → e.2.jobId ≠ some asked := by
        intro e he ho hj
        exact hno (List.any_eq_true.mpr ⟨e, he, by simp [ho, hj]⟩)
      split at h
      · exact .next_eq (.nrpBefore r' asked goal listed hno) h
      · rename_i hn
        exact .checked h rfl (.purdue listed (by simpa using hn) hno)
  | failed said => exact .refused rfl (by simp [unavailable]) h
  | done | refused | error | bool | head | headJob => exact .refused rfl (by simp) h

theorem resume_nrpBefore {r' : Request} {asked : String} {goal : Goal}
    (h : resume w g (.nrpBefore r' asked goal) a = some r) :
    Resumes w g (.nrpBefore r' asked goal) a r := by
  cases a with
  | jobs listed =>
    unfold resume at h
    dsimp only at h
    split at h
    · exact .refused rfl (by simp) h
    · rename_i hno
      refine .checked h rfl (.nrp _ ?_)
      rintro _ ⟨⟩ e he hj
      exact hno (List.any_eq_true.mpr ⟨e, he, by simp [hj]⟩)
  | done | failed | refused | error | bool | head | headJob =>
    exact .checked h rfl (.nrp _ (by simp))

theorem resume_findHead {j : Start} {deadline : ℤ} (h : resume w g (.findHead j deadline) a = some r) :
    Resumes w g (.findHead j deadline) a r := by
  cases a with
  | head found =>
    cases found with
    | some head => exact .next_eq (.polls j _ _ _ (.inr rfl) rfl) h
    | none =>
      obtain rfl := Option.some.inj h
      exact .polled rfl
  | failed said => exact .next_eq (.undoes j _ _ rfl _) h
  | done | refused | error | bool | jobs | headJob => exact .refused rfl (by simp) h

theorem resume_openHead {j : Start} {head : String} (h : resume w g (.openHead j head) a = some r) :
    Resumes w g (.openHead j head) a r := by
  cases a with
  | bool isOpen =>
    cases isOpen with
    | true => exact .next_eq (.undoes j _ _ rfl _) h
    | false =>
      obtain rfl := Option.some.inj h
      exact .holding (.release rfl) fun g' pc' hu => .uses j head g' pc' hu
  | done | failed | refused | error | jobs | head | headJob => cases h

theorem resume_find {user : User} {jobId : String} {about : About}
    (h : resume w g (.find user jobId about) a = some r) :
    Resumes w g (.find user jobId about) a r := by
  cases a with
  | jobs listed =>
    unfold resume at h
    dsimp only at h
    split at h
    · rename_i name job _
      split at h
      · rename_i head _
        exact .next_eq (.findCluster user jobId about _ name job head) h
      · obtain rfl := Option.some.inj h
        exact .recorded rfl rfl
    · exact .over_eq .same (by simp) h
  | done | failed | refused | error | bool | head | headJob => exact .over_eq .same (by simp) h

theorem resume_findCluster {name : String} {job : RayJob} {head : String} {about : About}
    (h : resume w g (.findCluster name job head about) a = some r) :
    Resumes w g (.findCluster name job head about) a r := by
  cases a with
  | bool up =>
    unfold resume at h
    dsimp only at h
    split at h
    · exact .over_eq .same (by simp) h
    · obtain rfl := Option.some.inj h
      exact .recorded rfl rfl
  | done | failed | refused | error | jobs | head | headJob => exact .over_eq .same (by simp) h

theorem resume_deleteRecord {name : String} (h : resume w g (.deleteRecord name) a = some r) :
    Resumes w g (.deleteRecord name) a r := by
  cases a with
  | failed said =>
    unfold resume at h
    dsimp only at h
    split at h
    · exact .over_eq .same (by simp) h
    · exact .over_eq .same (by simp) h
  | done | refused | error | bool | jobs | head | headJob => exact .over_eq .same (by simp) h

theorem resume_cluster {name : String} {job : RayJob} {head id : String} {p : Pass}
    (h : resume w g (.cluster name job head id p) a = some r) :
    Resumes w g (.cluster name job head id p) a r := by
  cases a with
  | bool up =>
    cases up with
    | true => exact .next_eq (.headJob name job head id p) h
    | false =>
      obtain rfl := Option.some.inj h
      exact .follows rfl fun ha => .unfollowed name job head id p ha
  | done | failed | refused | error | jobs | head | headJob => exact .passes_eq rfl h

theorem resume_headJob {name : String} {job : RayJob} {head id : String} {p : Pass}
    (h : resume w g (.headJob name job head id p) a = some r) :
    Resumes w g (.headJob name job head id p) a r := by
  cases a with
  | headJob st =>
    obtain rfl := Option.some.inj h
    cases st with
    | some st =>
      simp only [followed]
      split
      · exact .awaiting (.frees name job head id p _)
      · exact .passes rfl
    | none => exact .follows rfl fun ha => .unknown name job head id p ha
  | done | failed | refused | error | bool | jobs | head => exact .passes_eq rfl h

theorem resume_free {name : String} {job : RayJob} {record : Bool} {p : Pass}
    (h : resume w g (.free name job record p) a = some r) :
    Resumes w g (.free name job record p) a r := by
  cases a with
  | done =>
    cases record with
    | true =>
      obtain rfl := Option.some.inj h
      refine .follows rfl fun ha => ?_
      obtain ⟨e, he, ha⟩ := (Option.any_eq_true _ _).mp ha
      exact .record name job p e he (by simpa using ha)
    | false => exact .passes_eq rfl h
  | failed | refused | error | bool | jobs | head | headJob => exact .passes_eq rfl h

theorem resume_resumes (h : resume w g pc a = some r) : Resumes w g pc a r := by
  cases pc with
  | body r' =>
    cases a with
    | done => exact .next_eq (.lock r') h
    | _ => exact .over_eq .same (by simp) h
  | lock r' =>
    cases a with
    | done =>
      unfold resume at h
      dsimp only at h
      split at h
      · cases h
      · rename_i hfree
        exact .entered hfree h
    | _ => cases h
  | package c =>
    cases a with
    | done => exact .over_eq (.release rfl) (by simp) h
    | _ => exact .refused rfl (by simp) h
  | nrpBody r' sub name =>
    cases a with
    | done =>
      unfold resume at h
      dsimp only at h
      split at h
      · exact .refused rfl (by simp) h
      · exact .next_eq (.nrpAsks r' sub name) h
    | _ => exact .refused rfl (by simp) h
  | before r' asked goal => exact resume_before h
  | nrpBefore r' asked goal => exact resume_nrpBefore h
  | admission j =>
    cases a with
    | done => exact .next_eq (.posts j) h
    | _ => exact .refused rfl (by simp) h
  | post j =>
    cases a with
    | done => exact .next_eq (.polls j _ _ _ (.inl ⟨rfl, rfl⟩) rfl) h
    | _ => exact .refused rfl (by simp [unavailable]) h
  | secret j deadline =>
    cases a with
    | done => exact .next_eq (.polls j _ _ _ (.inr rfl) rfl) h
    | failed said => exact .next_eq (.undoes j _ _ rfl _) h
    | _ => exact .refused rfl (by simp) h
  | findHead j deadline => exact resume_findHead h
  | headStatus j deadline head =>
    cases a with
    | bool up =>
      obtain rfl := Option.some.inj h
      cases up with
      | true => exact .awaiting (.polls j _ _ _ (.inr rfl) rfl)
      | false => exact .polled rfl
    | _ => cases h
  | sleep j deadline =>
    cases a with
    | done => exact .next_eq (.polls j _ _ _ (.inr rfl) rfl) h
    | _ => cases h
  | openHead j head => exact resume_openHead h
  | patch r' asked x =>
    have hq : Quits g (.patch r' asked x) (release (drop g x.name) r'.cluster) :=
      ⟨.inr ⟨_, rfl, rfl⟩, fun _ _ h => h, rfl, rfl, fun _ hn => (List.mem_filter.mp hn).1⟩
    cases a with
    | done => exact .next_eq (.relays r' asked x) h
    | failed said => exact .next_eq (.unpatched r' asked x said _) h
    | _ => exact .over_eq hq (by simp) h
  | undo c name why =>
    cases a with
    | _ => exact .refused rfl (by simp) h
  | relay head name asked =>
    have hq : Quits g (.relay head name asked) (if asked.isSome then drop g name else g) := by
      split
      · exact .drop
      · exact .same
    cases a with
    | done => exact .over_eq .same (by simp) h
    | _ => exact .over_eq hq (by simp [unavailable]) h
  | gpus r' asked name =>
    cases a with
    | done => exact .next_eq (.nrpPost r' asked name) h
    | _ => exact .refused rfl (by simp) h
  | nrpPost r' asked name =>
    cases a with
    | done => exact .next_eq (.nrpRest r' asked name) h
    | _ => exact .refused rfl (by simp [unavailable]) h
  | nrpRest c =>
    cases a with
    | done => exact .over_eq (.release rfl) (by simp) h
    | _ => exact .refused rfl (by simp [unavailable]) h
  | find user jobId about => exact resume_find h
  | findCluster name job head about => exact resume_findCluster h
  | deleteRecord name => exact resume_deleteRecord h
  | list =>
    cases a with
    | jobs listed =>
      obtain rfl := Option.some.inj h
      exact nextJob_resumes fun pc' hn => .pass listed pc' hn
    | _ => exact .over_eq .endPass (by simp) h
  | cluster name job head id p => exact resume_cluster h
  | headJob name job head id p => exact resume_headJob h
  | free name job record p => exact resume_free h
  | watch head p => exact .passes_eq rfl h
  | delete name p => exact .passes_eq rfl h

/-- The world after an await is served: a call on a RayJob took effect, may take effect yet or
never will, and any other leaves the RayJobs as they are. -/
inductive Serves (w : World) (pc : Pc) (a : Answer) : World → Prop
  | reads (heads : Dict String (Dict String RayNrp.JobStatus)) (hn : pc.write = none) :
      Serves w pc a { w with heads := heads }
  | writes (x : Write) (fate : Fate) (hx : pc.write = some x)
      (hd : a = .done → fate = .done ∧ w.rejects x = none) : Serves w pc a (w.undergo x fate)

/-- What an answer says of the world it was given in. -/
inductive Replies (w : World) : Pc → Answer → Prop
  | silent (pc : Pc) (a : Answer) (hj : ∀ listed, a ≠ .jobs listed) (hh : a ≠ .headJob none)
      (hb : ∀ name job head id p, pc = .cluster name job head id p → a ≠ .bool false) :
      Replies w pc a
  | before (r : Request) (asked : String) (goal : Goal) :
      Replies w (.before r asked goal) (.jobs (w.listing.filter fun e => e.2.owner.1 = r.cluster))
  | nrpBefore (r : Request) (asked : String) (goal : Goal) :
      Replies w (.nrpBefore r asked goal) (.jobs (w.nrpListing (owned r.user)))
  | find (user : User) (jobId : String) (about : About) (listed : List (String × RayJob)) :
      Replies w (.find user jobId about) (.jobs listed)
  | list : Replies w .list (.jobs w.listing)
  | cluster (name : String) (job : RayJob) (head id : String) (p : Pass)
      (hd : w.heads.get? head = none) : Replies w (.cluster name job head id p) (.bool false)
  | headJob (name : String) (job : RayJob) (head id : String) (p : Pass)
      (jobs : Dict String RayNrp.JobStatus) (hd : w.heads.get? head = some jobs)
      (hj : jobs.get? id = none) : Replies w (.headJob name job head id p) (.headJob none)

variable {w' : World} {c : Choice}

theorem reading_eq {answer : Answer} (h : reading w answer c = some (w', a)) :
    w' = w ∧ (a = answer ∧ c = .ok ∨ (∃ said, a = .failed said) ∨ a = .error) := by
  cases c with
  | ok =>
    cases h
    exact ⟨rfl, .inl ⟨rfl, rfl⟩⟩
  | fail said fate =>
    cases h
    exact ⟨rfl, .inr (.inl ⟨said, rfl⟩)⟩
  | error fate =>
    cases h
    exact ⟨rfl, .inr (.inr rfl)⟩
  | refuse | bool => cases h

theorem getting_eq {answer : Answer} (h : getting w answer c = some (w', a)) :
    reading w answer c = some (w', a) := by
  cases c with
  | fail said fate =>
    simp only [getting] at h
    split at h
    · cases h
    · exact h
  | _ => exact h

theorem Replies.done : Replies w pc .done := .silent _ _ (by simp) (by simp) (by simp)

theorem Replies.failed (said : String) : Replies w pc (.failed said) :=
  .silent _ _ (by simp) (by simp) (by simp)

theorem Replies.error : Replies w pc .error := .silent _ _ (by simp) (by simp) (by simp)

theorem Replies.bool (b : Bool) (h : ∀ name job head id p, pc ≠ .cluster name job head id p) :
    Replies w pc (.bool b) :=
  .silent _ _ (by simp) (by simp) fun name job head id p hp => absurd hp (h name job head id p)

theorem reads {answer : Answer} (h : reading w answer c = some (w', a)) (hn : pc.write = none)
    (hr : Replies w pc answer) : Serves w pc a w' ∧ Replies w pc a := by
  obtain ⟨rfl, ⟨rfl, -⟩ | ⟨said, rfl⟩ | rfl⟩ := reading_eq h
  · exact ⟨.reads _ hn, hr⟩
  · exact ⟨.reads _ hn, .failed said⟩
  · exact ⟨.reads _ hn, .error⟩

theorem writes {x : Write} (h : writing w x c = some (w', a)) (hx : pc.write = some x) :
    Serves w pc a w' ∧ Replies w pc a := by
  cases c with
  | ok =>
    simp only [writing] at h
    split at h
    · cases h
      exact ⟨.writes x .never hx (by simp), .failed _⟩
    · rename_i hr
      cases h
      exact ⟨.writes x .done hx fun _ => ⟨rfl, hr⟩, .done⟩
  | fail said fate =>
    cases h
    exact ⟨.writes x fate hx (by simp), .failed said⟩
  | error fate =>
    cases h
    exact ⟨.writes x fate hx (by simp), .error⟩
  | refuse | bool => cases h

theorem asks {head : String} (h : asking w head c = some (w', a)) (hn : pc.write = none)
    (hc : ∀ name job head id p, pc ≠ .cluster name job head id p) :
    Serves w pc a w' ∧ Replies w pc a := by
  cases c with
  | bool b =>
    simp only [asking] at h
    split at h
    · cases h
    · cases h
      exact ⟨.reads _ hn, .bool b hc⟩
  | ok | fail | refuse | error => cases h

theorem submit_heads (head id : String) :
    ∃ heads, w.submit head id = { w with heads := heads } := by
  unfold World.submit
  split
  · exact ⟨_, rfl⟩
  · exact ⟨w.heads, rfl⟩

theorem relays {head : String} {asked : Option String} (h : relaying w head asked c = some (w', a))
    (hn : pc.write = none) : Serves w pc a w' ∧ Replies w pc a := by
  have hsub : ∃ heads, asked.elim w (w.submit head) = { w with heads := heads } := by
    cases asked with
    | none => exact ⟨w.heads, rfl⟩
    | some id => exact submit_heads head id
  obtain ⟨heads, hsub⟩ := hsub
  have hserve (b : Bool) : Serves w pc a (if b then asked.elim w (w.submit head) else w) := by
    cases b with
    | true =>
      rw [if_pos rfl, hsub]
      exact .reads heads hn
    | false => exact .reads w.heads hn
  cases c with
  | ok =>
    simp only [relaying] at h
    split at h
    · cases h
    · cases h
      exact ⟨hserve true, .done⟩
  | fail said fate =>
    simp only [relaying, Option.some.injEq, Prod.mk.injEq] at h
    obtain ⟨rfl, rfl⟩ := h
    exact ⟨by simpa using hserve (fate = .done), .failed said⟩
  | error fate =>
    simp only [relaying, Option.some.injEq, Prod.mk.injEq] at h
    obtain ⟨rfl, rfl⟩ := h
    exact ⟨by simpa using hserve (fate = .done), .error⟩
  | refuse | bool => cases h

theorem serve_serves (h : serve w pc c = some (w', a)) : Serves w pc a w' ∧ Replies w pc a := by
  cases pc with
  | lock | sleep =>
    cases h
    exact ⟨.reads _ rfl, .done⟩
  | body | nrpBody | package | secret | nrpRest | free | watch => exact reads h rfl .done
  | before r asked goal => exact reads h rfl (.before r asked goal)
  | nrpBefore r asked goal => exact reads h rfl (.nrpBefore r asked goal)
  | admission | gpus =>
    simp only [serve] at h
    split at h
    · cases h
      exact ⟨.reads _ rfl, .silent _ _ (by simp) (by simp) (by simp)⟩
    · exact reads h rfl .done
  | post | patch | undo | deleteRecord | delete | nrpPost => exact writes h rfl
  | findHead j deadline =>
    exact reads (getting_eq h) rfl (.silent _ _ (by simp) (by simp) (by simp))
  | headStatus | openHead => exact asks h rfl (by simp)
  | relay head name asked => exact relays h rfl
  | find user jobId about => exact reads h rfl (.find user jobId about _)
  | findCluster => exact reads (getting_eq h) rfl (.bool _ (by simp))
  | cluster name job head id p =>
    refine reads (getting_eq h) rfl ?_
    cases hd : w.heads.get? head with
    | none => exact .cluster name job head id p hd
    | some jobs => exact .silent _ _ (by simp) (by simp) (by simp)
  | list => exact reads h rfl .list
  | headJob name job head id p =>
    simp only [serve] at h
    split at h
    · rename_i jobs hd
      obtain ⟨rfl, rfl⟩ : w = w' ∧ Answer.headJob (jobs.get? id) = a := by simpa using h
      refine ⟨.reads _ rfl, ?_⟩
      cases hj : jobs.get? id with
      | none => exact .headJob name job head id p jobs hd hj
      | some st => exact .silent _ _ (by simp) (by simp) (by simp)
    · cases h
      exact ⟨.reads _ rfl, .error⟩
    · cases h

/-- What the environment does: time passes, KubeRay reports, a head starts or stops, a RayJob
goes, or a call that was not answered takes effect. -/
inductive Happens (w : World) : World → Prop
  | tick (d : ℕ) : Happens w { w with now := w.now + d }
  | report (name : String) (j j' : RayJob) (st : Report) (hj : w.jobs.get? (.purdue, name) = some j)
      (hr : j.report st = some j') : Happens w (w.put (.purdue, name) j')
  | head (heads : Dict String (Dict String RayNrp.JobStatus)) : Happens w { w with heads := heads }
  | gone (key : Key) : Happens w { w with jobs := w.jobs.pop key }
  | land (i : ℕ) (x : Write) (hx : w.late[i]? = some x) :
      Happens w { w.apply x with late := w.late.eraseIdx i }
  | lapse (i : ℕ) : Happens w { w with late := w.late.eraseIdx i }

theorem env_happens {e : Move} (h : env w g e = some (w', g')) : g' = g ∧ Happens w w' := by
  cases e with
  | tick d =>
    cases h
    exact ⟨rfl, .tick d⟩
  | report name st =>
    obtain ⟨j', hb, heq⟩ := Option.map_eq_some_iff.mp h
    obtain ⟨j, hj, hr⟩ := Option.bind_eq_some_iff.mp hb
    cases heq
    exact ⟨rfl, .report name j j' st hj hr⟩
  | head cluster jobs =>
    cases jobs <;>
    · cases h
      exact ⟨rfl, .head _⟩
  | gone key =>
    cases h
    exact ⟨rfl, .gone key⟩
  | land i =>
    obtain ⟨x, hx, heq⟩ := Option.map_eq_some_iff.mp h
    cases heq
    exact ⟨rfl, .land i x hx⟩
  | lapse i =>
    cases h
    exact ⟨rfl, .lapse i⟩

theorem start_cases {call : Call} (h : start w g call = some r) :
    (r.next = none ∨ ∃ pc, r.next = some pc ∧ ((∃ r', pc = .body r') ∨ (∃ r', pc = .lock r') ∨
      (∃ user jobId about, pc = .find user jobId about) ∨ pc = .list)) ∧
    (∀ n, .reaps n ∉ r.events) ∧ r.mem = { g with reaping := r.mem.reaping } := by
  cases call with
  | submit r' =>
    simp only [start] at h
    split at h
    · split at h
      · cases h
        exact ⟨.inr ⟨_, rfl, .inr (.inl ⟨r', rfl⟩)⟩, by simp [awaiting], rfl⟩
      · cases h
        exact ⟨.inl rfl, by simp [refuse], rfl⟩
    · split at h
      · cases h
        exact ⟨.inl rfl, by simp [refuse], rfl⟩
      · split at h
        · cases h
          exact ⟨.inl rfl, by simp, rfl⟩
        · cases h
          refine ⟨.inr ⟨_, rfl, ?_⟩, by simp [awaiting], rfl⟩
          split
          · exact .inl ⟨r', rfl⟩
          · exact .inr (.inl ⟨r', rfl⟩)
  | about user jobId about =>
    cases h
    exact ⟨.inr ⟨_, rfl, .inr (.inr (.inl ⟨user, jobId, about, rfl⟩))⟩, by simp [awaiting], rfl⟩
  | reap =>
    simp only [start] at h
    split_ifs at h
    cases h
    exact ⟨.inr ⟨_, rfl, .inr (.inr (.inr rfl))⟩, by simp [awaiting], rfl⟩

def locked (g : Gateway) (cluster : String) : Bool := cluster ∈ g.submitting

theorem Checks.holds {name : String} {job : RayJob} {p : Pass} (h : Checks name job p pc) :
    pc.holds = none ∧ pc.started = none := by
  cases h <;> exact ⟨rfl, rfl⟩

theorem Nexts.holds {p : Pass} (h : Nexts p pc) : pc.holds = none ∧ pc.started = none := by
  obtain ⟨_, _, _, _, _, hc⟩ := h
  exact hc.holds

theorem Pc.pass_holds {p : Pass} (h : pc.pass = some p) : pc.holds = none ∧ pc.started = none := by
  cases pc <;> cases h <;> exact ⟨rfl, rfl⟩

/-- What becomes of a coroutine's lock: it takes one that is free, gives up the one it holds,
does both, or neither. -/
inductive Turns (g : Gateway) (held : Option String) (g' : Gateway) (next : Option String) : Prop
  | takes (c : String) (hh : held = none) (hfree : c ∉ g.submitting) (hn : next = some c)
      (hs : g'.submitting = c :: g.submitting)
  | gives (c : String) (hh : held = some c) (hn : next = none)
      (hs : g'.submitting = g.submitting.filter (· ≠ c))
  | both (c : String) (hh : held = none) (hfree : c ∉ g.submitting) (hn : next = none)
      (hs : g'.submitting = (c :: g.submitting).filter (· ≠ c))
  | keeps (hn : next = held) (hs : g'.submitting = g.submitting)

theorem Uses.turns {r : Request} {x : Waiting} {asked : Option String}
    (h : Uses g r x asked g' pc') :
    pc'.holds = none ∧ g'.submitting = g.submitting.filter (· ≠ r.cluster) ∨
      pc'.holds = some r.cluster ∧ g'.submitting = g.submitting := by
  cases h with
  | upload => exact .inl ⟨rfl, rfl⟩
  | submit id => exact .inr ⟨rfl, rfl⟩

theorem Takes.turns {r : Request} {asked : Option String} (h : Takes w g r asked g' pc') :
    pc'.holds = none ∧ g'.submitting = g.submitting.filter (· ≠ r.cluster) ∨
      pc'.holds = some r.cluster ∧ g'.submitting = g.submitting := by
  cases h with
  | waits x hx _ _ hu => exact hu.turns
  | draws hd => exact .inr ⟨rfl, rfl⟩

theorem Passed.holds {r : Request} {asked : String} {goal : Goal} (h : Passed g r asked goal pc a) :
    pc.holds = some r.cluster ∧ pc.started = none := by
  cases h <;> exact ⟨rfl, rfl⟩

theorem Leads.turns (h : Leads w g pc a g' pc') : Turns g pc.holds g' pc'.holds := by
  cases h with
  | before r asked hfree => exact .takes r.cluster rfl hfree rfl rfl
  | upload r hfree _ _ ht =>
    rcases ht.turns with ⟨hn, hs⟩ | ⟨hn, hs⟩
    · exact .both r.cluster rfl hfree hn hs
    · exact .takes r.cluster rfl hfree hn hs
  | package r hfree _ hn waits =>
    refine .takes r.cluster rfl hfree rfl ?_
    cases hn <;> rfl
  | nrpBody r sub name hfree _ hn =>
    refine .takes r.cluster rfl hfree rfl ?_
    cases hn <;> rfl
  | gpus r asked name _ _ hp => exact .keeps hp.holds.1.symm rfl
  | takes r asked _ _ hp _ _ ht =>
    rcases ht.turns with ⟨hn, hs⟩ | ⟨hn, hs⟩
    · exact .gives r.cluster hp.holds.1 hn hs
    · exact .keeps (hn.trans hp.holds.1.symm) hs
  | polls j _ _ _ h h' =>
    refine .keeps ?_ rfl
    rw [Pc.holds_started (Pc.started_posted h')]
    rcases h with ⟨rfl, -⟩ | h
    · rfl
    · exact (Pc.holds_started (Pc.started_posted h)).symm
  | uses j head _ _ hu =>
    rcases hu.turns with ⟨hn, hs⟩ | ⟨hn, hs⟩
    · exact .gives j.request.cluster rfl hn hs
    · exact .keeps hn hs
  | undoes j _ _ h => exact .keeps (Pc.holds_started (Pc.started_posted h)).symm rfl
  | relays r asked x => exact .gives r.cluster rfl rfl rfl
  | deleteRecord _ _ hh hs name => exact .keeps hh.symm rfl
  | pass _ _ hn => exact .keeps hn.holds.1 rfl
  | passes _ _ p hp _ hn => exact .keeps (hn.holds.1.trans (Pc.pass_holds hp).1.symm) rfl
  | _ => exact .keeps rfl rfl

def Locked : St → Prop := Exclusive locked fun pc cluster => pc.holds = some cluster

theorem resume_locks (h : resume w g pc a = some r) :
    Locks locked (fun pc cluster => pc.holds = some cluster) g (fun c => pc.holds = some c) r := by
  have hr := resume_resumes h
  have hgives {held : String} (hh : pc.holds = some held)
      (hs : r.mem.submitting = g.submitting.filter (· ≠ held))
      (hn : ∀ pc', r.next = some pc' → pc'.holds = none) :
      Locks locked (fun pc cluster => pc.holds = some cluster) g (fun c => pc.holds = some c) r := by
    refine ⟨fun c hc hf => ?_, fun c pc' hp hc => ?_, fun c pc' hp hc => ?_⟩
    · have hne : c ≠ held := fun heq => hc (heq ▸ hh)
      simpa [locked, hs, hne] using hf
    · simp [hn pc' hp] at hc
    · simp [hn pc' hp] at hc
  cases hn : r.next with
  | none =>
    obtain ⟨hs | ⟨held, hh, hs⟩, -, -, -, -⟩ := hr.quits hn
    · exact .of_eq (funext fun c => by simp [locked, hs]) (by simp [hn])
    · exact hgives hh hs (by simp [hn])
  | some pc' =>
    have hall {q : Pc → Prop} (hq : q pc') (x : Pc) (hx : r.next = some x) : q x := by
      obtain rfl : x = pc' := Option.some.inj (hx.symm.trans hn)
      exact hq
    cases (hr.next pc' hn).turns with
    | takes c hh hfree hc hs =>
      refine ⟨fun k _ hf => ?_, fun k x hx hk _ => ?_, fun k x hx hk hold => ?_⟩
      · simp only [locked, hs, List.mem_cons, decide_eq_true_eq] at hf ⊢
        exact .inr hf
      · obtain rfl : c = k :=
          Option.some.inj (hc.symm.trans (hall (q := fun x => x.holds = some k → pc'.holds = some k)
            id x hx hk))
        exact ⟨by simp [locked, hfree], by simp [locked, hs]⟩
      · simp [hh] at hold
    | gives c hh hc hs => exact hgives hh hs fun x hx => hall (q := fun x => x.holds = none) hc x hx
    | both c hh hfree hc hs =>
      have hsame : r.mem.submitting = g.submitting := by
        rw [hs, List.filter_cons_of_neg (by simp)]
        exact List.filter_eq_self.mpr fun x hx => by simpa using fun heq : x = c => hfree (heq ▸ hx)
      refine .of_eq (funext fun k => by simp [locked, hsame]) fun k x hx hk => ?_
      rw [hall (q := fun x => x.holds = none) hc x hx] at hk
      cases hk
    | keeps hc hs =>
      exact .of_eq (funext fun k => by simp [locked, hs]) fun k x hx hk =>
        hall (q := fun x => x.holds = some k → pc.holds = some k) (fun hk => hc ▸ hk) x hx hk

theorem start_holds {call : Call} (h : start w g call = some r) {pc' : Pc} (hn : r.next = some pc') :
    pc'.holds = none ∧ pc'.started = none := by
  rcases (start_cases h).1 with hnone | ⟨pc, hpc, hcases⟩
  · rw [hnone] at hn
    cases hn
  · obtain rfl : pc = pc' := Option.some.inj (hpc.symm.trans hn)
    rcases hcases with ⟨_, rfl⟩ | ⟨_, rfl⟩ | ⟨_, _, _, rfl⟩ | rfl <;> exact ⟨rfl, rfl⟩

theorem locked_step {s s' : St} {act : Act} (h : Locked s) (hs : program.step s act = some s') :
    Locked s' := by
  refine Exclusive.step (P := program) (fun w g i r hr => ?_) (fun w g pc a r hr => resume_locks hr)
    (fun w g e w' g' he c hc => ?_) h hs
  · have hmem := (start_cases (w := w) hr).2.2
    refine .of_eq (funext fun c => by rw [hmem]; rfl) fun c x hx hc => ?_
    simp [(start_holds (w := w) hr hx).1] at hc
  · rw [(env_happens he).1]
    exact hc

end PurdueAF.RaySubmissions
