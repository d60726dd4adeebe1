import PurdueAF.RayNrp

/-!
# What a step of the NRP coroutines can do

Said once, for every invariant below: which await a coroutine goes on to from which and
on what grounds, what it then leaves in the gateway's memory, and what serving an await or
a move of the environment does to the RayJobs and the bucket.
-/
namespace PurdueAF.RayNrp
open Ray RayNaming Coroutine

def After.cluster : After → Option String
  | .submission cluster _ => some cluster
  | _ => none

/-- Where the coroutine returns to, if it is in `advance_nrp`, `stop_nrp` or `delete_nrp`. -/
def Pc.after : Pc → Option After
  | .copied _ _ _ k | .idle _ k | .patch _ _ _ k | .unsuspend _ k | .clean _ _ _ k | .delete _ k
  | .deleteCopy _ _ k | .deleteCode _ k => some k
  | _ => none

/-- The user's lock that a coroutine holds. -/
def Pc.holds : Pc → Option String
  | .package cluster _ _ | .post cluster _ _ | .copy cluster _ _ _ => some cluster
  | .body user _ _ | .before user _ _ | .gpus user _ _ => some user.cluster
  | pc => pc.after.bind After.cluster

theorem Pc.holds_after {pc : Pc} {k : After} (h : pc.after = some k) : pc.holds = k.cluster := by
  cases pc <;> cases h <;> rfl

/-- The end of `advance_nrp`: a job that is done. -/
inductive AtDone (g : Gateway) (job : RayJob) (since now : ℤ) (k : After) : Pc → Prop
  | clean (ho : job.output ≠ .failed) : AtDone g job since now k (.clean job since now k)
  | record (ho : job.output = .failed ∨ job.name ∈ g.cleaned) (hr : jobRecordS ≤ now - since) :
      AtDone g job since now k (.delete job.name k)

/-- What `advance_nrp` first does about a job, by its copy. -/
inductive Advances (w : World) (g : Gateway) (job : RayJob) (k : After) : Pc → Prop
  | inputs (h : job.at = .inputs) : Advances w g job k (.copied job .into w.now k)
  | placing (h : job.at = .placing) : Advances w g job k (.patch job (resumePatch w.now) .finished k)
  | ended (h : job.at = .running) (he : job.ended = true) (after : Stage)
      (ha : after = if job.output = .asked then .outputs else .done) :
      Advances w g job k (.patch job (stagePatch after w.now)
        (.advance after (job.since.getD job.created) w.now) k)
  | late (h : job.at = .running) : Advances w g job k (stopNrp w job stoppedNotStarted k)
  | idle (h : job.at = .running) : Advances w g job k (.idle job k)
  | outputs (h : job.at = .outputs) : Advances w g job k (.copied job .out w.now k)
  | done (h : job.at = .done) (pc : Pc) (hd : AtDone g job (job.since.getD job.created) w.now k pc) :
      Advances w g job k pc

/-- What a coroutine goes on to when it returns: the next job of its pass, or the bucket. -/
inductive Returns (w : World) (g : Gateway) (p : Pass) : Pc → Prop
  | next (job : RayJob) (rest : List RayJob) (hs : job :: rest <:+ p.rest) (pc : Pc)
      (ha : Advances w g job (.pass ⟨p.now, p.listed, rest⟩) pc) : Returns w g p pc
  | jobs : Returns w g p (.jobs p.now (taken g p.listed))

/-- A submission draws a name that was never used, or takes the one that waits. -/
inductive Names (w : World) (g : Gateway) (cluster name : String) : Gateway → Prop
  | waits (h : waitingName w g cluster = some name) : Names w g cluster name g
  | draws (h : name ∉ g.drawn) : Names w g cluster name { g with drawn := name :: g.drawn }

/-- The RayJob a submission has created. -/
inductive Creates : Pc → Answer → String → RayJob → Prop
  | post (cluster : String) (job made : RayJob) (copies : List Direction) :
      Creates (.post cluster job copies) (.created made) cluster made
  | copy (cluster : String) (job : RayJob) (d : Direction) (more : List Direction) :
      Creates (.copy cluster job d more) .done cluster job

/-- Every way from an await to the next one, with the memory it leaves. -/
inductive Leads (w : World) (g : Gateway) : Pc → Answer → Gateway → Pc → Prop
  | package (user : User) (key name : String) (put : Bool) (g' : Gateway)
      (hfree : g.submitting.get? user.cluster = none) (hn : Names w g user.cluster name g') :
      Leads w g (.lock user key (.package put)) .done
        { g' with submitting := g'.submitting.set user.cluster name,
                  waiting := g'.waiting.set user.cluster (name, w.now) }
        (.package user.cluster name put)
  | body (user : User) (key name : String) (sub : Submission) (g' : Gateway)
      (hfree : g.submitting.get? user.cluster = none) (hn : Names w g user.cluster name g') :
      Leads w g (.lock user key (.submit sub)) .done
        { g' with submitting := g'.submitting.set user.cluster name } (.body user name sub)
  | before (user : User) (name : String) (sub : Submission) :
      Leads w g (.body user name sub) .done { g with waiting := g.waiting.pop user.cluster }
        (.before user name sub)
  | gpus (user : User) (name : String) (sub : Submission) (a : Answer) :
      Leads w g (.before user name sub) a g (.gpus user name sub)
  | post (user : User) (name : String) (sub : Submission) (a : Answer) :
      Leads w g (.gpus user name sub) a g
        (.post user.cluster (buildJob user name sub w.now) (copiesOf sub))
  | copy (pc : Pc) (a : Answer) (cluster : String) (job : RayJob) (d : Direction)
      (more : List Direction) (hc : Creates pc a cluster job) :
      Leads w g pc a g (.copy cluster job d more)
  | created (pc : Pc) (a : Answer) (cluster : String) (job : RayJob)
      (hc : Creates pc a cluster job) (pc' : Pc)
      (ha : Advances w g job (.submission cluster none) pc') : Leads w g pc a g pc'
  | uncopied (cluster : String) (job : RayJob) (d : Direction) (more : List Direction)
      (a : Answer) (why : Refused) : Leads w g (.copy cluster job d more) a g
        (stopNrp w job stoppedInputs (.submission cluster (some why)))
  | stops (user : User) (jobId : String) (jobs : List RayJob) (job : RayJob) (hm : job ∈ jobs)
      (he : job.ended = false) (hs : job.stopped = none) :
      Leads w g (.find user jobId .stop) (.listing jobs) g (stopNrp w job stoppedByUser .about)
  | deletes (user : User) (jobId : String) (jobs : List RayJob) (job : RayJob)
      (hf : (jobs.find? fun j => j.jobId = jobId) = some job)
      (hs : job.stage.getD .done = .done) :
      Leads w g (.find user jobId .delete) (.listing jobs) g (.delete job.name .about)
  | uninput (job : RayJob) (now : ℤ) (k : After) (a : Answer) :
      Leads w g (.copied job .into now k) a g (stopNrp w job stoppedInputs k)
  | resume (job : RayJob) (now : ℤ) (k : After) (a : Answer) :
      Leads w g (.copied job .into now k) a g (.patch job (resumePatch w.now) .finished k)
  | unsuspend (job : RayJob) (now : ℤ) (k : After) (a : Answer) :
      Leads w g (.copied job .out now k) a g (.unsuspend job.name k)
  | output (job : RayJob) (now : ℤ) (k : After) (state : Option CopyState) :
      Leads w g (.copied job .out now k) (.copy state) g
        (.patch job (outputPatch state w.now) (.advance .done now now) k)
  | idle (job : RayJob) (k : After) (a : Answer) (why : String) :
      Leads w g (.idle job k) a g (stopNrp w job why k)
  | stop (job : RayJob) (p : Patch) (why : String) (k : After) :
      Leads w g (.patch job p (.stop why) k) .done g
        (.patch job (stopPatch job why w.now) .finished k)
  | outputs (job : RayJob) (p : Patch) (since now : ℤ) (k : After) :
      Leads w g (.patch job p (.advance .outputs since now) k) .done g
        (.copied (p.apply job) .out now k)
  | done (job : RayJob) (p : Patch) (stage : Stage) (since now : ℤ) (k : After)
      (hs : stage ≠ .outputs) (pc' : Pc) (ha : AtDone g (p.apply job) since now k pc') :
      Leads w g (.patch job p (.advance stage since now) k) .done g pc'
  | record (job : RayJob) (since now : ℤ) (k : After) (hr : jobRecordS ≤ now - since) :
      Leads w g (.clean job since now k) .done { g with cleaned := job.name :: g.cleaned }
        (.delete job.name k)
  | deleteIn (name : String) (k : After) (a : Answer) :
      Leads w g (.delete name k) a g (.deleteCopy name .into k)
  | deleteOut (name : String) (k : After) (a : Answer) :
      Leads w g (.deleteCopy name .into k) a g (.deleteCopy name .out k)
  | deleteCode (name : String) (k : After) (a : Answer) :
      Leads w g (.deleteCopy name .out k) a { g with cleaned := g.cleaned.filter (· ≠ name) }
        (.deleteCode name k)
  | usage (jobs : List RayJob) : Leads w g .list (.listing jobs) g (.usage jobs)
  | pass (jobs : List RayJob) (a : Answer) (pc' : Pc) (hr : Returns w g ⟨w.now, jobs, jobs⟩ pc') :
      Leads w g (.usage jobs) a g pc'
  | orphans (now : ℤ) (taken : List String) (written : Dict String ℤ) (rest : List String)
      (ho : orphans now taken written = rest) :
      Leads w g (.jobs now taken) (.newest written) g (.sweep rest)
  | sweep (name : String) (rest : List String) :
      Leads w g (.sweep (name :: rest)) .done g (.sweep rest)
  | returns (pc : Pc) (a : Answer) (p : Pass) (hk : pc.after = some (.pass p)) (g' : Gateway)
      (cleaned : List String) (hg : g' = { g with cleaned := cleaned }) (pc' : Pc)
      (hr : Returns w g' p pc') : Leads w g pc a g' pc'

variable {w : World} {g g' : Gateway} {pc pc' : Pc} {a : Answer} {r : Step}

theorem atDone_eq {job : RayJob} {since now : ℤ} {k : After} {events : List Event}
    (h : atDone g job since now k = some (pc', events)) : AtDone g job since now k pc' := by
  unfold atDone at h
  split_ifs at h with hc hr
  · cases h
    exact .clean hc.2
  · cases h
    refine .record ?_ hr
    by_cases ho : job.output = .failed
    · exact .inl ho
    · exact .inr (by simpa [ho] using hc)

theorem advanceNrp_eq {job : RayJob} {k : After} {events : List Event}
    (h : advanceNrp w g job k = some (pc', events)) : Advances w g job k pc' := by
  unfold advanceNrp at h
  dsimp only at h
  split at h
  · rename_i hat
    cases h
    exact .inputs hat
  · rename_i hat
    cases h
    exact .placing hat
  · rename_i hat
    split at h
    · rename_i he
      obtain ⟨rfl, -⟩ : _ = pc' ∧ _ := by simpa using h
      exact .ended hat he _ rfl
    · split at h
      · cases h
        exact .late hat
      · split at h
        · cases h
          exact .idle hat
        · cases h
  · rename_i hat
    cases h
    exact .outputs hat
  · rename_i hat
    exact .done hat _ (atDone_eq h)

theorem nextJob_next {now : ℤ} {listed jobs : List RayJob}
    (h : (nextJob w g now listed jobs).next = some pc') :
    Returns w g ⟨now, listed, jobs⟩ pc' := by
  induction jobs with
  | nil =>
    cases h
    exact .jobs
  | cons job rest ih =>
    unfold nextJob at h
    split at h
    · rename_i pc events ha
      cases h
      exact .next job rest (List.suffix_refl _) _ (advanceNrp_eq ha)
    · cases ih h with
      | next job' rest' hs pc ha =>
        exact .next job' rest' (hs.trans (List.suffix_cons job rest)) _ ha
      | jobs => exact .jobs

theorem nextJob_mem (now : ℤ) (listed jobs : List RayJob) :
    (nextJob w g now listed jobs).mem = g := by
  induction jobs with
  | nil => rfl
  | cons job rest ih =>
    unfold nextJob
    split
    · rfl
    · exact ih

/-- A coroutine that is over: it gave up its lock, and a pass said so. -/
structure Quits (g : Gateway) (pc : Pc) (g' : Gateway) : Prop where
  submitting : g'.submitting = g.submitting ∨ ∃ cluster, pc.holds = some cluster ∧
    g'.submitting = g.submitting.pop cluster
  waiting : g'.waiting = g.waiting
  drawn : g'.drawn = g.drawn

/-- What resuming a coroutine comes to. -/
structure Resumes (w : World) (g : Gateway) (pc : Pc) (a : Answer) (r : Step) : Prop where
  next : ∀ pc', r.next = some pc' → Leads w g pc a r.mem pc'
  quits : r.next = none → Quits g pc r.mem
  deletes : ∀ name cause, .deletes name cause ∈ r.events →
    (∃ job since now k, r.next = some (.clean job since now k) ∧ name = job.name ∧ cause = .clean) ∨
    (∃ k, r.next = some (.deleteCode name k) ∧ cause = k.cause) ∨
    ∃ rest, r.next = some (.sweep (name :: rest)) ∧ cause = .orphan

theorem Resumes.awaiting (h : Leads w g pc a g' pc') : Resumes w g pc a (awaiting g' pc') where
  next _ hn := by
    cases hn
    exact h
  quits := nofun
  deletes := nofun

theorem Resumes.over {events : List Event} (h : Quits g pc g')
    (he : ∀ name cause, .deletes name cause ∉ events) : Resumes w g pc a ⟨g', none, events⟩ where
  next _ hn := absurd hn (by simp)
  quits _ := h
  deletes name cause hm := absurd hm (he name cause)

theorem Quits.same (hs : g'.submitting = g.submitting) (hw : g'.waiting = g.waiting)
    (hd : g'.drawn = g.drawn) : Quits g pc g' := ⟨.inl hs, hw, hd⟩

theorem Quits.release {cluster : String} (h : pc.holds = some cluster) :
    Quits g pc (release g cluster) := ⟨.inr ⟨cluster, h, rfl⟩, rfl, rfl⟩

theorem Resumes.ends {cluster : String} (h : pc.holds = some cluster) {event : Event}
    (he : ∀ name cause, .deletes name cause ≠ event) : Resumes w g pc a (ends g cluster event) :=
  .over (.release h) fun name cause => by simpa using he name cause

/-- The one call of `delete_prefix` that `advance_nrp` itself makes. -/
def cleans (pc : Pc) (events : List Event) : Prop :=
  ∀ name cause, .deletes name cause ∈ events →
    ∃ job since now k, pc = .clean job since now k ∧ name = job.name ∧ cause = .clean

theorem atDone_cleans {job : RayJob} {since now : ℤ} {k : After} {events : List Event}
    (h : atDone g job since now k = some (pc', events)) : cleans pc' events := by
  intro name cause hm
  unfold atDone at h
  split_ifs at h
  · cases h
    obtain ⟨rfl, rfl⟩ : name = job.name ∧ cause = .clean := by simpa using hm
    exact ⟨job, since, now, k, rfl, rfl, rfl⟩
  · cases h
    simp at hm

theorem advanceNrp_cleans {job : RayJob} {k : After} {events : List Event}
    (h : advanceNrp w g job k = some (pc', events)) : cleans pc' events := by
  unfold advanceNrp at h
  dsimp only at h
  split at h
  case h_5 => exact atDone_cleans h
  case h_3 =>
    split at h
    · cases h
      exact nofun
    · split at h
      · cases h
        exact nofun
      · split at h
        · cases h
          exact nofun
        · cases h
  all_goals
    cases h
    exact nofun

theorem nextJob_cleans {now : ℤ} {listed jobs : List RayJob} {name : String} {cause : Cause}
    (hm : .deletes name cause ∈ (nextJob w g now listed jobs).events) :
    ∃ job since now' k, (nextJob w g now listed jobs).next = some (.clean job since now' k) ∧
      name = job.name ∧ cause = .clean := by
  induction jobs with
  | nil => simp [nextJob, RayNrp.awaiting] at hm
  | cons job rest ih =>
    unfold nextJob at hm ⊢
    split at hm
    · rename_i pc events ha
      obtain ⟨job, since, now', k, rfl, h⟩ := advanceNrp_cleans ha name cause hm
      exact ⟨job, since, now', k, rfl, h⟩
    · exact ih hm

theorem nextJob_isSome (now : ℤ) (listed jobs : List RayJob) :
    (nextJob w g now listed jobs).next ≠ none := by
  induction jobs with
  | nil => simp [nextJob, RayNrp.awaiting]
  | cons job rest ih =>
    unfold nextJob
    split
    · simp
    · exact ih

theorem Resumes.nextJob {now : ℤ} {listed jobs : List RayJob}
    (hl : ∀ pc', Returns w g' ⟨now, listed, jobs⟩ pc' → Leads w g pc a g' pc') :
    Resumes w g pc a (nextJob w g' now listed jobs) where
  next pc' hn := by
    rw [nextJob_mem]
    exact hl pc' (nextJob_next hn)
  quits hn := absurd hn (nextJob_isSome now listed jobs)
  deletes _ _ hm := .inl (nextJob_cleans hm)

theorem Resumes.returned {k : After} (cleaned : List String) (hk : pc.after = some k)
    (hg : g' = { g with cleaned := cleaned }) : Resumes w g pc a (returned w g' k) := by
  have hq : Quits g pc g' := .same (by rw [hg]) (by rw [hg]) (by rw [hg])
  cases k with
  | submission cluster refusal =>
    have hr : Quits g pc (release g' cluster) := by
      refine ⟨.inr ⟨cluster, Pc.holds_after hk, ?_⟩, hq.waiting, hq.drawn⟩
      rw [hg]
      rfl
    cases refusal with
    | none => exact .over hr (by simp)
    | some why => exact .over hr (by simp)
  | about => exact .over hq (by simp)
  | pass p => exact .nextJob fun pc' hr => .returns pc a p hk g' cleaned hg pc' hr

theorem Resumes.failed {k : After} (hk : pc.after = some k) {event : Event}
    (he : ∀ name cause, .deletes name cause ≠ event) : Resumes w g pc a (failed w g event k) := by
  cases k with
  | submission cluster refusal => exact .ends (Pc.holds_after hk) he
  | about => exact .over (.same rfl rfl rfl) fun name cause => by simpa using he name cause
  | pass p => exact .nextJob fun pc' hr => .returns pc a p hk g g.cleaned rfl pc' hr

theorem Resumes.cleaning {events : List Event} (h : Leads w g pc a g' pc')
    (he : cleans pc' events) : Resumes w g pc a ⟨g', some pc', events⟩ where
  next _ hn := by
    cases hn
    exact h
  quits := nofun
  deletes name cause hm := by
    obtain ⟨job, since, now, k, rfl, hn⟩ := he name cause hm
    exact .inl ⟨job, since, now, k, rfl, hn⟩

theorem Resumes.nextCopy {cluster : String} {job : RayJob} (hc : Creates pc a cluster job)
    (more : List Direction) : Resumes w g pc a (nextCopy w g cluster job more) := by
  have hh : pc.holds = some cluster := by cases hc <;> rfl
  cases more with
  | cons d more => exact .awaiting (.copy pc a cluster job d more hc)
  | nil =>
    simp only [RayNrp.nextCopy, continued]
    split
    · rename_i pc' events ha
      exact .cleaning (.created pc a cluster job hc pc' (advanceNrp_eq ha)) (advanceNrp_cleans ha)
    · exact .over (.release hh) (by simp)

theorem Resumes.resumeCopied (job : RayJob) (now : ℤ) (k : After) (state : Option CopyState)
    (d : Direction) : Resumes w g (.copied job d now k) (.copy state)
      (resumeCopied w g job now k state d) := by
  have hret : Resumes w g (.copied job d now k) (.copy state) (RayNrp.returned w g k) :=
    .returned g.cleaned rfl rfl
  cases d with
  | into =>
    simp only [RayNrp.resumeCopied]
    split
    · exact .awaiting (.uninput job now k _)
    · exact .awaiting (.uninput job now k _)
    · exact .awaiting (.resume job now k _)
    · exact hret
  | out =>
    simp only [RayNrp.resumeCopied]
    split
    · exact .awaiting (.unsuspend job now k _)
    · exact hret
    · exact .awaiting (.output job now k state)

theorem Resumes.resumePatched (job : RayJob) (p : Patch) (k : After) (next : Next) :
    Resumes w g (.patch job p next k) .done (resumePatched w g job p k next) := by
  cases next with
  | stop why => exact .awaiting (.stop job p why k)
  | finished => exact .returned g.cleaned rfl rfl
  | advance stage since now =>
    have hdone (hs : stage ≠ .outputs) : Resumes w g (.patch job p (.advance stage since now) k)
        .done (continued w g k (atDone g (p.apply job) since now k)) := by
      unfold continued
      split
      · rename_i pc' events ha
        exact .cleaning (.done job p stage since now k hs pc' (atDone_eq ha)) (atDone_cleans ha)
      · exact .returned g.cleaned rfl rfl
    cases stage with
    | outputs => exact .awaiting (.outputs job p since now k)
    | inputs | placing | running | done => exact hdone (by decide)

theorem Resumes.nrpRecorded {user : User} {jobId : String} {jobs : List RayJob} {job : RayJob}
    (hj : (jobs.find? fun j => j.jobId = jobId) = some job) (about : About) :
    Resumes w g (.find user jobId about) (.listing jobs) (nrpRecorded w g job about) := by
  cases about with
  | stop =>
    simp only [RayNrp.nrpRecorded]
    split
    · exact .over (.same rfl rfl rfl) (by simp)
    · rename_i hf
      simp only [Bool.or_eq_true, not_or, Bool.not_eq_true, Option.isSome_eq_false_iff,
        Option.isNone_iff_eq_none] at hf
      exact .awaiting (.stops user jobId jobs job (List.mem_of_find?_eq_some hj) hf.1 hf.2)
  | delete =>
    simp only [RayNrp.nrpRecorded]
    split
    · exact .over (.same rfl rfl rfl) (by simp)
    · rename_i hs
      exact .awaiting (.deletes user jobId jobs job hj (not_not.mp hs))

theorem Resumes.nextSweep {rest : List String} (h : rest ≠ [] → Leads w g pc a g (.sweep rest)) :
    Resumes w g pc a (nextSweep g rest) := by
  cases rest with
  | nil => exact .over (.same rfl rfl rfl) (by simp)
  | cons name rest =>
    refine ⟨fun pc' hn => ?_, nofun, fun name' cause hm => ?_⟩
    · cases hn
      exact h (by simp)
    · obtain ⟨rfl, rfl⟩ : name' = name ∧ cause = .orphan := by
        simpa [RayNrp.nextSweep] using hm
      exact .inr (.inr ⟨rest, rfl, rfl⟩)

theorem Resumes.entered {user : User} {key name : String} {request : Request}
    (hfree : g.submitting.get? user.cluster = none) (hn : Names w g user.cluster name g') :
    Resumes w g (.lock user key request) .done (entered w g' user name request) := by
  cases request with
  | package put => exact .awaiting (.package user key name put g' hfree hn)
  | submit sub => exact .awaiting (.body user key name sub g' hfree hn)

theorem resume_resumes (h : resume w g pc a = some r) : Resumes w g pc a r := by
  have hsame : Quits g pc g := .same rfl rfl rfl
  have hret {k : After} (hk : pc.after = some k) : Resumes w g pc a (returned w g k) :=
    .returned g.cleaned hk rfl
  unfold resume at h
  split at h
  case h_1 user key request =>
    split at h
    · cases h
    · rename_i hfree
      simp only [Bool.not_eq_true, Option.isSome_eq_false_iff, Option.isNone_iff_eq_none] at hfree
      split at h
      · rename_i name hname
        cases h
        exact .entered hfree (.waits hname)
      · dsimp only at h
        split at h
        · cases h
        · rename_i hdrawn
          cases h
          exact .entered hfree (.draws hdrawn)
  case h_8 user name sub known =>
    split at h
    · cases h
      exact .ends rfl (by simp)
    · cases h
      exact .awaiting (.gpus user name sub _)
  case h_20 user jobId about jobs =>
    split at h
    · rename_i job hf
      cases h
      exact .nrpRecorded hf about
    · cases h
      exact .over hsame (by simp)
  case h_25 job k busy =>
    split at h
    · rename_i q hq
      cases h
      exact .awaiting (.idle job k _ _)
    · cases h
      exact hret rfl
  case h_32 job since now k =>
    dsimp only at h
    split at h
    · rename_i hr
      cases h
      exact .awaiting (.record job since now k hr)
    · cases h
      exact .returned (job.name :: g.cleaned) rfl rfl
  case h_48 => cases h
  all_goals obtain rfl := Option.some.inj h
  -- A submission that gives up, and a coroutine that only reads.
  case h_2 | h_3 | h_6 | h_7 | h_9 | h_10 | h_12 | h_13 | h_15 | h_16 | h_19 =>
    exact .ends rfl (by simp [unavailable])
  case h_4 => exact .over (.release rfl) (by simp)
  case h_21 => exact .over hsame (by simp)
  case h_42 | h_45 | h_47 => exact .over (.same rfl rfl rfl) (by simp)
  -- The submission goes on.
  case h_5 user name sub => exact .awaiting (.before user name sub)
  case h_11 user name sub => exact .awaiting (.post user name sub _)
  case h_14 cluster job copies made => exact .nextCopy (.post cluster job made copies) copies
  case h_17 cluster job d more => exact .nextCopy (.copy cluster job d more) more
  case h_18 cluster job d more said => exact .awaiting (.uncopied cluster job d more _ _)
  -- `advance_nrp`, `stop_nrp` and `delete_nrp` go on, return or fail.
  case h_22 job d now k state => exact .resumeCopied job now k state d
  case h_27 job p next k => exact .resumePatched job p k next
  case h_23 | h_24 | h_28 | h_29 | h_30 | h_33 | h_34 | h_36 | h_40 => exact .failed rfl (by simp [unavailable])
  case h_26 | h_31 | h_39 => exact hret rfl
  case h_35 name k _ => exact .awaiting (.deleteIn name k _)
  case h_37 name k _ => exact .awaiting (.deleteOut name k _)
  case h_38 name k _ =>
    refine ⟨fun pc' hn => ?_, by rintro ⟨⟩, fun name' cause hm => ?_⟩
    · cases hn
      exact .deleteCode name k _
    · obtain ⟨rfl, rfl⟩ : name' = name ∧ cause = k.cause := by simpa using hm
      exact .inr (.inl ⟨k, rfl, rfl⟩)
  -- The pass.
  case h_41 jobs => exact .awaiting (.usage jobs)
  case h_43 jobs => exact .nextJob fun pc' hr => .pass jobs _ pc' hr
  case h_44 now taken written => exact .nextSweep fun _ => .orphans now taken written _ rfl
  case h_46 name rest => exact .nextSweep fun _ => .sweep name rest

/-- The world after an await is served: a copying Job is made only by its submission, and
none succeeds by a call of the gateway. -/
inductive Writes (w : World) : Pc → World → Prop
  | same (pc : Pc) : Writes w pc w
  | post (cluster : String) (job : RayJob) (copies : List Direction)
      (hl : w.live job.name = none) : Writes w (.post cluster job copies) (w.post job)
  | patch (job : RayJob) (p : Patch) (next : Next) (k : After) (r : Record)
      (hl : w.live job.name = some r) :
      Writes w (.patch job p next k) (w.put job.name (r.patch p))
  | remove (name : String) (k : After) (r : Record) (hl : w.live name = some r) :
      Writes w (.delete name k) (w.put name { r with removed := true })
  | write (cluster name : String) : Writes w (.package cluster name true) (w.write name)
  | erase (pc : Pc) (name : String) : Writes w pc (w.erase name)
  | copies (pc : Pc) (d : Dict (String × Direction) CopyState)
      (hnew : ∀ key st, d.get? key = some st → (∃ st', w.copies.get? key = some st') ∨
        ∃ cluster job dir more, pc = .copy cluster job dir more ∧ key = (job.name, dir))
      (hok : ∀ name, d.get? (name, .out) = some .succeeded →
        w.copies.get? (name, .out) = some .succeeded) :
      Writes w pc { w with copies := d }

/-- What an answer says of the world it was given in. -/
structure Replies (w : World) (pc : Pc) (w' : World) (a : Answer) : Prop where
  listing : ∀ jobs, a = .listing jobs → ∀ job ∈ jobs, job ∈ w.listing
  created : ∀ made, a = .created made → ∃ cluster job copies, pc = .post cluster job copies ∧
    made = { job with created := w.now } ∧ w' = w.post job
  patched : ∀ job p next k, pc = .patch job p next k → a = .done →
    ∃ r, w.live job.name = some r ∧ w' = w.put job.name (r.patch p)
  copied : ∀ job d now k state, pc = .copied job d now k → a = .copy state →
    state = w.copies.get? (job.name, d)
  newest : ∀ written, a = .newest written → written = w.bucket

/-- The answers that say nothing of the world. -/
def silent : Answer → Bool
  | .failed _ | .error | .bool _ | .samples _ => true
  | _ => false

theorem Replies.silent {w' : World} (h : silent a = true) : Replies w pc w' a := by
  cases a with
  | failed | error | bool | samples => constructor <;> simp
  | _ => cases h

theorem Replies.done {w' : World} (h : ∀ job p next k, pc ≠ .patch job p next k) :
    Replies w pc w' .done :=
  ⟨by simp, by simp, fun job p next k hp _ => absurd hp (h job p next k), by simp, by simp⟩

theorem reading_eq {w' : World} {answer : Answer} {c : Choice}
    (h : (reading answer c).map (w, ·) = some (w', a)) :
    w' = w ∧ (a = answer ∨ silent a = true) := by
  cases c with
  | ok =>
    cases h
    exact ⟨rfl, .inl rfl⟩
  | fail said =>
    cases h
    exact ⟨rfl, .inr rfl⟩
  | error =>
    cases h
    exact ⟨rfl, .inr rfl⟩
  | lost | bool | samples => cases h

theorem writing_eq {w' w'' : World} {answer : Answer} {c : Choice}
    (h : writing w w' answer c = some (w'', a)) :
    (w'' = w ∨ w'' = w') ∧ (a = answer ∧ w'' = w' ∨ silent a = true) := by
  cases c with
  | ok =>
    cases h
    exact ⟨.inr rfl, .inl ⟨rfl, rfl⟩⟩
  | lost =>
    cases h
    exact ⟨.inr rfl, .inr rfl⟩
  | fail said =>
    cases h
    exact ⟨.inl rfl, .inr rfl⟩
  | error =>
    cases h
    exact ⟨.inl rfl, .inr rfl⟩
  | bool | samples => cases h

/-- A read whose answer says what it should. -/
theorem reads {w' : World} {answer : Answer} {c : Choice}
    (h : (reading answer c).map (w, ·) = some (w', a)) (hr : Replies w pc w answer) :
    Writes w pc w' ∧ Replies w pc w' a := by
  obtain ⟨rfl, rfl | hs⟩ := reading_eq h
  · exact ⟨.same pc, hr⟩
  · exact ⟨.same pc, .silent hs⟩

/-- A write that does what it should. -/
theorem writes {w' w'' : World} {answer : Answer} {c : Choice}
    (h : writing w w' answer c = some (w'', a)) (hw : Writes w pc w')
    (hr : Replies w pc w' answer) : Writes w pc w'' ∧ Replies w pc w'' a := by
  obtain ⟨hw', ⟨rfl, rfl⟩ | hs⟩ := writing_eq h
  · exact ⟨hw, hr⟩
  · refine ⟨?_, .silent hs⟩
    rcases hw' with rfl | rfl
    · exact .same pc
    · exact hw

theorem copies_addCopy (cluster : String) (job : RayJob) (d : Direction) (more : List Direction) :
    Writes w (.copy cluster job d more) (w.addCopy job.name d) := by
  refine .copies _ _ (fun key st hk => ?_) fun name hk => ?_
  · rw [Dict.get?_set] at hk
    split_ifs at hk with hkey
    · exact .inr ⟨cluster, job, d, more, rfl, hkey⟩
    · exact .inl ⟨st, hk⟩
  · rw [Dict.get?_set] at hk
    split_ifs at hk with hkey
    · cases d <;> simp_all [Direction.made]
    · exact hk

theorem copies_unsuspend (pc : Pc) (name : String) : Writes w pc (w.unsuspend name) := by
  unfold World.unsuspend
  split
  · rename_i hs
    refine .copies _ _ (fun key st hk => ?_) fun n hk => ?_
    · rw [Dict.get?_set] at hk
      split_ifs at hk with hkey
      · exact .inl ⟨_, hkey ▸ hs⟩
      · exact .inl ⟨st, hk⟩
    · rw [Dict.get?_set] at hk
      split_ifs at hk
      · cases hk
      · exact hk
  · exact .same pc

theorem copies_pop (pc : Pc) (key : String × Direction) :
    Writes w pc { w with copies := w.copies.pop key } := by
  refine .copies _ _ (fun k st hk => ?_) fun n hk => ?_
  · rw [Dict.get?_pop] at hk
    split_ifs at hk
    exact .inl ⟨st, hk⟩
  · rw [Dict.get?_pop] at hk
    split_ifs at hk
    exact hk

theorem World.live_eq {name : String} {r : Record} (h : w.live name = some r) :
    w.records.get? name = some r ∧ r.removed = false := by
  simpa [World.live, Option.filter_eq_some_iff] using h

theorem mem_listing {job : RayJob} (h : job ∈ w.listing) :
    ∃ name r, w.records.get? name = some r ∧ r.removed = false ∧ r.job = job := by
  simp only [World.listing, List.mem_filterMap, Option.map_eq_some_iff] at h
  obtain ⟨name, -, r, hr, rfl⟩ := h
  exact ⟨name, r, (World.live_eq hr).1, (World.live_eq hr).2, rfl⟩

theorem serve_writes {w' : World} {c : Choice} (h : serve w pc c = some (w', a)) :
    Writes w pc w' ∧ Replies w pc w' a := by
  cases pc with
  | lock user key request =>
    cases h
    exact ⟨.same _, .done (by simp)⟩
  | package cluster name put =>
    cases put with
    | true => exact writes h (.write cluster name) (.done (by simp))
    | false => exact reads h (.silent rfl)
  | body | gpus | usage => exact reads h (.done (by simp))
  | before user name sub =>
    simp only [serve] at h
    split at h
    · cases h
      exact ⟨.same _, .silent rfl⟩
    · exact reads h (.silent rfl)
  | post cluster job copies =>
    simp only [serve] at h
    split at h
    · exact reads h (.silent rfl)
    · rename_i hl
      refine writes h (.post cluster job copies (by simpa using hl)) ⟨by simp, ?_, by simp, by simp, by simp⟩
      rintro made ⟨⟩
      exact ⟨cluster, job, copies, rfl, rfl, rfl⟩
  | copy cluster job d more => exact writes h (copies_addCopy cluster job d more) (.done (by simp))
  | find user jobId about =>
    refine reads h ⟨?_, by simp, by simp, by simp, by simp⟩
    rintro jobs ⟨⟩ job hm
    exact (List.mem_filter.mp hm).1
  | copied job d now k =>
    refine reads h ⟨by simp, by simp, by simp, ?_, by simp⟩
    rintro _ _ _ _ state ⟨⟩ ⟨⟩
    rfl
  | idle job k =>
    simp only [serve] at h
    split at h
    · cases h
      exact ⟨.same _, .silent rfl⟩
    · exact reads h (.silent rfl)
  | patch job p next k =>
    simp only [serve] at h
    split at h
    · rename_i hl
      obtain ⟨r, hr⟩ := Option.isSome_iff_exists.mp hl
      have hw : w.patch job.name p = w.put job.name (r.patch p) := by simp [World.patch, hr]
      rw [hw] at h
      refine writes h (.patch job p next k r hr) ⟨by simp, by simp, ?_, by simp, by simp⟩
      rintro _ _ _ _ ⟨⟩ -
      exact ⟨r, hr, rfl⟩
    · exact reads h (.silent rfl)
  | unsuspend name k => exact writes h (copies_unsuspend _ name) (.done (by simp))
  | clean job since now k => exact writes h (.erase _ _) (.done (by simp))
  | delete name k =>
    refine writes h ?_ (.done (by simp))
    unfold World.remove
    split
    · rename_i r hr
      exact .remove name k r hr
    · exact .same _
  | deleteCopy name d k => exact writes h (copies_pop _ _) (.done (by simp))
  | deleteCode name k => exact writes h (.erase _ _) (.done (by simp))
  | list =>
    refine reads h ⟨?_, by simp, by simp, by simp, by simp⟩
    rintro jobs ⟨⟩ job hm
    exact hm
  | jobs now taken =>
    refine reads h ⟨by simp, by simp, by simp, by simp, ?_⟩
    rintro written ⟨⟩
    rfl
  | sweep rest =>
    cases rest with
    | nil => cases h
    | cons name rest => exact writes h (.erase _ _) (.done (by simp))

/-- What the environment does: KubeRay reports, a copying Job ends or goes, or code is
written. -/
inductive Happens (w : World) : World → Prop
  | tick (d : ℕ) : Happens w { w with now := w.now + d }
  | report (name : String) (r r' : Record) (st : Status) (hr : w.records.get? name = some r)
      (hs : r.report st = some r') : Happens w (w.put name r')
  | copyEnds (name : String) (d : Direction) (ok : Bool)
      (hc : w.copies.get? (name, d) = some .running) : Happens w (w.copyEnds name d ok)
  | copyGone (key : String × Direction) : Happens w { w with copies := w.copies.pop key }
  | write (name : String) (r : Record) (hr : w.records.get? name = some r) :
      Happens w (w.write name)

theorem env_happens {w' : World} {e : Move} (h : env w g e = some (w', g')) :
    g' = g ∧ Happens w w' := by
  cases e with
  | tick d =>
    cases h
    exact ⟨rfl, .tick d⟩
  | report name st =>
    obtain ⟨r', hr, heq⟩ := Option.map_eq_some_iff.mp h
    obtain ⟨r, hget, hrep⟩ := Option.bind_eq_some_iff.mp hr
    cases heq
    exact ⟨rfl, .report name r r' st hget hrep⟩
  | copyEnds name d ok =>
    simp only [env] at h
    split_ifs at h with hc
    cases h
    exact ⟨rfl, .copyEnds name d ok hc⟩
  | copyGone name d =>
    cases h
    exact ⟨rfl, .copyGone _⟩
  | write name =>
    simp only [env] at h
    split_ifs at h with hr
    obtain ⟨r, hr⟩ := Option.isSome_iff_exists.mp hr
    cases h
    exact ⟨rfl, .write name r hr⟩

theorem start_cases {call : Call} (h : start w g call = some r) :
    ∃ pc, r.next = some pc ∧ pc.after = none ∧ pc.holds = none ∧ r.events = [] ∧
      r.mem.submitting = g.submitting ∧ r.mem.waiting = g.waiting ∧ r.mem.drawn = g.drawn ∧
      ((∃ user key request, pc = .lock user key request) ∨
        (∃ user jobId about, pc = .find user jobId about) ∨ pc = .list) := by
  cases call with
  | nrp user key request =>
    cases h
    exact ⟨_, rfl, rfl, rfl, rfl, rfl, rfl, rfl, .inl ⟨user, key, request, rfl⟩⟩
  | about user jobId about =>
    cases h
    exact ⟨_, rfl, rfl, rfl, rfl, rfl, rfl, rfl, .inr (.inl ⟨user, jobId, about, rfl⟩)⟩
  | reap =>
    simp only [start] at h
    split_ifs at h
    cases h
    exact ⟨_, rfl, rfl, rfl, rfl, rfl, rfl, rfl, .inr (.inr rfl)⟩

def locked (g : Gateway) (cluster : String) : Bool := (g.submitting.get? cluster).isSome

theorem stopNrp_holds (job : RayJob) (why : String) (k : After) :
    (stopNrp w job why k).holds = k.cluster := by
  unfold stopNrp
  split <;> rfl

theorem Advances.holds {job : RayJob} {k : After} (h : Advances w g job k pc) :
    pc.holds = k.cluster := by
  cases h with
  | late => exact stopNrp_holds job _ k
  | done _ _ hd => cases hd <;> rfl
  | _ => rfl

theorem Returns.holds {p : Pass} (h : Returns w g p pc) : pc.holds = none := by
  cases h with
  | next job rest hs _ ha => exact ha.holds
  | jobs => rfl

theorem Creates.holds {cluster : String} {job : RayJob} (h : Creates pc a cluster job) :
    pc.holds = some cluster := by cases h <;> rfl

/-- A coroutine keeps the lock it holds until it ends, and takes one that is free. -/
theorem Leads.locks (h : Leads w g pc a g' pc') :
    (∃ cluster name, pc.holds = none ∧ pc'.holds = some cluster ∧
      g.submitting.get? cluster = none ∧ g'.submitting = g.submitting.set cluster name) ∨
    (pc'.holds = pc.holds ∧ g'.submitting = g.submitting) := by
  cases h with
  | package user key name put g' hfree hn =>
    refine .inl ⟨user.cluster, name, rfl, rfl, hfree, ?_⟩
    cases hn <;> rfl
  | body user key name sub g' hfree hn =>
    refine .inl ⟨user.cluster, name, rfl, rfl, hfree, ?_⟩
    cases hn <;> rfl
  | copy _ _ cluster job d more hc => exact .inr ⟨hc.holds.symm, rfl⟩
  | created _ _ cluster job hc _ ha => exact .inr ⟨ha.holds.trans hc.holds.symm, rfl⟩
  | uncopied | stops | uninput | idle => exact .inr ⟨stopNrp_holds _ _ _, rfl⟩
  | done _ _ _ _ _ _ _ _ ha => exact .inr ⟨by cases ha <;> rfl, rfl⟩
  | pass _ _ _ hr => exact .inr ⟨hr.holds, rfl⟩
  | returns _ _ _ hk _ _ hg _ hr =>
    exact .inr ⟨hr.holds.trans (Pc.holds_after hk).symm, by rw [hg]⟩
  | _ => exact .inr ⟨rfl, rfl⟩

def Locked : St → Prop := Exclusive locked fun pc cluster => pc.holds = some cluster

theorem resume_locks (h : resume w g pc a = some r) :
    Locks locked (fun pc cluster => pc.holds = some cluster) g (fun c => pc.holds = some c) r := by
  have hr := resume_resumes h
  cases hn : r.next with
  | none =>
    obtain ⟨hs | ⟨cluster, hh, hs⟩, -, -⟩ := hr.quits hn
    · exact .of_eq (funext fun c => by simp [locked, hs]) (by simp [hn])
    · refine ⟨fun c hc hf => ?_, by simp [hn], by simp [hn]⟩
      have hne : c ≠ cluster := fun heq => hc (heq ▸ hh)
      simpa [locked, hs, Dict.get?_pop_ne _ hne] using hf
  | some pc' =>
    rcases (hr.next pc' hn).locks with ⟨cluster, name, hh, hh', hfree, hs⟩ | ⟨hh, hs⟩
    · refine ⟨fun c _ hf => ?_, fun c x hx hc _ => ?_, by simp [hh]⟩
      · have hne : c ≠ cluster := by
          rintro rfl
          simp [locked, hfree] at hf
        simpa [locked, hs, Dict.get?_set_ne _ _ hne] using hf
      · obtain rfl : x = pc' := Option.some.inj (hx.symm.trans hn)
        obtain rfl : cluster = c := Option.some.inj (hh'.symm.trans hc)
        simp [locked, hfree, hs]
    · refine .of_eq (funext fun c => by simp [locked, hs]) fun c x hx hc => ?_
      obtain rfl : x = pc' := Option.some.inj (hx.symm.trans hn)
      exact hh.symm.trans hc

theorem locked_step {s s' : St} {act : Act} (h : Locked s) (hs : program.step s act = some s') :
    Locked s' := by
  refine Exclusive.step (P := program) (fun w g i r hr => ?_) (fun w g pc a r hr => ?_)
    (fun w g e w' g' he c hc => ?_) h hs
  · obtain ⟨pc, hn, -, hh, -, hsub, -⟩ := start_cases (w := w) hr
    refine .of_eq (funext fun c => by simp [locked, hsub]) fun c x hx hc => ?_
    obtain rfl : x = pc := Option.some.inj (hx.symm.trans hn)
    simp [hh] at hc
  · exact resume_locks hr
  · rw [(env_happens he).1]
    exact hc

end PurdueAF.RayNrp
