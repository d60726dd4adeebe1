import PurdueAF.Coroutine
import PurdueAF.RayConfig

/-!
# Jobs on NRP

The gateway's coroutines that take a job's code and submission, move its RayJob on from
stage to stage, stop it, delete it and sweep the bucket, as a program over NRP's API, the
Jobs on Geddes that copy a job's data, and the bucket: one suspension point for each
`await`. The clock is one for `time.monotonic` and `time.time`.
-/
namespace PurdueAF.RayNrp
open Ray RayNaming Coroutine

def nrpMinUtilization : ℚ := 40

inductive Stage
  | inputs | placing | running | outputs | done
  deriving DecidableEq, Repr

/-- How far on a stage is. -/
def Stage.rank : Stage → ℕ
  | .inputs | .placing => 0
  | .running => 1
  | .outputs => 2
  | .done => 3

/-- OUTPUT_ANNOTATION: absent or empty, "true", or OUTPUT_FAILED. -/
inductive Output
  | no | asked | failed
  deriving DecidableEq, Repr

inductive JobStatus
  | new | pending | running | succeeded | failed | stopped
  deriving DecidableEq, Repr

inductive Deployment
  | new | initializing | running | complete | failed | suspending | suspended | retrying | waiting
  deriving DecidableEq, Repr

/-- What KubeRay reports of a RayJob; `startTime` is that of `rayJobInfo`. -/
structure Status where
  jobStatus : JobStatus
  deployment : Deployment
  startTime : Option ℤ
  cluster : String
  deriving DecidableEq, Repr

def Status.begun (st : Status) : Bool :=
  st.startTime.isSome || st.jobStatus = .running || st.jobStatus = .succeeded

structure RayJob where
  name : String
  owner : String
  jobId : String
  created : ℤ
  stage : Option Stage
  since : Option ℤ
  output : Output
  stopped : Option String
  suspend : Bool
  status : Status
  deriving DecidableEq, Repr

/-- `job_ended`. -/
def RayJob.ended (j : RayJob) : Bool :=
  j.status.jobStatus = .succeeded || j.status.jobStatus = .failed || j.status.jobStatus = .stopped

/-- A job from before its progress was kept runs. -/
def RayJob.at (j : RayJob) : Stage := j.stage.getD .running

/-- A merge patch: what it names is set, and the rest stays. -/
structure Patch where
  stage : Option Stage := none
  since : Option ℤ := none
  output : Option Output := none
  stopped : Option String := none
  suspend : Option Bool := none
  deriving DecidableEq, Repr

def Patch.apply (p : Patch) (j : RayJob) : RayJob :=
  { j with
    stage := p.stage.or j.stage
    since := p.since.or j.since
    output := p.output.getD j.output
    stopped := p.stopped.or j.stopped
    suspend := p.suspend.getD j.suspend }

/-- A RayJob with a history no code reads: whether it ever began to run, whether its `-out`
Job succeeded, the first time it was done since, and whether it was deleted. -/
structure Record where
  job : RayJob
  ran : Bool
  back : Bool
  doneAt : Option ℤ
  removed : Bool
  deriving DecidableEq, Repr

/-- Which of a job's copies: its inputs to NRP (`in`), or its outputs back (`out`). -/
inductive Direction
  | into | out
  deriving DecidableEq, Repr

inductive CopyState
  | suspended | running | succeeded | failed
  deriving DecidableEq, Repr

/-- The bucket says when a job's newest object was written. -/
structure World where
  now : ℤ
  records : Dict String Record
  copies : Dict (String × Direction) CopyState
  bucket : Dict String ℤ

/-- The gateway's memory. A user's lock is taken while `submitting` has their cluster, and
says for which RayJob; `drawn` is history: the names that were ever used. -/
structure Gateway where
  waiting : Dict String (String × ℤ)
  submitting : Dict String String
  cleaned : List String
  reaping : Bool
  drawn : List String

/-- A submission: the ID it asks for or draws, and whether it names inputs and an output. -/
structure Submission where
  jobId : String
  inputs : Bool
  output : Bool
  deriving DecidableEq, Repr

inductive Request
  | package (put : Bool)
  | submit (sub : Submission)
  deriving DecidableEq, Repr

inductive About
  | stop | delete
  deriving DecidableEq, Repr

/-- What comes in: a call of `nrp_submission`, with a key to draw a name from; a call about
a job; and the reaper's pass. -/
inductive Call
  | nrp (user : User) (key : String) (request : Request)
  | about (user : User) (jobId : String) (about : About)
  | reap
  deriving DecidableEq, Repr

/-- A pass: when it began, its listing, and the jobs of it still to see. -/
structure Pass where
  now : ℤ
  listed : List RayJob
  rest : List RayJob
  deriving DecidableEq, Repr

/-- Where `advance_nrp`, `stop_nrp` and `delete_nrp` return to: a submission under its
user's lock, with the refusal it then ends in, a call about a job, or a pass. -/
inductive After
  | submission (cluster : String) (refusal : Option Refused)
  | about
  | pass (p : Pass)
  deriving DecidableEq, Repr

/-- What a PATCH leads to: `stop_nrp` sets the stage, `advance_nrp` goes on, or it is over. -/
inductive Next
  | stop (why : String)
  | advance (stage : Stage) (since now : ℤ)
  | finished
  deriving DecidableEq, Repr

/-- Where a coroutine is suspended, with what it keeps: the RayJobs among it are copies, as
they were when they were listed or created. -/
inductive Pc
  | lock (user : User) (key : String) (request : Request)
  | package (cluster name : String) (put : Bool)
  | body (user : User) (name : String) (sub : Submission)
  | before (user : User) (name : String) (sub : Submission)
  | gpus (user : User) (name : String) (sub : Submission)
  | post (cluster : String) (job : RayJob) (copies : List Direction)
  | copy (cluster : String) (job : RayJob) (direction : Direction) (more : List Direction)
  | find (user : User) (jobId : String) (about : About)
  | copied (job : RayJob) (direction : Direction) (now : ℤ) (k : After)
  | idle (job : RayJob) (k : After)
  | patch (job : RayJob) (p : Patch) (next : Next) (k : After)
  | unsuspend (name : String) (k : After)
  | clean (job : RayJob) (since now : ℤ) (k : After)
  | delete (name : String) (k : After)
  | deleteCopy (name : String) (direction : Direction) (k : After)
  | deleteCode (name : String) (k : After)
  | list
  | usage (jobs : List RayJob)
  | jobs (now : ℤ) (taken : List String)
  | sweep (rest : List String)
  deriving DecidableEq, Repr

/-- `failed` is an answer whose status is refused, with that status or its message, and
`error` is no answer at all. -/
inductive Answer
  | done
  | failed (said : String)
  | error
  | bool (answer : Bool)
  | created (job : RayJob)
  | listing (jobs : List RayJob)
  | copy (state : Option CopyState)
  | samples (busy : List ℚ)
  | newest (written : Dict String ℤ)
  deriving DecidableEq, Repr

/-- How the world answers: as asked, with a failing status, not at all, or not at all
although the call took effect; whether a job of the ID is known and what Prometheus
reports are theirs to say. -/
inductive Choice
  | ok
  | fail (said : String)
  | error
  | lost
  | bool (answer : Bool)
  | samples (busy : List ℚ)
  deriving DecidableEq, Repr

/-- Why a job's code is deleted: it is done, its record was kept long enough, its user
deletes it, or no job took it. -/
inductive Cause
  | clean | record | byUser | orphan
  deriving DecidableEq, Repr

/-- `deletes` is a call of `bucket.delete_prefix(code_prefix(name))`. -/
inductive Event
  | deletes (name : String) (cause : Cause)
  | refused (why : Refused)
  | raised
  deriving DecidableEq, Repr

inductive Move
  | tick (seconds : ℕ)
  | report (name : String) (status : Status)
  | copyEnds (name : String) (direction : Direction) (succeeded : Bool)
  | copyGone (name : String) (direction : Direction)
  | write (name : String)
  deriving DecidableEq, Repr

def World.live (w : World) (name : String) : Option Record :=
  (w.records.get? name).filter fun r => !r.removed

def World.listing (w : World) : List RayJob :=
  (w.records.map Prod.fst).filterMap fun name => (w.live name).map Record.job

def World.put (w : World) (name : String) (r : Record) : World :=
  { w with records := w.records.set name r }

def Record.patch (p : Patch) (r : Record) : Record :=
  { r with
    job := p.apply r.job
    doneAt := if p.stage = some .done then r.doneAt.merge min p.since else r.doneAt }

def World.patch (w : World) (name : String) (p : Patch) : World :=
  match w.live name with
  | some r => w.put name (r.patch p)
  | none => w

def World.remove (w : World) (name : String) : World :=
  match w.live name with
  | some r => w.put name { r with removed := true }
  | none => w

def World.write (w : World) (name : String) : World :=
  { w with bucket := w.bucket.set name w.now }

def World.erase (w : World) (name : String) : World :=
  { w with bucket := w.bucket.pop name }

def World.post (w : World) (job : RayJob) : World :=
  w.put job.name ⟨{ job with created := w.now }, false, false, none, false⟩

def reading (answer : Answer) : Choice → Option Answer
  | .ok => some answer
  | .fail said => some (.failed said)
  | .error => some .error
  | _ => none

/-- A call that changes the world to `w'`, unless it fails. -/
def writing (w w' : World) (answer : Answer) : Choice → Option (World × Answer)
  | .ok => some (w', answer)
  | .lost => some (w', .error)
  | .fail said => some (w, .failed said)
  | .error => some (w, .error)
  | _ => none

/-- As `stage_job` makes it: the copy back waits until the job ends. -/
def Direction.made : Direction → CopyState
  | .into => .running
  | .out => .suspended

def World.addCopy (w : World) (name : String) (direction : Direction) : World :=
  { w with copies := w.copies.set (name, direction) direction.made }

def World.unsuspend (w : World) (name : String) : World :=
  match w.copies.get? (name, .out) with
  | some .suspended => { w with copies := w.copies.set (name, .out) .running }
  | _ => w

def serve (w : World) (pc : Pc) (c : Choice) : Option (World × Answer) :=
  match pc with
  | .lock _ _ _ => some (w, .done)
  | .package _ name put =>
    if put then writing w (w.write name) .done c
    else (reading (.bool (w.bucket.get? name).isSome) c).map (w, ·)
  | .body _ _ _ | .gpus _ _ _ | .usage _ => (reading .done c).map (w, ·)
  | .before _ _ _ =>
    match c with
    | .bool b => some (w, .bool b)
    | _ => (reading .error c).map (w, ·)
  | .post _ job _ =>
    if (w.live job.name).isSome then (reading (.failed "409") c).map (w, ·)
    else writing w (w.post job) (.created { job with created := w.now }) c
  | .copy _ job direction _ => writing w (w.addCopy job.name direction) .done c
  | .find user _ _ =>
    (reading (.listing (w.listing.filter fun j => j.owner = ownerKey user.cluster user.owner)) c).map
      (w, ·)
  | .copied job direction _ _ =>
    (reading (.copy (w.copies.get? (job.name, direction))) c).map (w, ·)
  | .idle _ _ =>
    match c with
    | .samples busy => some (w, .samples busy)
    | _ => (reading .error c).map (w, ·)
  | .patch job p _ _ =>
    if (w.live job.name).isSome then writing w (w.patch job.name p) .done c
    else (reading (.failed "404") c).map (w, ·)
  | .unsuspend name _ => writing w (w.unsuspend name) .done c
  | .clean job _ _ _ => writing w (w.erase job.name) .done c
  | .delete name _ => writing w (w.remove name) .done c
  | .deleteCopy name direction _ =>
    writing w { w with copies := w.copies.pop (name, direction) } .done c
  | .deleteCode name _ => writing w (w.erase name) .done c
  | .list => (reading (.listing w.listing) c).map (w, ·)
  | .jobs _ _ => (reading (.newest w.bucket) c).map (w, ·)
  | .sweep (name :: _) => writing w (w.erase name) .done c
  | .sweep [] => none

abbrev Step := Ran Gateway Pc Event

def awaiting (g : Gateway) (pc : Pc) : Step := ⟨g, some pc, []⟩

def release (g : Gateway) (cluster : String) : Gateway :=
  { g with submitting := g.submitting.pop cluster }

/-- A submission ends, by a refusal or an error, and gives up its lock. -/
def ends (g : Gateway) (cluster : String) (event : Event) : Step :=
  ⟨release g cluster, none, [event]⟩

def stoppedByUser : String := "The job was stopped."

def stoppedInputs : String := "Copying its inputs to NRP failed: is it a directory you can read?"

def stoppedNotStarted : String := "Its Ray cluster on NRP did not start in time."

/-- `:.0f` of a percentage, a half to the even side. -/
def percent (q : ℚ) : ℤ :=
  let below := q.num / q.den
  if 2 * (q - below) < 1 ∨ (2 * (q - below) = 1 ∧ below % 2 = 0) then below else below + 1

def stoppedIdle (busy : ℚ) : String :=
  "Its idlest GPU was " ++ toString (percent busy) ++ "% busy over the last " ++
    toString (nrpUtilizationWindowS / 60) ++ " minutes, and NRP asks each GPU for " ++
    toString (percent nrpMinUtilization) ++
    "%: keep them busier, with more data loaders or larger batches, or run it at Purdue."

def resumePatch (now : ℤ) : Patch :=
  { stage := some .running, since := some now, suspend := some false }

def stagePatch (stage : Stage) (now : ℤ) : Patch := { stage := some stage, since := some now }

/-- A job that never started wrote nothing to copy back. -/
def stopPatch (job : RayJob) (why : String) (now : ℤ) : Patch :=
  let wrote := job.output = .asked && job.status.startTime.isSome
  { stagePatch (if wrote then .outputs else .done) now with stopped := some why }

def outputPatch (copied : Option CopyState) (now : ℤ) : Patch :=
  { stagePatch .done now with
    output := if copied = some .succeeded then none else some .failed }

def stopNrp (w : World) (job : RayJob) (why : String) (k : After) : Pc :=
  if job.ended then .patch job (stopPatch job why w.now) .finished k
  else .patch job { suspend := some true } (.stop why) k

/-- Whether `idle_utilization` asks NRP's Prometheus about the job. -/
def watched (job : RayJob) (now : ℤ) : Bool :=
  job.status.jobStatus = .running && job.status.cluster ≠ "" &&
    job.status.startTime.any fun started => decide (nrpUtilizationWindowS ≤ now - started)

def notDeployed (job : RayJob) : Bool :=
  job.status.deployment = .new || job.status.deployment = .initializing

/-- How busy the idlest GPU was, if under NRP's ask. -/
def idleUtilization (busy : List ℚ) : Option ℚ := busy.min?.filter fun q => q < nrpMinUtilization

/-- Outputs that did not come back stay until the record goes. -/
def atDone (g : Gateway) (job : RayJob) (since now : ℤ) (k : After) : Option (Pc × List Event) :=
  if job.name ∉ g.cleaned ∧ job.output ≠ .failed then
    some (.clean job since now k, [.deletes job.name .clean])
  else if jobRecordS ≤ now - since then some (.delete job.name k, [])
  else none

/-- `advance_nrp` as far as its first await, if it has one. -/
def advanceNrp (w : World) (g : Gateway) (job : RayJob) (k : After) : Option (Pc × List Event) :=
  let since := job.since.getD job.created
  match job.at with
  | .inputs => some (.copied job .into w.now k, [])
  -- Left suspended by a gateway that placed workers itself.
  | .placing => some (.patch job (resumePatch w.now) .finished k, [])
  | .running =>
    if job.ended then
      let after := if job.output = .asked then .outputs else .done
      some (.patch job (stagePatch after w.now) (.advance after since w.now) k, [])
    else if notDeployed job && decide (nrpStartTimeoutS ≤ w.now - since) then
      some (stopNrp w job stoppedNotStarted k, [])
    else if watched job w.now then some (.idle job k, [])
    else none
  | .outputs => some (.copied job .out w.now k, [])
  | .done => atDone g job since w.now k

/-- `taken`: the jobs of the listing, and the code that still waits for its submission. -/
def taken (g : Gateway) (listed : List RayJob) : List String :=
  listed.map RayJob.name ++ g.waiting.map fun e => e.2.1

/-- The next job of a pass; after the last one, the bucket. -/
def nextJob (w : World) (g : Gateway) (now : ℤ) (listed : List RayJob) : List RayJob → Step
  | [] => awaiting g (.jobs now (taken g listed))
  | job :: rest =>
    match advanceNrp w g job (.pass ⟨now, listed, rest⟩) with
    | some (pc, events) => ⟨g, some pc, events⟩
    | none => nextJob w g now listed rest

def returned (w : World) (g : Gateway) : After → Step
  | .submission cluster none => ⟨release g cluster, none, []⟩
  | .submission cluster (some why) => ends g cluster (.refused why)
  | .about => ⟨g, none, []⟩
  | .pass p => nextJob w g p.now p.listed p.rest

/-- A refusal or an error; a pass logs it and goes on. -/
def failed (w : World) (g : Gateway) (event : Event) : After → Step
  | .submission cluster _ => ends g cluster event
  | .about => ⟨g, none, [event]⟩
  | .pass p => nextJob w g p.now p.listed p.rest

def After.cause : After → Cause
  | .about => .byUser
  | _ => .record

/-- Goes on where `advance_nrp` left off, which may have nothing more to do. -/
def continued (w : World) (g : Gateway) (k : After) : Option (Pc × List Event) → Step
  | some (pc, events) => ⟨g, some pc, events⟩
  | none => returned w g k

def unavailable (text : String) : Event := .refused ⟨.unavailable, text⟩

/-- The names `advance_nrp` tells the Jobs on Geddes by. -/
def copyName (name : String) : Direction → String
  | .into => name ++ "-in"
  | .out => name ++ "-out"

/-- The waiting name of the user's, unless it is too old. -/
def waitingName (w : World) (g : Gateway) (cluster : String) : Option String :=
  (g.waiting.get? cluster).bind fun e => if startTimeoutS < w.now - e.2 then none else some e.1

/-- `nrp_submission` once it holds the lock and has a name. -/
def entered (w : World) (g : Gateway) (user : User) (name : String) (request : Request) : Step :=
  let g := { g with submitting := g.submitting.set user.cluster name }
  match request with
  | .package put =>
    awaiting { g with waiting := g.waiting.set user.cluster (name, w.now) }
      (.package user.cluster name put)
  | .submit sub => awaiting g (.body user name sub)

/-- The next of the Jobs that copy the job's data, or the submission's own `advance_nrp`. -/
def nextCopy (w : World) (g : Gateway) (cluster : String) (job : RayJob) : List Direction → Step
  | direction :: more => awaiting g (.copy cluster job direction more)
  | [] => continued w g (.submission cluster none) (advanceNrp w g job (.submission cluster none))

def buildJob (user : User) (name : String) (sub : Submission) (now : ℤ) : RayJob where
  name := name
  owner := ownerKey user.cluster user.owner
  jobId := sub.jobId
  created := now
  stage := some (if sub.inputs then .inputs else .running)
  since := some now
  output := if sub.output then .asked else .no
  stopped := none
  suspend := sub.inputs
  status := ⟨.new, .new, none, ""⟩

def copiesOf (sub : Submission) : List Direction :=
  (if sub.inputs then [.into] else []) ++ if sub.output then [.out] else []

/-- What `advance_nrp` does once it knows where a copy is. -/
def resumeCopied (w : World) (g : Gateway) (job : RayJob) (now : ℤ) (k : After)
    (state : Option CopyState) : Direction → Step
  | .into =>
    match state with
    | none | some .failed => awaiting g (stopNrp w job stoppedInputs k)
    | some .succeeded => awaiting g (.patch job (resumePatch w.now) .finished k)
    | _ => returned w g k
  | .out =>
    match state with
    | some .suspended => awaiting g (.unsuspend job.name k)
    | some .running => returned w g k
    | state => awaiting g (.patch job (outputPatch state w.now) (.advance .done now now) k)

def resumePatched (w : World) (g : Gateway) (job : RayJob) (p : Patch) (k : After) : Next → Step
  | .stop why => awaiting g (.patch job (stopPatch job why w.now) .finished k)
  | .advance .outputs _ now => awaiting g (.copied (p.apply job) .out now k)
  | .advance _ since now => continued w g k (atDone g (p.apply job) since now k)
  | .finished => returned w g k

/-- `nrp_recorded`: DELETE takes a job without a stage for one that is done. -/
def nrpRecorded (w : World) (g : Gateway) (job : RayJob) : About → Step
  | .stop =>
    if job.ended || job.stopped.isSome then ⟨g, none, []⟩
    else awaiting g (stopNrp w job stoppedByUser .about)
  | .delete =>
    if job.stage.getD .done ≠ .done then
      ⟨g, none, [.refused ⟨.invalidArgument,
        "The job has not ended, or its outputs are being copied back: stop it, or wait"⟩]⟩
    else awaiting g (.delete job.name .about)

def endPass (g : Gateway) : Step := ⟨{ g with reaping := false }, none, []⟩

def nextSweep (g : Gateway) : List String → Step
  | [] => endPass g
  | name :: rest => ⟨g, some (.sweep (name :: rest)), [.deletes name .orphan]⟩

/-- The code that no job took. -/
def orphans (now : ℤ) (taken : List String) (newest : Dict String ℤ) : List String :=
  (newest.filter fun e => e.1 ∉ taken && decide (2 * startTimeoutS ≤ now - e.2)).map Prod.fst

def start (_ : World) (g : Gateway) : Call → Option Step
  | .nrp user key request => some (awaiting g (.lock user key request))
  | .about user jobId about => some (awaiting g (.find user jobId about))
  | .reap => if g.reaping then none else some (awaiting { g with reaping := true } .list)

def resume (w : World) (g : Gateway) (pc : Pc) (a : Answer) : Option Step :=
  match pc, a with
  | .lock user key request, .done =>
    if (g.submitting.get? user.cluster).isSome then none
    else
      match waitingName w g user.cluster with
      | some name => some (entered w g user name request)
      | none =>
        let name := jobName user.owner user.cluster key
        if name ∈ g.drawn then none
        else some (entered w { g with drawn := name :: g.drawn } user name request)
  | .package cluster _ _, .failed _ | .package cluster _ _, .error =>
    some (ends g cluster .raised)
  | .package cluster _ _, _ => some ⟨release g cluster, none, []⟩
  | .body user name sub, .done =>
    some (awaiting { g with waiting := g.waiting.pop user.cluster } (.before user name sub))
  | .body user _ _, .failed said => some (ends g user.cluster (.refused ⟨.invalidArgument, said⟩))
  | .body user _ _, _ => some (ends g user.cluster .raised)
  | .before user name sub, .bool known =>
    if known then some (ends g user.cluster (.refused ⟨.failedPrecondition,
      "You have a job " ++ sub.jobId ++ " already: submit it under another ID, or without one."⟩))
    else some (awaiting g (.gpus user name sub))
  | .before user _ _, .failed said => some (ends g user.cluster (unavailable said))
  | .before user _ _, _ => some (ends g user.cluster .raised)
  | .gpus user name sub, .done =>
    some (awaiting g (.post user.cluster (buildJob user name sub w.now) (copiesOf sub)))
  | .gpus user _ _, .failed said => some (ends g user.cluster (unavailable said))
  | .gpus user _ _, _ => some (ends g user.cluster .raised)
  | .post cluster _ copies, .created job => some (nextCopy w g cluster job copies)
  | .post cluster _ _, .failed said =>
    some (ends g cluster (unavailable ("NRP did not take your job: " ++ said)))
  | .post cluster _ _, _ => some (ends g cluster .raised)
  | .copy cluster job _ more, .done => some (nextCopy w g cluster job more)
  | .copy cluster job _ _, .failed said =>
    some (awaiting g (stopNrp w job stoppedInputs (.submission cluster (some ⟨.unavailable,
      "Could not create the Job that copies your job's data: " ++ said⟩))))
  | .copy cluster _ _ _, _ => some (ends g cluster .raised)
  | .find _ jobId about, .listing jobs =>
    match jobs.find? fun j => j.jobId = jobId with
    | some job => some (nrpRecorded w g job about)
    | none => some ⟨g, none, []⟩
  -- `nrp_jobs` has none if NRP does not answer, and the call is not about one of them.
  | .find _ _ _, _ => some ⟨g, none, []⟩
  | .copied job direction now k, .copy state => some (resumeCopied w g job now k state direction)
  | .copied job direction _ k, .failed said =>
    some (failed w g (unavailable ("Kubernetes answered HTTP " ++ said ++ " for the Job " ++
      copyName job.name direction ++ ".")) k)
  | .copied _ _ _ k, _ => some (failed w g .raised k)
  | .idle job k, .samples busy =>
    match idleUtilization busy with
    | some q => some (awaiting g (stopNrp w job (stoppedIdle q) k))
    | none => some (returned w g k)
  | .idle _ k, _ => some (returned w g k)
  | .patch job p next k, .done => some (resumePatched w g job p k next)
  | .patch _ _ _ k, .failed said =>
    some (failed w g (unavailable ("NRP answered HTTP " ++ said ++ " changing the Ray job.")) k)
  | .patch _ _ _ k, _ => some (failed w g .raised k)
  | .unsuspend _ k, .error => some (failed w g .raised k)
  | .unsuspend _ k, _ => some (returned w g k)
  | .clean job since now k, .done =>
    let g := { g with cleaned := job.name :: g.cleaned }
    if jobRecordS ≤ now - since then some (awaiting g (.delete job.name k))
    else some (returned w g k)
  | .clean _ _ _ k, _ => some (failed w g .raised k)
  -- Whatever status a deletion is answered with, `delete_nrp` goes on.
  | .delete _ k, .error => some (failed w g .raised k)
  | .delete name k, _ => some (awaiting g (.deleteCopy name .into k))
  | .deleteCopy _ _ k, .error => some (failed w g .raised k)
  | .deleteCopy name .into k, _ => some (awaiting g (.deleteCopy name .out k))
  | .deleteCopy name .out k, _ =>
    some ⟨{ g with cleaned := g.cleaned.filter (· ≠ name) }, some (.deleteCode name k),
      [.deletes name k.cause]⟩
  | .deleteCode _ k, .done => some (returned w g k)
  | .deleteCode _ k, _ => some (failed w g .raised k)
  | .list, .listing jobs => some (awaiting g (.usage jobs))
  | .list, _ => some (endPass g)
  | .usage jobs, _ => some (nextJob w g w.now jobs jobs)
  | .jobs now taken, .newest written => some (nextSweep g (orphans now taken written))
  | .jobs _ _, _ => some (endPass g)
  | .sweep (_ :: rest), .done => some (nextSweep g rest)
  | .sweep _, _ => some (endPass g)
  | _, _ => none

/-- KubeRay's reports: how a job ended is final, and a suspended job does not begin to run. -/
def Record.report (r : Record) (st : Status) : Option Record :=
  if r.removed || (r.job.ended && st.jobStatus ≠ r.job.status.jobStatus) ||
      (st.begun && !r.ran && (r.job.suspend || r.job.ended)) then none
  else some { r with job := { r.job with status := st }, ran := r.ran || st.begun }

/-- A copying Job that ends; outputs are back once the one that copies them succeeds. -/
def World.copyEnds (w : World) (name : String) (direction : Direction) (ok : Bool) : World :=
  let w := { w with copies := w.copies.set (name, direction) (if ok then .succeeded else .failed) }
  match w.records.get? name with
  | some r => if ok && direction = .out then w.put name { r with back := true } else w
  | none => w

def env (w : World) (g : Gateway) : Move → Option (World × Gateway)
  | .tick d => some ({ w with now := w.now + d }, g)
  | .report name st =>
    ((w.records.get? name).bind fun r => r.report st).map fun r => (w.put name r, g)
  | .copyEnds name direction ok =>
    if w.copies.get? (name, direction) = some .running then some (w.copyEnds name direction ok, g)
    else none
  | .copyGone name direction => some ({ w with copies := w.copies.pop (name, direction) }, g)
  | .write name => if (w.records.get? name).isSome then some (w.write name, g) else none

def program : Program World Gateway Pc Answer Call Event Choice Move :=
  ⟨start, serve, resume, env⟩

abbrev St := State World Gateway Pc Answer
abbrev Act := Action Call Choice Move

/-- A RayJob that is there already, as earlier gateways left it or from before its progress was
kept, with its copying Jobs: what is past its run has ended or was stopped, and what is done
lost nothing. A removed one may have left its copying Jobs and its code. -/
structure Old where
  record : Record
  into : Option CopyState
  out : Option CopyState
  ran : record.job.status.begun = true → record.ran = true
  ended : 2 ≤ record.job.at.rank →
    (record.job.ended = true ∨ record.job.stopped.isSome = true) ∧
      (record.job.suspend = true ∨ record.job.ended = true)
  stopped : record.job.stopped.isSome = true → 2 ≤ record.job.at.rank
  asked : record.job.at = .outputs → record.job.output = .asked
  failed : record.job.output = .failed → record.job.at = .done
  returned : record.job.at = .done →
    (record.job.output = .no ∨ record.ran = false ∨ record.back = true) ∨
      record.job.output = .failed
  since : record.job.at = .done →
    ∃ t u, record.doneAt = some t ∧ record.job.since = some u ∧ t ≤ u
  back : out = some .succeeded → record.back = true

def Old.name (o : Old) : String := o.record.job.name

def Old.copies (o : Old) : Dict (String × Direction) CopyState :=
  (o.into.map fun st => ((o.name, .into), st)).toList ++
    (o.out.map fun st => ((o.name, .out), st)).toList

/-- What a gateway finds on NRP and in the bucket when it starts. -/
structure Standing where
  now : ℤ
  jobs : List Old
  bucket : Dict String ℤ
  names : (jobs.map Old.name).Nodup

def initial (st : Standing) : St where
  world := ⟨st.now, st.jobs.map fun o => (o.name, o.record), st.jobs.flatMap Old.copies, st.bucket⟩
  mem := ⟨[], [], [], false, st.jobs.map Old.name ++ st.bucket.map Prod.fst⟩
  threads := []

def nothing : Standing := ⟨0, [], [], List.nodup_nil⟩

/-- The awaits of a coroutine answered one after the other, each as chosen. -/
def answers (t : ℕ) (choices : List Choice) : List Act :=
  choices.flatMap fun c => [.serve t c, .resume t]

def hubUser : User := { name := "alice", account := "alice", uid := 1, gid := 1 }

def hubJob (key : String) : String := jobName hubUser.owner hubUser.cluster key

/-- A submission as far as its RayJob's creation. -/
def submitting (t : ℕ) (key : String) (sub : Submission) : List Act :=
  .call (.nrp hubUser key (.submit sub)) :: answers t [.ok, .ok, .bool false, .ok, .ok]

end PurdueAF.RayNrp
