import PurdueAF.RayNrp
import PurdueAF.RayPaths

/-!
# Submissions of Ray jobs, and the reaper of their RayJobs

The gateway's coroutines that take a job's submission and the uploads before it, at Purdue
or on NRP, that stop or delete a user's job, and the reaper's pass over the RayJobs, as a
program over the Kubernetes API of both sites and the heads of the RayJobs' clusters: one
suspension point for each `await`. What a job on NRP does once it is created is in `RayNrp`.
The clock is one for `time.monotonic` and `time.time`.
-/
namespace PurdueAF.RaySubmissions
open Ray RayNaming Coroutine
open RayNrp (JobStatus)

inductive Site
  | purdue | nrp
  deriving DecidableEq, Repr

/-- Whose a RayJob is: its cluster's name, and its owner as `cluster_owner` reads it. -/
abbrev Owner := String × String

/-- `head` is `status.rayClusterName`, and a RayJob whose job KubeRay does not follow yet has
the status `new`. -/
structure RayJob where
  owner : Owner
  jobId : Option String
  created : ℤ
  deleting : Bool
  head : Option String
  status : JobStatus
  endTime : Option ℤ
  deriving DecidableEq, Repr

/-- `job_ended`, and the states in which a head says that a job ended. -/
def ended : JobStatus → Bool
  | .succeeded | .failed | .stopped => true
  | _ => false

abbrev Key := Site × String

/-- A call that changes a RayJob: its creation, the jobId it is given, its deletion. -/
inductive Write
  | create (key : Key) (job : RayJob)
  | give (name jobId : String)
  | delete (name : String)
  deriving DecidableEq, Repr

/-- The RayJobs of both sites; the calls that were not answered and may take effect yet; and
the RayClusters that are live, with the jobs their heads know. -/
structure World where
  now : ℤ
  jobs : Dict Key RayJob
  late : List Write
  heads : Dict String (Dict String JobStatus)

/-- A RayJob whose head is up and waits for its job. -/
structure Waiting where
  name : String
  head : String
  shape : Shape
  since : ℤ
  deriving DecidableEq, Repr

/-- The gateway's memory; `nrp` says whether it has NRP's kubeconfig. The rest is history no
code reads: whose each name is that was drawn for a RayJob, the RayJobs at Purdue a PATCH of
a jobId was sent to, and those a submission took that neither failed nor was deleted by its
user. -/
structure Gateway where
  nrp : Bool
  waiting : Dict String Waiting
  nrpWaiting : Dict String (String × ℤ)
  submitting : List String
  reaping : Bool
  drawn : Dict String Owner
  given : List String
  serving : List String

/-- A submission's body: the ID it names, what is drawn for it if it names none, and whether
`with_env_vars` raises on its runtime environment. -/
structure Submission where
  id : String
  key : String
  broken : Bool := false
  deriving DecidableEq, Repr

def Submission.asked (sub : Submission) : String :=
  if sub.id = "" then "raysubmit_" ++ sub.key else sub.id

/-- A POST is a submission, and any other call an upload or a check for one; `key` is drawn
for the name of a RayJob, and `inputs` and `output` are headers. -/
structure Request where
  user : User
  shape : Shape
  key : String
  submission : Option Submission
  inputs : String := ""
  output : String := ""
  deriving DecidableEq, Repr

def Request.cluster (r : Request) : String := r.user.cluster

def owned (user : User) : Owner := (user.cluster, user.owner)

def Request.name (r : Request) : String := jobName r.user.owner r.cluster r.key

inductive About
  | stop | delete
  deriving DecidableEq, Repr

inductive Call
  | submit (r : Request)
  | about (user : User) (jobId : String) (about : About)
  | reap
  deriving DecidableEq, Repr

/-- Where a submission goes once its ID is known to be new: on NRP, with the name its code
was uploaded under. -/
inductive Goal
  | purdue
  | nrp (name : String)
  deriving DecidableEq, Repr

/-- A call of `start_job`, with the ID of the submission it is for, if it is for one. -/
structure Start where
  request : Request
  asked : Option String
  name : String
  deriving DecidableEq, Repr

/-- A pass: when it began, the RayJobs that were waited for then, and those of its listing
still to see. -/
structure Pass where
  now : ℤ
  waited : List String
  rest : List (String × RayJob)
  deriving DecidableEq, Repr

/-- Where a coroutine is suspended, with what it keeps. -/
inductive Pc
  | body (r : Request)
  | lock (r : Request)
  | package (cluster : String)
  | nrpBody (r : Request) (sub : Submission) (name : String)
  | before (r : Request) (asked : String) (goal : Goal)
  | nrpBefore (r : Request) (asked : String) (goal : Goal)
  | admission (j : Start)
  | post (j : Start)
  | secret (j : Start) (deadline : ℤ)
  | findHead (j : Start) (deadline : ℤ)
  | headStatus (j : Start) (deadline : ℤ) (head : String)
  | sleep (j : Start) (deadline : ℤ)
  | openHead (j : Start) (head : String)
  | patch (r : Request) (asked : String) (x : Waiting)
  | undo (cluster name : String) (why : Refused)
  | relay (head name : String) (asked : Option String)
  | gpus (r : Request) (asked name : String)
  | nrpPost (r : Request) (asked name : String)
  | nrpRest (cluster : String)
  | find (user : User) (jobId : String) (about : About)
  | findCluster (name : String) (job : RayJob) (head : String) (about : About)
  | deleteRecord (name : String)
  | list
  | cluster (name : String) (job : RayJob) (head jobId : String) (p : Pass)
  | headJob (name : String) (job : RayJob) (head jobId : String) (p : Pass)
  | free (name : String) (job : RayJob) (record : Bool) (p : Pass)
  | watch (head : String) (p : Pass)
  | delete (name : String) (p : Pass)
  deriving DecidableEq, Repr

/-- `failed` is an answer whose status is refused, with that status or its message, `refused`
what `admit` or the sizing of a job on NRP refuses, and `error` is no answer at all; a head
that does not know a job says so by `headJob none`. -/
inductive Answer
  | done
  | failed (said : String)
  | refused (why : Refused)
  | error
  | bool (answer : Bool)
  | jobs (listed : List (String × RayJob))
  | head (name : Option String)
  | headJob (status : Option JobStatus)
  deriving DecidableEq, Repr

/-- What becomes of a call that is not answered as it should be: it took effect, it still
may, or it never will. -/
inductive Fate
  | done | late | never
  deriving DecidableEq, Repr

inductive Choice
  | ok
  | fail (said : String) (fate : Fate)
  | refuse (why : Refused)
  | error (fate : Fate)
  | bool (answer : Bool)
  deriving DecidableEq, Repr

/-- `reaps` is a call of `delete_rayjob` by `reap_jobs` or `follow_on_head`. -/
inductive Event
  | reaps (name : String)
  | refused (why : Refused)
  | raised
  deriving DecidableEq, Repr

/-- What KubeRay reports of a RayJob. -/
structure Report where
  head : Option String
  status : JobStatus
  endTime : Option ℤ
  deriving DecidableEq, Repr

inductive Move
  | tick (seconds : ℕ)
  | report (name : String) (st : Report)
  | head (cluster : String) (jobs : Option (Dict String JobStatus))
  | gone (key : Key)
  | land (i : ℕ)
  | lapse (i : ℕ)
  deriving DecidableEq, Repr

def World.put (w : World) (key : Key) (job : RayJob) : World :=
  { w with jobs := w.jobs.set key job }

/-- A call that takes effect; a creation of a name that is taken and a change of a RayJob that
is gone do nothing. -/
def World.apply (w : World) : Write → World
  | .create key job =>
    if (w.jobs.get? key).isSome then w else w.put key { job with created := w.now }
  | .give name jobId =>
    match w.jobs.get? (.purdue, name) with
    | some job => w.put (.purdue, name) { job with jobId := some jobId }
    | none => w
  | .delete name =>
    match w.jobs.get? (.purdue, name) with
    | some job => w.put (.purdue, name) { job with deleting := true }
    | none => w

/-- How Kubernetes answers a call that cannot take effect. -/
def World.rejects (w : World) : Write → Option String
  | .create key _ => if (w.jobs.get? key).isSome then some "409" else none
  | .give name _ | .delete name => if (w.jobs.get? (.purdue, name)).isNone then some "404" else none

def World.undergo (w : World) (x : Write) : Fate → World
  | .done => w.apply x
  | .late => { w with late := w.late ++ [x] }
  | .never => w

/-- The RayJobs of a site. -/
def World.at (w : World) (site : Site) : List (String × RayJob) :=
  (w.jobs.map Prod.fst).filterMap fun key =>
    if key.1 = site then (w.jobs.get? key).map fun job => (key.2, job) else none

def World.listing (w : World) : List (String × RayJob) := w.at .purdue

/-- The RayJobs on NRP of the label `owner_key` makes. -/
def World.nrpListing (w : World) (owner : Owner) : List (String × RayJob) :=
  (w.at .nrp).filter fun e => ownerKey e.2.owner.1 e.2.owner.2 = ownerKey owner.1 owner.2

def reading (w : World) (answer : Answer) : Choice → Option (World × Answer)
  | .ok => some (w, answer)
  | .fail said _ => some (w, .failed said)
  | .error _ => some (w, .error)
  | _ => none

/-- A GET of one object: that it is not there is an answer of its own. -/
def getting (w : World) (answer : Answer) : Choice → Option (World × Answer)
  | .fail said fate => if said = "404" then none else reading w answer (.fail said fate)
  | c => reading w answer c

def writing (w : World) (x : Write) : Choice → Option (World × Answer)
  | .ok =>
    match w.rejects x with
    | some said => some (w, .failed said)
    | none => some (w.apply x, .done)
  | .fail said fate => some (w.undergo x fate, .failed said)
  | .error fate => some (w.undergo x fate, .error)
  | _ => none

/-- A head answers only while it is up. -/
def asking (w : World) (head : String) : Choice → Option (World × Answer)
  | .bool b => if b && (w.heads.get? head).isNone then none else some (w, .bool b)
  | _ => none

/-- As `build_job` makes it. -/
def buildJob (user : User) : RayJob := ⟨owned user, none, 0, false, none, .new, none⟩

def nrpJob (user : User) (asked : String) : RayJob :=
  ⟨owned user, some asked, 0, false, none, .new, none⟩

def World.submit (w : World) (head jobId : String) : World :=
  match w.heads.get? head with
  | some jobs => { w with heads := w.heads.set head (jobs.set jobId .pending) }
  | none => w

/-- The call passed on to a head: a submission the head takes makes it know the job. -/
def relaying (w : World) (head : String) (asked : Option String) : Choice → Option (World × Answer)
  | .ok =>
    if (w.heads.get? head).isNone then none
    else some (asked.elim w (w.submit head), .done)
  | .fail said fate =>
    some (if fate = .done then asked.elim w (w.submit head) else w, .failed said)
  | .error fate => some (if fate = .done then asked.elim w (w.submit head) else w, .error)
  | _ => none

def serve (w : World) (pc : Pc) (c : Choice) : Option (World × Answer) :=
  match pc with
  | .lock _ | .sleep _ _ => some (w, .done)
  | .body _ | .nrpBody _ _ _ | .package _ | .secret _ _ | .nrpRest _ | .free _ _ _ _ | .watch _ _ =>
    reading w .done c
  | .before r _ _ => reading w (.jobs (w.listing.filter fun e => e.2.owner.1 = r.cluster)) c
  | .nrpBefore r _ _ => reading w (.jobs (w.nrpListing (owned r.user))) c
  | .admission _ | .gpus _ _ _ =>
    match c with
    | .refuse why => some (w, .refused why)
    | c => reading w .done c
  | .post j => writing w (.create (.purdue, j.name) (buildJob j.request.user)) c
  | .findHead j _ => getting w (.head ((w.jobs.get? (.purdue, j.name)).bind RayJob.head)) c
  | .headStatus _ _ head | .openHead _ head => asking w head c
  | .patch _ asked x => writing w (.give x.name asked) c
  | .undo _ name _ | .deleteRecord name | .delete name _ => writing w (.delete name) c
  | .relay head _ asked => relaying w head asked c
  | .nrpPost r asked name => writing w (.create (.nrp, name) (nrpJob r.user asked)) c
  | .find user _ _ => reading w (.jobs (w.listing.filter fun e => e.2.owner.1 = user.cluster)) c
  | .findCluster _ _ head _ | .cluster _ _ head _ _ =>
    getting w (.bool (w.heads.get? head).isSome) c
  | .list => reading w (.jobs w.listing) c
  | .headJob _ _ head jobId _ =>
    match w.heads.get? head, c with
    | some jobs, .ok => some (w, .headJob (jobs.get? jobId))
    | _, .error _ => some (w, .error)
    | _, _ => none

abbrev Step := Ran Gateway Pc Event

def awaiting (g : Gateway) (pc : Pc) : Step := ⟨g, some pc, []⟩

def refuse (g : Gateway) (code : StatusCode) (text : String) : Step :=
  ⟨g, none, [.refused ⟨code, text⟩]⟩

def hold (g : Gateway) (cluster : String) : Gateway :=
  { g with submitting := cluster :: g.submitting }

def release (g : Gateway) (cluster : String) : Gateway :=
  { g with submitting := g.submitting.filter (· ≠ cluster) }

/-- A call ends, by a refusal or an error, and gives up its lock. -/
def ends (g : Gateway) (cluster : String) (event : Event) : Step :=
  ⟨release g cluster, none, [event]⟩

def unavailable (text : String) : Event := .refused ⟨.unavailable, text⟩

/-- A RayJob is no longer that of a submission under way: it failed, or its user deletes it. -/
def drop (g : Gateway) (name : String) : Gateway :=
  { g with serving := g.serving.filter (· ≠ name) }

def duplicateRefusal (asked : String) : Refused :=
  ⟨.failedPrecondition,
    "You have a job " ++ asked ++ " already: submit it under another ID, or without one."⟩

/-- The call holds RayJob `x`: an upload puts it back at once, and a submission sends it its
job's ID. -/
def holding (g : Gateway) (r : Request) (asked : Option String) (x : Waiting) : Step :=
  match asked with
  | none =>
    awaiting (release { g with waiting := g.waiting.set r.cluster x } r.cluster)
      (.relay x.head x.name none)
  | some id =>
    if (r.inputs ≠ "" ∨ r.output ≠ "") ∧ r.submission.any Submission.broken then
      ends g r.cluster .raised
    else
      awaiting { g with given := x.name :: g.given, serving := x.name :: g.serving }
        (.patch r id x)

/-- The RayJob that waits for the call, unless it is of another shape or too old. -/
def fitting (w : World) (g : Gateway) (r : Request) : Option Waiting :=
  (g.waiting.get? r.cluster).filter fun x =>
    x.shape = r.shape && decide (w.now - x.since ≤ startTimeoutS)

/-- A name is drawn once. -/
def drawing (g : Gateway) (r : Request) : Option Gateway :=
  if (g.drawn.get? r.name).isSome then none
  else some { g with drawn := g.drawn.set r.name (owned r.user) }

/-- `submission` from `data_paths` on. -/
def taking (w : World) (g : Gateway) (r : Request) (asked : Option String) : Option Step :=
  match dataPaths r.user r.inputs r.output with
  | .error e => some (ends g r.cluster (.refused e))
  | .ok _ =>
    let popped := { g with waiting := g.waiting.pop r.cluster }
    match fitting w g r with
    | some x => some (holding popped r asked x)
    | none => (drawing popped r).map fun g' => awaiting g' (.admission ⟨r, asked, r.name⟩)

def checked (w : World) (g : Gateway) (r : Request) (asked : String) : Goal → Option Step
  | .purdue => taking w g r (some asked)
  | .nrp name => some (awaiting g (.gpus r asked name))

/-- The name the user's code on NRP waits under, unless it is too old. -/
def nrpName (w : World) (g : Gateway) (cluster : String) : Option String :=
  (g.nrpWaiting.get? cluster).bind fun e =>
    if e.1 = "" ∨ startTimeoutS < w.now - e.2 then none else some e.1

/-- `nrp_submission` once it has a name. -/
def nrpNamed (w : World) (g : Gateway) (r : Request) (name : String) : Step :=
  match r.submission with
  | none =>
    awaiting { g with nrpWaiting := g.nrpWaiting.set r.cluster (name, w.now) } (.package r.cluster)
  | some sub => awaiting g (.nrpBody r sub name)

/-- The call holds its user's lock. -/
def entered (w : World) (g : Gateway) (r : Request) : Option Step :=
  if r.shape.site = "nrp" then
    match nrpName w g r.cluster with
    | some name => some (nrpNamed w g r name)
    | none => (drawing g r).map fun g' => nrpNamed w g' r r.name
  else
    match r.submission with
    | some sub => some (awaiting g (.before r sub.asked .purdue))
    | none => taking w g r none

/-- A poll of `head_up` that found no head: again, or too late. -/
def polled (w : World) (g : Gateway) (j : Start) (deadline : ℤ) : Step :=
  if deadline < w.now then
    awaiting g (.undo j.request.cluster j.name
      ⟨.unavailable, "Your Ray job's head did not start in time: try again later."⟩)
  else awaiting g (.sleep j deadline)

/-- `recorded`: a call about a job whose cluster is not up, or its deletion. -/
def recorded (g : Gateway) (name : String) (job : RayJob) : About → Step
  | .delete =>
    if ended job.status then awaiting (drop g name) (.deleteRecord name)
    else refuse g .invalidArgument "The job has not ended: stop it first"
  | .stop =>
    if ended job.status then ⟨g, none, []⟩ else awaiting (drop g name) (.deleteRecord name)

def endPass (g : Gateway) : Step := ⟨{ g with reaping := false }, none, []⟩

def waitedFor (w : World) (g : Gateway) : List String :=
  (g.waiting.filter fun e => decide (w.now - startTimeoutS < e.2.since)).map fun e => e.2.name

def reaping (name : String) (p : Pass) : Pc × List Event := (.delete name p, [.reaps name])

/-- A submitted job that has no cluster. -/
def unfollowed (name : String) (job : RayJob) (p : Pass) : Option (Pc × List Event) :=
  if jobRecordS ≤ p.now - job.created then some (reaping name p) else none

/-- What a pass does about a RayJob of its listing, as far as its first await. -/
def checking (name : String) (job : RayJob) (p : Pass) : Option (Pc × List Event) :=
  if job.deleting then none
  else
    match job.jobId with
    | none =>
      if name ∉ p.waited ∧ 2 * startTimeoutS ≤ p.now - job.created then some (reaping name p)
      else none
    | some id =>
      if job.status = .new then
        match job.head with
        | some head => some (.cluster name job head id p, [])
        | none => unfollowed name job p
      else if ended job.status then some (.free name job true p, [])
      else job.head.map fun head => (.watch head p, [])

def nextJob (g : Gateway) (now : ℤ) (waited : List String) : List (String × RayJob) → Step
  | [] => endPass g
  | e :: rest =>
    match checking e.1 e.2 ⟨now, waited, rest⟩ with
    | some (pc, events) => ⟨g, some pc, events⟩
    | none => nextJob g now waited rest

def passes (g : Gateway) (p : Pass) : Step := nextJob g p.now p.waited p.rest

/-- Goes on with the RayJob, or with the next one. -/
def follows (g : Gateway) (p : Pass) : Option (Pc × List Event) → Step
  | some (pc, events) => ⟨g, some pc, events⟩
  | none => passes g p

/-- `follow_on_head` once the head has answered. -/
def followed (g : Gateway) (name : String) (job : RayJob) (p : Pass) : Option JobStatus → Step
  | some st => if ended st then awaiting g (.free name job false p) else passes g p
  | none =>
    follows g p
      (if 2 * startTimeoutS ≤ p.now - job.created then some (reaping name p) else none)

/-- An ended job's record, once kept long enough. -/
def kept (g : Gateway) (name : String) (job : RayJob) (p : Pass) : Step :=
  follows g p
    (if job.endTime.any fun e => decide (jobRecordS ≤ p.now - e) then some (reaping name p)
    else none)

def start (_ : World) (g : Gateway) : Call → Option Step
  | .submit r =>
    if r.shape.site = "nrp" then
      if g.nrp then some (awaiting g (.lock r))
      else some (refuse g .unavailable
        "Jobs on NRP are not enabled: the gateway has no NRP kubeconfig or S3 keys.")
    else if r.user.sessionGpu then some (refuse g .failedPrecondition
      "Your session holds a GPU, and Ray jobs are for sessions without one: train on your session's GPU, or start a session without a GPU.")
    else
      match mountedEnv r.shape.env r.user with
      | .error e => some ⟨g, none, [.refused e]⟩
      | .ok _ => some (awaiting g (if r.submission.isSome then .body r else .lock r))
  | .about user jobId about => some (awaiting g (.find user jobId about))
  | .reap => if g.reaping then none else some (awaiting { g with reaping := true } .list)

def resume (w : World) (g : Gateway) (pc : Pc) (a : Answer) : Option Step :=
  match pc, a with
  | .body r, .done => some (awaiting g (.lock r))
  | .body _, .failed _ => some (refuse g .invalidArgument "A job submission is a JSON object.")
  | .body _, _ => some ⟨g, none, [.raised]⟩
  | .lock r, .done =>
    if r.cluster ∈ g.submitting then none else entered w (hold g r.cluster) r
  | .package cluster, .done => some ⟨release g cluster, none, []⟩
  | .package cluster, _ => some (ends g cluster .raised)
  | .nrpBody r sub name, .done =>
    match dataPaths r.user r.inputs r.output with
    | .error e => some (ends g r.cluster (.refused e))
    | .ok _ =>
      some (awaiting { g with nrpWaiting := g.nrpWaiting.pop r.cluster }
        (.before r sub.asked (.nrp name)))
  | .nrpBody r _ _, .failed _ =>
    some (ends g r.cluster (.refused ⟨.invalidArgument, "A job submission is a JSON object."⟩))
  | .nrpBody r _ _, _ => some (ends g r.cluster .raised)
  | .before r asked goal, .jobs listed =>
    if listed.any fun e => e.2.owner = owned r.user && e.2.jobId = some asked then
      some (ends g r.cluster (.refused (duplicateRefusal asked)))
    else if g.nrp then some (awaiting g (.nrpBefore r asked goal))
    else checked w g r asked goal
  | .before r _ _, .failed said =>
    some (ends g r.cluster
      (unavailable ("Kubernetes answered HTTP " ++ said ++ " for your Ray jobs.")))
  | .before r _ _, _ => some (ends g r.cluster .raised)
  | .nrpBefore r asked goal, .jobs listed =>
    if listed.any fun e => e.2.jobId = some asked then
      some (ends g r.cluster (.refused (duplicateRefusal asked)))
    else checked w g r asked goal
  -- `nrp_jobs` has none if NRP does not answer.
  | .nrpBefore r asked goal, _ => checked w g r asked goal
  | .admission j, .done => some (awaiting g (.post j))
  | .admission j, .refused why => some (ends g j.request.cluster (.refused why))
  | .admission j, _ => some (ends g j.request.cluster .raised)
  | .post j, .done => some (awaiting g (.secret j (w.now + startTimeoutS)))
  | .post j, .failed said =>
    some (ends g j.request.cluster (unavailable ("Could not create your Ray job: " ++ said)))
  | .post j, _ => some (ends g j.request.cluster .raised)
  | .secret j deadline, .done => some (awaiting g (.findHead j deadline))
  | .secret j _, .failed said =>
    some (awaiting g (.undo j.request.cluster j.name
      ⟨.unavailable, "Could not create your Ray job's token: " ++ said⟩))
  | .secret j _, _ => some (ends g j.request.cluster .raised)
  | .findHead j deadline, .head (some head) => some (awaiting g (.headStatus j deadline head))
  | .findHead j deadline, .head none => some (polled w g j deadline)
  | .findHead j _, .failed said =>
    some (awaiting g (.undo j.request.cluster j.name
      ⟨.unavailable, "Kubernetes answered HTTP " ++ said ++ " for the Ray job."⟩))
  | .findHead j _, _ => some (ends g j.request.cluster .raised)
  | .headStatus j deadline head, .bool up =>
    some (if up then awaiting g (.openHead j head) else polled w g j deadline)
  | .sleep j deadline, .done => some (awaiting g (.secret j deadline))
  | .openHead j head, .bool isOpen =>
    if isOpen then
      some (awaiting g (.undo j.request.cluster j.name
        ⟨.invalidArgument, "The Ray in that environment does not enforce the cluster's token."⟩))
    else some (holding g j.request j.asked ⟨j.name, head, j.request.shape, w.now⟩)
  | .patch r asked x, .done =>
    some (awaiting (release g r.cluster) (.relay x.head x.name (some asked)))
  | .patch r _ x, .failed said =>
    some (awaiting (drop g x.name) (.undo r.cluster x.name
      ⟨.unavailable, "Could not start your Ray job: " ++ said⟩))
  | .patch r _ x, _ => some (ends (drop g x.name) r.cluster .raised)
  | .undo cluster _ _, .error => some (ends g cluster .raised)
  | .undo cluster _ why, _ => some (ends g cluster (.refused why))
  | .relay _ _ _, .done => some ⟨g, none, []⟩
  | .relay _ name asked, .failed _ => some ⟨if asked.isSome then drop g name else g, none, []⟩
  | .relay _ name asked, _ =>
    some ⟨if asked.isSome then drop g name else g, none,
      [unavailable "Your Ray cluster did not answer: try again in a minute."]⟩
  | .gpus r asked name, .done => some (awaiting g (.nrpPost r asked name))
  | .gpus r _ _, .refused why => some (ends g r.cluster (.refused why))
  | .gpus r _ _, _ => some (ends g r.cluster .raised)
  | .nrpPost r _ _, .done => some (awaiting g (.nrpRest r.cluster))
  | .nrpPost r _ _, .failed said =>
    some (ends g r.cluster (unavailable ("NRP did not take your job: " ++ said)))
  | .nrpPost r _ _, _ => some (ends g r.cluster .raised)
  | .nrpRest cluster, .done => some ⟨release g cluster, none, []⟩
  | .nrpRest cluster, .failed said => some (ends g cluster (unavailable said))
  | .nrpRest cluster, _ => some (ends g cluster .raised)
  | .find user jobId about, .jobs listed =>
    match listed.find? fun e => e.2.owner = owned user && e.2.jobId = some jobId with
    | some (name, job) =>
      match job.head with
      | some head => some (awaiting g (.findCluster name job head about))
      | none => some (recorded g name job about)
    -- It is a job on NRP, or one submitted to the user's own cluster.
    | none => some ⟨g, none, []⟩
  | .find _ _ _, .failed said =>
    some (refuse g .unavailable ("Kubernetes answered HTTP " ++ said ++ " for your Ray jobs."))
  | .find _ _ _, _ => some ⟨g, none, [.raised]⟩
  -- A stop of a job whose cluster is up goes to its head.
  | .findCluster name job _ about, .bool up =>
    if up ∧ about = .stop then some ⟨g, none, []⟩ else some (recorded g name job about)
  | .findCluster _ _ _ _, .failed said =>
    some (refuse g .unavailable ("Kubernetes answered HTTP " ++ said ++ " for the Ray cluster."))
  | .findCluster _ _ _ _, _ => some ⟨g, none, [.raised]⟩
  | .deleteRecord _, .failed said =>
    if said = "404" then some ⟨g, none, []⟩
    else some (refuse g .unavailable
      ("Kubernetes answered HTTP " ++ said ++ " deleting the Ray job."))
  | .deleteRecord _, .error => some ⟨g, none, [.raised]⟩
  | .deleteRecord _, _ => some ⟨g, none, []⟩
  | .list, .jobs listed => some (nextJob g w.now (waitedFor w g) listed)
  | .list, _ => some (endPass g)
  | .cluster name job head jobId p, .bool up =>
    if up then some (awaiting g (.headJob name job head jobId p))
    else some (follows g p (unfollowed name job p))
  | .cluster _ _ _ _ p, _ => some (passes g p)
  | .headJob name job _ _ p, .headJob st => some (followed g name job p st)
  | .headJob _ _ _ _ p, _ => some (passes g p)
  | .free name job record p, .done =>
    if record then some (kept g name job p) else some (passes g p)
  | .free _ _ _ p, _ => some (passes g p)
  | .watch _ p, _ => some (passes g p)
  | .delete _ p, _ => some (passes g p)
  | _, _ => none

/-- KubeRay's reports: how and when a job ended is final. -/
def RayJob.report (j : RayJob) (st : Report) : Option RayJob :=
  if ended j.status && (st.status ≠ j.status || (j.endTime.isSome && st.endTime ≠ j.endTime)) then
    none
  else some { j with head := st.head, status := st.status, endTime := st.endTime }

def env (w : World) (g : Gateway) : Move → Option (World × Gateway)
  | .tick d => some ({ w with now := w.now + d }, g)
  | .report name st =>
    ((w.jobs.get? (.purdue, name)).bind fun j => j.report st).map fun j =>
      (w.put (.purdue, name) j, g)
  | .head cluster none => some ({ w with heads := w.heads.pop cluster }, g)
  | .head cluster (some jobs) => some ({ w with heads := w.heads.set cluster jobs }, g)
  | .gone key => some ({ w with jobs := w.jobs.pop key }, g)
  | .land i =>
    (w.late[i]?).map fun x => ({ w.apply x with late := w.late.eraseIdx i }, g)
  | .lapse i => some ({ w with late := w.late.eraseIdx i }, g)

def program : Program World Gateway Pc Answer Call Event Choice Move :=
  ⟨start, serve, resume, env⟩

abbrev St := State World Gateway Pc Answer
abbrev Act := Action Call Choice Move

/-- No two RayJobs of one user have the same jobId. -/
def Unique (jobs : Dict Key RayJob) : Prop :=
  ∀ k k' j j', jobs.get? k = some j → jobs.get? k' = some j' → j.owner = j'.owner →
    j.jobId ≠ none → j.jobId = j'.jobId → k = k'

def givenNames (jobs : Dict Key RayJob) : List String :=
  (jobs.filter fun e => e.1.1 = .purdue && e.2.jobId.isSome).map fun e => e.1.2

/-- What a gateway finds when it starts: the RayJobs of an earlier one, of which it may still
serve those that were given a jobId. -/
structure Standing where
  now : ℤ
  jobs : Dict Key RayJob
  heads : Dict String (Dict String JobStatus)
  serving : List String
  names : (jobs.map fun e => e.1.2).Nodup
  unique : Unique jobs
  served : ∀ name ∈ serving, name ∈ givenNames jobs

def initial (nrp : Bool) (st : Standing) : St where
  world := ⟨st.now, st.jobs, [], st.heads⟩
  mem := ⟨nrp, [], [], [], false, Dict.ofPairs (st.jobs.map fun e => (e.1.2, e.2.owner)),
    givenNames st.jobs, st.serving⟩
  threads := []

def nothing : Standing where
  now := 0
  jobs := []
  heads := []
  serving := []
  names := by simp
  unique := by simp [Unique]
  served := by simp

/-- The awaits of a coroutine answered one after the other, each as chosen. -/
def answers (t : ℕ) (choices : List Choice) : List Act :=
  choices.flatMap fun c => [.serve t c, .resume t]

def hubUser : User := RayNrp.hubUser

def hubJob (key : String) : String := RayNrp.hubJob key

def shape : Shape := ⟨"/work/env", "1", "5", "1", "4", "1", "1", "purdue"⟩

/-- A submission of the ID to Purdue. -/
def request (key id : String) : Request := ⟨hubUser, shape, key, some ⟨id, key, false⟩, "", ""⟩

def nrpRequest (key id : String) : Request :=
  { request key id with shape := { shape with site := "nrp" } }

end PurdueAF.RaySubmissions
