import PurdueAF.Coroutine
import PurdueAF.RayGrants
import PurdueAF.RayPaths

/-!
# Users' own Ray clusters

The gateway's coroutines that start, find, replace, relay to and delete RayClusters, as
a program over the Kubernetes API: one suspension point for each `await`. The clock is
one for `time.monotonic` and `time.time`. A `head_up` or `wait_until_gone` loop is one
await that is served when a poll succeeds, or fails when its deadline passes.
-/
namespace PurdueAF.RayClusters
open Ray RayNaming Coroutine

/-- `replicas` workers with `perWorker` GPUs of one resource each. -/
structure WorkerGroup where
  resource : String
  perWorker : ℕ
  replicas : ℕ
  preemptible : Bool
  deriving DecidableEq, Repr

structure RayCluster where
  name : String
  uid : ℕ
  owner : String
  shape : Shape
  groups : List WorkerGroup
  rayJob : Option String
  created : ℤ
  deleting : Bool := false
  ready : Bool := false
  provisioned : Option Bool := none
  deriving DecidableEq, Repr

/-- A job's RayJob, from its creation on; `made` once KubeRay made its cluster. -/
structure RayJob where
  user : User
  key : String
  shape : Shape
  groups : List WorkerGroup
  made : Bool
  deriving DecidableEq, Repr

def RayJob.name (j : RayJob) : String := jobName j.user.owner j.user.cluster j.key

def live (c : RayCluster) : Bool := !c.deleting

/-- Whether the cluster stays up and is of `shape`. -/
def runs (c : RayCluster) (shape : Shape) : Bool := live c && c.shape = shape

def unprovisioned (c : RayCluster) (now : ℤ) : Bool :=
  live c && c.provisioned = some false && decide (provisionTimeoutS ≤ now - c.created)

def addHeld (held : Gpus) (g : WorkerGroup) : Gpus :=
  if g.resource ∈ flavors.map Flavor.resource then
    Dict.set held g.resource (Gpus.count held g.resource + g.replicas * g.perWorker)
  else held

/-- The GPUs the cluster's workers have of each resource. -/
def heldGpus (groups : List WorkerGroup) : Gpus := groups.foldl addHeld []

def workerGroup (resource : String) (perWorker replicas : ℕ) (preemptible : Bool) :
    List WorkerGroup :=
  if replicas = 0 then [] else [⟨resource, perWorker, replicas, preemptible⟩]

/-- The groups `build_cluster` makes of a mix: every worker but the first, of which `kept`
are still to come, gives way to pods of the default priority. -/
def workerGroups (perWorker : ℕ) (mix : Gpus) : List Flavor → ℕ → List WorkerGroup
  | [], _ => []
  | f :: fs, kept =>
    workerGroup f.resource perWorker (min kept (mix.count f.resource)) false ++
      workerGroup f.resource perWorker (mix.count f.resource - kept) true ++
      workerGroups perWorker mix fs (kept - mix.count f.resource)

def perWorkerOf (shape : Shape) : ℕ := (int? shape.perWorker).getD 0

def buildGroups (shape : Shape) (mix : Gpus) : List WorkerGroup :=
  workerGroups (perWorkerOf shape) mix flavors 1

structure World where
  now : ℤ
  clusters : List RayCluster
  rayJobs : List RayJob
  uids : ℕ
  accounts : List String

/-- The gateway's memory. `drawn` is history no code reads: the names `new_submission` has
drawn for RayJobs. -/
structure Gateway where
  lastUsed : Dict String ℤ
  started : Dict String (String × Shape)
  clients : Dict String (List String)
  gone : Dict String (ℤ × String)
  neverStarted : Dict String String
  grants : Grants
  admitting : Bool
  reaping : Bool
  drawn : List String

inductive Method
  | get | post | delete (force : Bool)
  deriving DecidableEq, Repr

/-- What comes in: a Ray Client stream, an HTTP call for the user's running cluster, a call
about the user's own cluster, a submission that starts a RayJob, and the reaper's pass. -/
inductive Call
  | relay (user : User) (shape : Shape) (client : String)
  | http (user : User)
  | own (user : User) (shape : Shape) (method : Method)
  | submit (user : User) (shape : Shape) (key : String)
  | reap
  deriving DecidableEq, Repr

/-- What a call goes on to with the cluster `cluster_for` gives it. -/
inductive Goal
  | relay (client : String)
  | own
  deriving DecidableEq, Repr

inductive AfterAdmit
  | replace (goal : Goal)
  | outlast (goal : Goal)
  | create (goal : Goal)
  | job (key : String)
  deriving DecidableEq, Repr

structure Admission where
  user : User
  shape : Shape
  replaced : Gpus
  next : AfterAdmit
  deriving DecidableEq, Repr

/-- `admit` grants to a RayJob's name, or by default to that of the user's own cluster. -/
def Admission.name (a : Admission) : String :=
  match a.next with
  | .job key => jobName a.user.owner a.user.cluster key
  | _ => a.user.cluster

/-- A reaper's pass: when it began and the clusters of its listing still to see. -/
structure Pass where
  now : ℤ
  rest : List RayCluster
  deriving DecidableEq, Repr

inductive AfterDelete
  | replace (user : User) (shape : Shape) (goal : Goal) (mix : Gpus)
  | openHead
  | byUser
  | unprovisioned (pass : Pass)
  | idle (pass : Pass)
  deriving DecidableEq, Repr

/-- Where a coroutine is suspended, with what it keeps. -/
inductive Pc
  | caller (call : Call)
  | read (user : User) (shape : Shape) (goal : Goal)
  | busyOld (user : User) (shape : Shape) (goal : Goal) (old : RayCluster)
  | lock (a : Admission)
  | list (a : Admission)
  | free (a : Admission) (now : ℤ) (granted others : Dict String Gpus)
  | delete (name why : String) (after : AfterDelete)
  | close (name : String) (after : AfterDelete)
  | gone (user : User) (shape : Shape) (goal : Goal) (mix : Gpus)
  | post (user : User) (shape : Shape) (goal : Goal) (mix : Gpus)
  | conflict (user : User) (shape : Shape) (goal : Goal)
  | headUp (user : User) (shape : Shape) (goal : Goal)
  | headOpen (user : User) (shape : Shape) (goal : Goal)
  | postJob (user : User) (shape : Shape) (key : String) (mix : Gpus)
  | running (user : User)
  | ownRead (user : User) (method : Method)
  | ownBusy (user : User)
  | relaying (cluster : String)
  | reapList
  | reapBusy (cluster : RayCluster) (pass : Pass)
  deriving DecidableEq, Repr

/-- `failed` is an answer whose status is refused, with that status or its message, or a
deadline that passed, with nothing to say; `error` is no answer at all. -/
inductive Answer
  | done
  | failed (said : String)
  | error
  | cluster (found : Option RayCluster)
  | clusters (listed : List RayCluster)
  | bool (answer : Bool)
  | free (answer : Option Free)
  | created (cluster : RayCluster)
  | conflict
  | request
  | ended (unavailable : Bool)
  deriving DecidableEq, Repr

/-- How the world answers: as asked, with a failing status, not at all, or not at all
although the call took effect; what heads, Prometheus and notebooks say is theirs. -/
inductive Choice
  | ok
  | fail (said : String)
  | error
  | lost
  | bool (answer : Bool)
  | free (answer : Option Free)
  | request
  | ended (unavailable : Bool)
  deriving DecidableEq, Repr

inductive Event
  | clusterFor (user : User) (shape : Shape)
  | running (user : User)
  | deletesIdle (name : String)
  | refused (why : Refused)
  | raised
  deriving DecidableEq, Repr

inductive Move
  | tick (seconds : ℕ)
  | remove (uid : ℕ)
  | ready (uid : ℕ) (up : Bool)
  | provision (uid : ℕ) (all : Bool)
  | makeCluster (key : String) (ending : String)
  | expireCluster (uid : ℕ)
  | removeJob (key : String)
  | declare (account : String)
  | withdraw (account : String)
  | silent (cluster : String)
  deriving DecidableEq, Repr

def World.find (w : World) (name : String) : Option RayCluster :=
  w.clusters.find? fun c => c.name = name

def World.mark (w : World) (p : RayCluster → Bool) (f : RayCluster → RayCluster) : World :=
  { w with clusters := w.clusters.map fun c => if p c then f c else c }

/-- Foreground deletion: the RayCluster stays, marked, until its pods are gone. -/
def World.delete (w : World) (name : String) : World :=
  w.mark (fun c => c.name = name) fun c => { c with deleting := true }

def buildCluster (w : World) (user : User) (shape : Shape) (mix : Gpus) : RayCluster where
  name := user.cluster
  uid := w.uids
  owner := user.owner
  shape := shape
  groups := buildGroups shape mix
  rayJob := none
  created := w.now

def World.add (w : World) (c : RayCluster) : World :=
  { w with clusters := w.clusters ++ [c], uids := w.uids + 1 }

def buildJob (user : User) (shape : Shape) (key : String) (mix : Gpus) : RayJob where
  user := user
  key := key
  shape := shape
  groups := buildGroups shape mix
  made := false

def reading (answer : Answer) : Choice → Option Answer
  | .ok => some answer
  | .fail said => some (.failed said)
  | .error => some .error
  | _ => none

def serve (w : World) (pc : Pc) (c : Choice) : Option (World × Answer) :=
  match pc with
  | .caller _ => (reading .done c).map (w, ·)
  | .read user _ _ | .conflict user _ _ | .running user | .ownRead user _ =>
    (reading (.cluster (w.find user.cluster)) c).map (w, ·)
  | .busyOld _ _ _ _ | .ownBusy _ | .reapBusy _ _ =>
    match c with
    | .bool b => some (w, .bool b)
    | _ => none
  | .lock _ | .close _ _ => some (w, .done)
  | .list _ | .reapList => (reading (.clusters w.clusters) c).map (w, ·)
  | .free _ _ _ _ =>
    match c with
    | .free f => some (w, .free f)
    | _ => none
  | .delete name _ _ =>
    match c with
    | .ok => some (w.delete name, .done)
    | .lost => some (w.delete name, .error)
    | .fail said => some (w, .failed said)
    | .error => some (w, .error)
    | _ => none
  | .gone user _ _ _ =>
    match c with
    | .ok => if (w.find user.cluster).isNone then some (w, .done) else none
    | .fail said => some (w, .failed said)
    | .error => some (w, .error)
    | _ => none
  | .post user shape _ mix =>
    match c with
    | .ok => if (w.find user.cluster).isSome then some (w, .conflict)
      else some (w.add (buildCluster w user shape mix), .created (buildCluster w user shape mix))
    | .lost => if (w.find user.cluster).isSome then some (w, .error)
      else some (w.add (buildCluster w user shape mix), .error)
    | .fail said => some (w, .failed said)
    | .error => some (w, .error)
    | _ => none
  -- Any cluster of the name with a head up answers: its token is derived from the name alone.
  | .headUp user _ _ =>
    match c with
    | .ok => if (w.find user.cluster).any (·.ready) then some (w, .done) else none
    | .fail said => some (w, .failed said)
    | .error => some (w, .error)
    | _ => none
  | .headOpen _ _ _ =>
    match c with
    | .bool b => some (w, .bool b)
    | _ => none
  | .postJob user shape key mix =>
    let job := buildJob user shape key mix
    let known := w.rayJobs.any fun j => j.name = job.name
    match c with
    | .ok => if known then some (w, .failed "409")
      else some ({ w with rayJobs := w.rayJobs ++ [job] }, .done)
    | .lost => if known then some (w, .error)
      else some ({ w with rayJobs := w.rayJobs ++ [job] }, .error)
    | .fail said => some (w, .failed said)
    | .error => some (w, .error)
    | _ => none
  | .relaying _ =>
    match c with
    | .request => some (w, .request)
    | .ended u => some (w, .ended u)
    | _ => none

abbrev Step := Ran Gateway Pc Event

def awaiting (g : Gateway) (pc : Pc) : Step := ⟨g, some pc, []⟩

def refuse (g : Gateway) (code : StatusCode) (text : String) : Step :=
  ⟨g, none, [.refused ⟨code, text⟩]⟩

def raised (g : Gateway) : Step := ⟨g, none, [.raised]⟩

/-- A read or a deletion Kubernetes answers with a status of its own. -/
def refuseStatus (g : Gateway) (said what : String) : Step :=
  refuse g .unavailable ("Kubernetes answered HTTP " ++ said ++ " " ++ what ++ ".")

/-- What a user hears of a wait: why it failed, or that its time passed. -/
def refuseWait (g : Gateway) (said failed late : String) : Step :=
  refuse g .unavailable (if said = "" then late else failed ++ said)

def removedIdle : String :=
  "Your Ray cluster was removed after it went idle: run ray.shutdown(), then ray.init() again."

def removedByUser : String :=
  "Your Ray cluster was stopped: run ray.shutdown(), then ray.init() again."

def removedUnprovisioned : String :=
  "Your Ray cluster was removed, as not all of its GPUs started in time: ask for fewer workers, or try again later."

def openHead : String := "The Ray in that environment does not enforce the cluster's token."

def refuseOthers (g : Gateway) (user : User) : Step :=
  refuse g .permissionDenied (user.cluster ++ " is someone else's Ray cluster.")

/-- A call the cluster's owner makes, or a request they send, keeps it. -/
def noteUse (w : World) (g : Gateway) (name : String) : Gateway :=
  { g with lastUsed := g.lastUsed.set name w.now }

/-- `cluster_for` returns the user's cluster, and the call goes on with it. -/
def found (w : World) (g : Gateway) (user : User) (shape : Shape) (goal : Goal) : Step :=
  let g := noteUse w g user.cluster
  match goal with
  | .relay client =>
    let ids := (g.clients.get? user.cluster).getD []
    ⟨{ g with clients := g.clients.set user.cluster (client :: ids.filter (· ≠ client)),
              gone := g.gone.pop client },
      some (.relaying user.cluster), [.clusterFor user shape]⟩
  | .own => ⟨g, some (.ownRead user .post), [.clusterFor user shape]⟩

def clusterFor (w : World) (g : Gateway) (user : User) (shape : Shape) (goal : Goal) : Step :=
  if shape.site ≠ "purdue" then
    refuse g .invalidArgument ("af-site: " ++ shape.site ++
      " is for jobs a JobSubmissionClient submits: Ray Client reaches your own cluster at Purdue.")
  else if user.sessionGpu then
    refuse g .failedPrecondition
      "Your session holds a GPU, and Ray clusters are for sessions without one: train on your session's GPU, or start a session without a GPU."
  else
    match mountedEnv shape.env user with
    | .error e => ⟨g, none, [.refused e]⟩
    | .ok _ =>
      if g.started.get? user.cluster = some (user.owner, shape) then found w g user shape goal
      else awaiting g (.read user shape goal)

def running (w : World) (g : Gateway) (user : User) : Step :=
  match g.started.get? user.cluster with
  | some (owner, _) =>
    if owner = user.owner then ⟨noteUse w g user.cluster, none, [.running user]⟩
    else awaiting g (.running user)
  | none => awaiting g (.running user)

/-- `admit` as far as its lock; a shape whose numbers do not parse raises. -/
def admission (g : Gateway) (user : User) (shape : Shape) (replaced : Gpus)
    (next : AfterAdmit) : Step :=
  match shape.ask with
  | none => raised g
  | some _ => awaiting g (.lock ⟨user, shape, replaced, next⟩)

/-- A call once `caller` knows its user. -/
def entered (w : World) (g : Gateway) : Call → Step
  | .relay user shape client =>
    let g := { g with gone := List.filter (fun e => decide (w.now < e.2.1)) g.gone }
    match g.gone.get? client with
    | some (_, why) => refuse g .notFound why
    | none => clusterFor w g user shape (.relay client)
  | .http user => running w g user
  | .own user shape .post => clusterFor w g user shape .own
  | .own user _ method => awaiting g (.ownRead user method)
  -- `submission` of a call whose upload or job needs a RayJob; its other awaits hold no GPU.
  | .submit user shape key =>
    if user.sessionGpu then
      refuse g .failedPrecondition
        "Your session holds a GPU, and Ray jobs are for sessions without one: train on your session's GPU, or start a session without a GPU."
    else
      match mountedEnv shape.env user with
      | .error e => ⟨g, none, [.refused e]⟩
      | .ok _ => admission g user shape [] (.job key)
  | .reap => raised g

def Call.user? : Call → Option User
  | .relay u _ _ | .http u | .own u _ _ | .submit u _ _ => some u
  | .reap => none

/-- The name of the RayJob that a submission starts. -/
def Call.job? : Call → Option String
  | .submit user _ key => some (jobName user.owner user.cluster key)
  | _ => none

/-- `user_for`: an account's token counts while the account is declared, and a Hub user
whose cluster would be an account's is refused while it is. -/
def userFor (w : World) (user : User) : Except (Option Refused) Unit :=
  if user.workload then if user.name ∈ w.accounts then .ok () else .error none
  else if user.cluster ∈ w.accounts.map clusterName then
    .error (some ⟨.permissionDenied,
      user.name ++ " is the name of a workload account: no Ray cluster runs for a Hub user of it."⟩)
  else .ok ()

/-- A call comes in. A submission draws its RayJob's name, which no other has drawn. -/
def start (w : World) (g : Gateway) (call : Call) : Option Step :=
  match call.user? with
  | none => if g.reaping then none else some (awaiting { g with reaping := true } .reapList)
  | some user =>
    match userFor w user with
    | .error none => none
    | .error (some e) => some ⟨g, none, [.refused e]⟩
    | .ok _ =>
      match call.job? with
      | none => some (awaiting g (.caller call))
      | some name =>
        if name ∈ g.drawn then none
        else some (awaiting { g with drawn := name :: g.drawn } (.caller call))

/-- The next cluster of a pass; a RayJob's is left to KubeRay. -/
def nextReap (w : World) (g : Gateway) (now : ℤ) : List RayCluster → Step
  | [] => ⟨{ g with reaping := false }, none, []⟩
  | c :: rest =>
    if c.rayJob.isSome then nextReap w g now rest
    else if unprovisioned c w.now then
      awaiting g (.delete c.name removedUnprovisioned (.unprovisioned ⟨now, rest⟩))
    else awaiting g (.reapBusy c ⟨now, rest⟩)

/-- What a failed deletion leads to: a pass goes on with its next cluster. -/
def deleteFailed (w : World) (g : Gateway) (otherwise : Step) : AfterDelete → Step
  | .unprovisioned p | .idle p => nextReap w g p.now p.rest
  | _ => otherwise

def othersOf (clusters : List RayCluster) : Dict String Gpus :=
  Dict.ofPairs (clusters.map fun c => (c.rayJob.getD c.name, heldGpus c.groups))

def Admission.scene (a : Admission) (free : Option Free) (granted others : Dict String Gpus) :
    Scene :=
  ⟨free, granted, others, a.replaced⟩

/-- Where an admitted cluster goes on: its predecessor is deleted or waited out first. -/
def admitted (g : Gateway) (a : Admission) (mix : Gpus) : Step :=
  match a.next with
  | .replace goal => awaiting g (.delete a.name removedIdle (.replace a.user a.shape goal mix))
  | .outlast goal => awaiting g (.gone a.user a.shape goal mix)
  | .create goal => awaiting g (.post a.user a.shape goal mix)
  | .job key => awaiting g (.postJob a.user a.shape key mix)

def decided (g : Gateway) (a : Admission) (now : ℤ) (sc : Scene) : Step :=
  let g := { g with admitting := false }
  match a.shape.ask with
  | none => raised g
  | some ask =>
    match admitMix ask a.shape.memory sc with
    | .error e => ⟨g, none, [.refused e]⟩
    | .ok mix =>
      admitted { g with grants := granting g.grants a.name ask.perWorker mix now } a mix

def resumeRead (w : World) (g : Gateway) (user : User) (shape : Shape) (goal : Goal) :
    Option RayCluster → Step
  | none => admission (noteUse w g user.cluster) user shape [] (.create goal)
  | some c =>
    if live c && c.owner ≠ user.owner then refuseOthers g user
    else
      let g := noteUse w g user.cluster
      if runs c shape then awaiting g (.headUp user shape goal)
      else if live c then awaiting g (.busyOld user shape goal c)
      else admission g user shape [] (.outlast goal)

def replacing : String := "Another call is replacing your Ray cluster: try again in a minute."

def resumeConflict (g : Gateway) (user : User) (shape : Shape) (goal : Goal) :
    Option RayCluster → Step
  | none => refuse g .aborted replacing
  | some c =>
    if c.owner ≠ user.owner then refuseOthers g user
    else if runs c shape then awaiting g (.headUp user shape goal)
    else refuse g .aborted replacing

def resumeRunning (w : World) (g : Gateway) (user : User) : Option RayCluster → Step
  | some c =>
    if live c then
      if c.owner ≠ user.owner then refuseOthers g user
      else ⟨noteUse w g user.cluster, none, [.running user]⟩
    else refuse g .notFound ((g.neverStarted.get? user.cluster).getD
      "You have no Ray cluster: one is removed once idle, with the records and logs of its jobs.")
  | none => refuse g .notFound ((g.neverStarted.get? user.cluster).getD
      "You have no Ray cluster: one is removed once idle, with the records and logs of its jobs.")

def resumeOwn (g : Gateway) (user : User) (method : Method) (found : Option RayCluster) : Step :=
  match found.filter live, method with
  | none, .delete _ => refuse g .notFound "You have no Ray cluster."
  | none, _ => ⟨g, none, []⟩
  | some c, method =>
    if c.owner ≠ user.owner then refuseOthers g user
    else
      match method with
      | .delete true => awaiting g (.delete user.cluster removedByUser .byUser)
      | .delete false => awaiting g (.ownBusy user)
      | _ => ⟨g, none, []⟩

/-- `delete` once Kubernetes took it: the name is no longer known started, and the clients
it served hear why. -/
def deleted (w : World) (g : Gateway) (name why : String) : Gateway :=
  let ids := (g.clients.get? name).getD []
  { g with
    started := g.started.pop name
    clients := g.clients.pop name
    gone := ids.foldl (fun d id => Dict.set d id (w.now + goneS, why)) g.gone }

def resumeClose (w : World) (g : Gateway) (name : String) : AfterDelete → Step
  | .replace user shape goal mix => awaiting g (.gone user shape goal mix)
  | .openHead => refuse g .invalidArgument openHead
  | .byUser => ⟨{ g with lastUsed := g.lastUsed.pop name }, none, []⟩
  | .unprovisioned p =>
    nextReap w { g with lastUsed := g.lastUsed.pop name,
                        neverStarted := g.neverStarted.set name removedUnprovisioned } p.now p.rest
  | .idle p => nextReap w { g with lastUsed := g.lastUsed.pop name } p.now p.rest

/-- The busy branch of a pass restarts the idle clock at the pass's own beginning. -/
def reapBusy (g : Gateway) (name : String) (now : ℤ) : Gateway :=
  { g with lastUsed := g.lastUsed.set name now }

/-- `last_used.setdefault(name, now)`. -/
def seen (g : Gateway) (name : String) (now : ℤ) : Gateway :=
  match g.lastUsed.get? name with
  | some _ => g
  | none => { g with lastUsed := g.lastUsed.set name now }

def resumeReap (w : World) (g : Gateway) (c : RayCluster) (p : Pass) (busy : Bool) : Step :=
  if busy then nextReap w (reapBusy g c.name p.now) p.now p.rest
  else
    let g := seen g c.name p.now
    if idleTimeoutS ≤ p.now - (g.lastUsed.get? c.name).getD p.now then
      ⟨g, some (.delete c.name removedIdle (.idle p)), [.deletesIdle c.name]⟩
    else nextReap w g p.now p.rest

def stopping : String := "Your Ray cluster runs tasks or jobs: wait for them, or stop it anyway."

def resume (w : World) (g : Gateway) (pc : Pc) (a : Answer) : Option Step :=
  match pc, a with
  | .caller call, .done => some (entered w g call)
  | .caller _, .failed said => some (refuse g .unavailable ("JupyterHub answered HTTP " ++ said ++ "."))
  | .caller _, _ => some (raised g)
  | .read user shape goal, .cluster c => some (resumeRead w g user shape goal c)
  | .read _ _ _, .failed said => some (refuseStatus g said "for the Ray cluster")
  | .read _ _ _, _ => some (raised g)
  | .busyOld user shape goal old, .bool b =>
    if b then
      some (refuse g .failedPrecondition
        "Your Ray cluster runs other settings, and tasks or jobs: wait for them, or stop them.")
    else some (admission g user shape (heldGpus old.groups) (.replace goal))
  | .lock a, .done => if g.admitting then none else some (awaiting { g with admitting := true } (.list a))
  | .list a, .clusters cs =>
    let grants := liveGrants w.now g.grants
    some (awaiting { g with grants := grants }
      (.free a w.now (grantedBut a.name grants) (Dict.pop (othersOf cs) a.name)))
  | .list _, .failed said =>
    some (refuseStatus { g with admitting := false } said "for the Ray clusters")
  | .list _, _ => some (raised { g with admitting := false })
  | .free a now granted others, .free f => some (decided g a now (a.scene f granted others))
  | .delete name why after, .done => some (awaiting (deleted w g name why) (.close name after))
  | .delete _ _ after, .failed said =>
    some (deleteFailed w g (refuseStatus g said "deleting the Ray cluster") after)
  | .delete _ _ after, _ => some (deleteFailed w g (raised g) after)
  | .close name after, .done => some (resumeClose w g name after)
  | .gone user shape goal mix, .done => some (awaiting g (.post user shape goal mix))
  | .gone _ _ _ _, .failed said => some (refuseWait g said "Kubernetes answered HTTP "
      "Your previous Ray cluster is still shutting down: try again in a minute.")
  | .gone _ _ _ _, _ => some (raised g)
  | .post user shape goal _, .created _ =>
    some (awaiting { g with neverStarted := g.neverStarted.pop user.cluster }
      (.headUp user shape goal))
  | .post user shape goal _, .conflict => some (awaiting g (.conflict user shape goal))
  | .post user _ _ _, .failed said =>
    some (refuse { g with grants := g.grants.pop user.cluster } .unavailable
      ("Could not create your Ray cluster: " ++ said))
  | .post _ _ _ _, _ => some (raised g)
  | .conflict user shape goal, .cluster c => some (resumeConflict g user shape goal c)
  | .conflict _ _ _, .failed said => some (refuseStatus g said "for the Ray cluster")
  | .conflict _ _ _, _ => some (raised g)
  | .headUp user shape goal, .done => some (awaiting g (.headOpen user shape goal))
  | .headUp _ _ _, .failed said => some (refuseWait g said
      "Could not create your Ray cluster's token: "
      "Your Ray cluster's head did not start in time: try again later.")
  | .headUp _ _ _, _ => some (raised g)
  | .headOpen user shape goal, .bool isOpen =>
    if isOpen then some (awaiting g (.delete user.cluster removedIdle .openHead))
    else some (found w { g with started := g.started.set user.cluster (user.owner, shape) }
      user shape goal)
  | .postJob _ _ _ _, .done => some ⟨g, none, []⟩
  | .postJob user _ key _, .failed said =>
    some (refuse { g with grants := g.grants.pop (jobName user.owner user.cluster key) }
      .unavailable ("Could not create your Ray job: " ++ said))
  | .postJob _ _ _ _, _ => some (raised g)
  | .running user, .cluster c => some (resumeRunning w g user c)
  | .running _, .failed said => some (refuseStatus g said "for the Ray cluster")
  | .running _, _ => some (raised g)
  | .ownRead user method, .cluster c => some (resumeOwn g user method c)
  | .ownRead _ _, .failed said => some (refuseStatus g said "for the Ray cluster")
  | .ownRead _ _, _ => some (raised g)
  | .ownBusy user, .bool busy =>
    if busy then some (refuse g .failedPrecondition stopping)
    else some (awaiting g (.delete user.cluster removedByUser .byUser))
  | .relaying cluster, .request => some (awaiting (noteUse w g cluster) (.relaying cluster))
  | .relaying cluster, .ended unavailable =>
    some ⟨if unavailable then { g with started := g.started.pop cluster } else g, none, []⟩
  | .reapList, .clusters cs => some (nextReap w g w.now cs)
  | .reapList, _ => some ⟨{ g with reaping := false }, none, []⟩
  | .reapBusy c p, .bool busy => some (resumeReap w g c p busy)
  | _, _ => none

def RayJob.cluster (w : World) (j : RayJob) (ending : String) : RayCluster where
  name := j.name ++ "-" ++ ending
  uid := w.uids
  owner := j.user.owner
  shape := j.shape
  groups := j.groups
  rayJob := some j.name
  created := w.now

def env (w : World) (g : Gateway) : Move → Option (World × Gateway)
  | .tick d => some ({ w with now := w.now + d }, g)
  | .remove uid =>
    some ({ w with clusters := w.clusters.filter fun c => !(c.uid = uid && c.deleting) }, g)
  | .ready uid up => some (w.mark (fun c => c.uid = uid) fun c => { c with ready := up }, g)
  | .provision uid all =>
    some (w.mark (fun c => c.uid = uid) fun c => { c with provisioned := some all }, g)
  | .makeCluster key ending =>
    match w.rayJobs.find? fun j => j.key = key && !j.made with
    | some j =>
      if (w.find (j.name ++ "-" ++ ending)).isSome then none
      else some ({ w.add (j.cluster w ending) with
        rayJobs := w.rayJobs.map fun i => if i = j then { i with made := true } else i }, g)
    | none => none
  | .expireCluster uid =>
    some (w.mark (fun c => c.uid = uid && c.rayJob.isSome) fun c => { c with deleting := true }, g)
  | .removeJob key => some ({ w with rayJobs := w.rayJobs.filter fun j => j.key ≠ key }, g)
  | .declare account => some ({ w with accounts := account :: w.accounts }, g)
  | .withdraw account => some ({ w with accounts := w.accounts.filter (· ≠ account) }, g)
  | .silent cluster => some (w, { g with started := g.started.pop cluster })

def program : Program World Gateway Pc Answer Call Event Choice Move :=
  ⟨start, serve, resume, env⟩

abbrev St := State World Gateway Pc Answer
abbrev Act := Action Call Choice Move

def initial : St where
  world := ⟨0, [], [], 0, []⟩
  mem := ⟨[], [], [], [], [], [], false, false, []⟩
  threads := []

/-- The awaits of a coroutine answered one after the other, each as chosen. -/
def answers (t : ℕ) (choices : List Choice) : List Act :=
  choices.flatMap fun c => [.serve t c, .resume t]

/-- The awaits of a call that creates its user's cluster, up to the wait for its head. -/
def creating (t : ℕ) : List Act :=
  answers t [.ok, .ok, .ok, .ok, .free none, .ok]

def hubUser : User := { name := "alice", account := "alice", uid := 1, gid := 1 }

def workloadUser : User :=
  { name := "alice", account := "alice", uid := 2, gid := 2, workload := true }

def shapeOf (workers : String) : Shape :=
  ⟨"/cvmfs/env", workers, "16", "4", "16", "1", "1", "purdue"⟩

end PurdueAF.RayClusters
