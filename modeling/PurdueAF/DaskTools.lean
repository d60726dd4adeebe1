import PurdueAF.AgentTools

/-!
# The tools that make and scale Dask clusters

`create_dask_cluster` and `scale_dask_cluster` of the agentic interface, up to the user they ask
for the choices that are missing, the gateway and the clock.
-/
namespace PurdueAF.DaskTools
open Asking AgentTools Py Binary64

/-- The body of a creation: an empty project or environment is none. -/
structure Options where
  workerCores : Value
  workerMemory : Value
  env : Dict String String
  pixiProject : String
  pixiEnv : String
  condaEnv : String

structure PixiChoice where
  pixiProject : String
  pixiEnv : String

/-- The form takes positive numbers only. -/
structure CustomSize where
  workerCores : Value
  workerMemory : Value
  coresPositive : lt (.finite 0) workerCores = true
  memoryPositive : lt (.finite 0) workerMemory = true

/-- The questions of a creation. -/
inductive Form
  | env | pixi | conda | size | customSize | count | customCount
  deriving DecidableEq, Repr

/-- What the user answers a question with; of choices any text, as the client may send it. -/
@[reducible] def Form.Data : Form → Type
  | .env | .conda | .size | .count => String
  | .pixi => PixiChoice
  | .customSize => CustomSize
  | .customCount => ℕ

inductive Call
  | create (options : Options)
  | record (cluster action : String)
  | scale (cluster : String) (workers : ℤ)

inductive Request
  | elicit (form : Form)
  | gateway (call : Call)
  | now
  | sleep (seconds : ℚ)

/-- A question may be declined. -/
@[reducible] def Answer : Request → Type
  | .elicit form => Option form.Data
  | .gateway _ => Except Unreached Response
  | .now => ℚ
  | .sleep _ => Unit

abbrev Talk := Raising Request Answer Raised

def clock : Clock Request Answer := ⟨.now, id, .sleep⟩

def service : String := "Dask Gateway"

def Call.action : Call → String
  | .create _ => "create the cluster"
  | .record _ action => action
  | .scale _ workers => s!"scale to {workers} worker(s)"

def Call.cluster : Call → Option String
  | .create _ => none
  | .record cluster _ | .scale cluster _ => some cluster

/-- The statuses that the caller handles itself. -/
def Call.ok : Call → List ℕ
  | .create _ => [200, 201]
  | .record _ _ => [200]
  | .scale _ _ => [200, 204]

section Tools
variable (w : Words)

def gatewayHttpError (resp : Response) (action : String) (cluster : Option String) : Raised :=
  let code := resp.status
  if code = 401 ∨ code = 403 then
    authError (s!"Error: not authorised on {service} to {action} (HTTP {code}). " ++
      "If you believe you should have access, contact AF support.")
  else match (if code = 404 then cluster.filter (· ≠ "") else none) with
  | some cluster =>
    userError (s!"Cluster '{cluster}' not found. Call list_dask_clusters for " ++
      "the current names.")
  | none =>
    if code = 409 ∨ code = 422 then
      let detail := responseDetail w resp 400
      let reason := if detail ≠ "" then detail else "no reason given"
      userError s!"Error: {service} rejected the request to {action} — {reason}."
    else httpError w service resp action

/-- `_gateway` -/
def gateway (call : Call) : Talk Response := do
  let answer : Except Unreached Response ← ask (Request.gateway call)
  match answer with
  | .error e => throw (unreachable service e "")
  | .ok resp =>
    if resp.status ∈ call.ok then return resp
    else throw (gatewayHttpError w resp call.action call.cluster)

def clusterRecord (cluster action : String) : Talk (List (String × Json)) := do
  let resp ← gateway w (.record cluster action)
  match resp.json with
  | some (.dict record) => return record
  | _ => throw (.failure (malformedResponse w service resp "a cluster record"))

/-- The status word in a record. -/
def statusIn (record : List (String × Json)) : String :=
  w.upper (w.str ((Json.lookup record "status").or (.str "UNKNOWN")))

def clusterStatus (cluster : String) : Talk String := do
  let record ← clusterRecord w cluster s!"check the state of cluster '{cluster}'"
  return statusIn w record

def schedulerReadyTimeout : ℚ := 120
def schedulerPollInterval : ℚ := 3

def terminalStatuses : List String := ["STOPPING", "STOPPED", "FAILED"]

/-- One round of `_await_scheduler`, up to the clock. -/
def lookAtScheduler (cluster : String) (_ : String) : Talk (String ⊕ Unit) := do
  let status ← clusterStatus w cluster
  if status = "RUNNING" then return .inr ()
  else if status ∈ terminalStatuses then
    throw (userError (s!"Error: cluster '{cluster}' is {status} — it will not " ++
      "accept workers. Call list_dask_clusters to confirm, then " ++
      "create_dask_cluster for a fresh one; query_dask_logs shows why " ++
      "the scheduler stopped."))
  else return .inl status

/-- `_await_scheduler`, in at most so many looks. -/
def awaitScheduler (looks : ℕ) (cluster : String) : Talk (String × ℚ) := do
  let begun ← ask .now
  let start ← ask .now
  let waited ← wait clock schedulerPollInterval (begun + schedulerReadyTimeout)
    (lookAtScheduler w cluster) looks ""
  match waited with
  | .seen _ =>
    let now ← ask .now
    return ("RUNNING", now - start)
  | .expired status =>
    let now ← ask .now
    return (status, now - start)
  | .unfinished => throw .unfinished

/-- What the gateway said of a count that it did not take. -/
def clampedIn (resp : Response) : Option String :=
  match resp.json with
  | some (.dict answer) =>
    match Json.lookup answer "ok" with
    | .bool false =>
      let untaken := s!"{service} did not take that worker count."
      some (w.str ((Json.lookup answer "msg").or (.str untaken)))
    | _ => none
  | _ => none

/-- `_scale` -/
def scale (cluster : String) (workers : ℤ) : Talk (Option String) := do
  let resp ← gateway w (.scale cluster workers)
  return clampedIn w resp

/-- Goes on unless the failure is due. -/
def refuse (due : Bool) (text : String) : Talk Unit :=
  if due then throw (userError text) else return ()

def checkWorkerCount (workers : ℤ) : Talk Unit :=
  refuse (workers < 0) "Error: n_workers must be ≥ 0."

/-- `create_dask_cluster`'s arguments. -/
structure CreateArgs where
  envSource : Option String
  pixiProject : Option String
  pixiEnv : String
  condaEnv : Option String
  workerCores : Option Value
  workerMemory : Option Value
  nWorkers : Option ℤ
  env : Option (Dict String Json)

def baseWorkerEnv (username : String) (extra : Option (Dict String Json)) : Dict String String :=
  let env : Dict String String := [
    ("PATH", "/usr/local/sbin:/usr/local/bin:/usr/sbin:/usr/bin:/sbin:/bin"),
    ("HOME", s!"/home/{username}"),
    ("USER", username),
    ("LOGNAME", username)]
  (extra.getD []).foldl (fun env e =>
    match e.2 with
    | .null => env
    | value => env.set e.1 (w.str value)) env

def buildClusterOptions (username : String) (pixiProject : Option String) (pixiEnv : String)
    (condaEnv : Option String) (workerCores workerMemory : Value)
    (env : Option (Dict String Json)) : Talk Options := do
  let pixi := strip (pixiProject.getD "")
  let conda := strip (condaEnv.getD "")
  refuse (pixi ≠ "" && conda ≠ "") ("Error: pixi_project and conda_env are mutually exclusive — " ++
    "specify only one.")
  refuse (pixi = "" && conda = "")
    ("Error: provide either pixi_project (directory with pixi.toml) " ++ "or conda_env (path to a conda/pixi env prefix).")
  let env := baseWorkerEnv w username env
  if pixi ≠ "" then
    let name := strip (if pixiEnv ≠ "" then pixiEnv else "default")
    return ⟨workerCores, workerMemory, env, pixi, if name ≠ "" then name else "default", ""⟩
  else return ⟨workerCores, workerMemory, env, "", "default", conda⟩

def defaultWorkerCores : Value := .finite 1
def defaultWorkerMemory : Value := .finite 4
def countChoices : List String := ["0", "10", "50"]

def createMenu (globalPixiProject : String) : String :=
  let counts := ", ".intercalate countChoices
  "1) worker environment — one of:\n" ++
  s!"   • global (default): shared pixi env at {globalPixiProject} — pass " ++
  "env_source='global'.\n" ++
  "   • your pixi project: pass pixi_project='/path' (+ optional pixi_env).\n" ++
  "   • your conda env: pass conda_env='/path'.\n" ++
  "2) worker size: default (1 core / 4 GiB) or custom (pass worker_cores + " ++
  "worker_memory in GiB).\n" ++
  s!"3) worker count to start with: {counts}, or a custom " ++
  "number (pass n_workers)."

def createChoicesHelp (globalPixiProject : String) : String :=
  "create_dask_cluster needs these choices from the user. Ask them (use the " ++
  "client's multiple-choice UI if available), then call create_dask_cluster " ++
  s!"again with explicit arguments:\n{createMenu globalPixiProject}"

variable (globalPixiProject : String)

/-- `ask` of `elicitation.py`: what is not answered, or cannot be asked, needs choices. -/
def choose (form : Form) : Talk form.Data := do
  let data : Option (Option form.Data) ← ExceptT.lift (Dialogue.attempt (Request.elicit form))
  match data.join with
  | some data => return data
  | none => throw (.needsChoices (createChoicesHelp globalPixiProject))

/-- `env_source`, from the paths that are given, as the caller named it or as the user chose it. -/
def envSource (a : CreateArgs) : Talk String :=
  if a.pixiProject.getD "" ≠ "" then return "pixi"
  else if a.condaEnv.getD "" ≠ "" then return "conda"
  else match a.envSource with
  | some source => return source
  | none => choose globalPixiProject .env

def resolveEnv (a : CreateArgs) : Talk (Option String × String × Option String) := do
  let source ← envSource globalPixiProject a
  if source = "global" then return (some globalPixiProject, "default", a.condaEnv)
  else if source = "pixi" then
    if a.pixiProject.getD "" ≠ "" then return (a.pixiProject, a.pixiEnv, a.condaEnv)
    else
      let choice ← choose globalPixiProject .pixi
      return (some choice.pixiProject, choice.pixiEnv, a.condaEnv)
  else if source = "conda" then
    if a.condaEnv.getD "" ≠ "" then return (a.pixiProject, a.pixiEnv, a.condaEnv)
    else
      let path ← choose globalPixiProject .conda
      return (a.pixiProject, a.pixiEnv, some path)
  else throw (userError
    s!"Error: unknown env_source '{source}'. Use 'global', 'pixi', or 'conda'.")

def resolveSize (workerCores workerMemory : Option Value) : Talk (Value × Value) :=
  match workerCores, workerMemory with
  | none, none => do
    let size ← choose globalPixiProject .size
    if size = "custom" then
      let size ← choose globalPixiProject .customSize
      return (size.workerCores, size.workerMemory)
    else return (defaultWorkerCores, defaultWorkerMemory)
  | workerCores, workerMemory =>
    return (workerCores.getD defaultWorkerCores, workerMemory.getD defaultWorkerMemory)

/-- Text that is no number is a `ValueError`, which no tool handles. -/
def resolveCount (nWorkers : Option ℤ) : Talk ℤ :=
  match nWorkers with
  | some workers => return workers
  | none => do
    let count ← choose globalPixiProject .count
    if count ≠ "custom" then
      match w.int count with
      | some workers => return workers
      | none => ExceptT.lift .fail
    else
      let workers ← choose globalPixiProject .customCount
      return workers

def workersPendingNext : List String := [
  "",
  "Workers start asynchronously: the pods are scheduled first, then register " ++
  "with the scheduler. get_dask_worker_count reads Prometheus, so its numbers " ++
  "trail reality by up to one scrape interval — a low or zero count in the " ++
  "first minute is expected, not a failed scale.",
  "Next: get_dask_worker_count after ~30-60 s. If it is still short after " ++
  "that, query_dask_logs shows what the workers are doing and " ++
  "get_facility_health shows whether the facility is short of capacity."]

/-- The line about a wait that was one. -/
def becameRunning (waited : ℚ) : List String :=
  if schedulerPollInterval ≤ waited then [s!"Scheduler became RUNNING after {w.rounded waited} s."]
  else []

/-- `_start_workers` -/
def startWorkers (looks : ℕ) (cluster : String) (workers : ℤ) : Talk (List String) := do
  match ← catching (awaitScheduler w looks cluster) with
  | .error failed =>
    return ["", s!"Created with 0 workers — waiting for the scheduler failed: {failed.text}"]
  | .ok (status, waited) =>
    if status ≠ "RUNNING" then
      return ["",
        s!"Created with 0 workers: the scheduler was still {status} after " ++
        s!"{w.rounded waited} s, and the gateway only accepts workers once the " ++
        "cluster is RUNNING.",
        s!"Next: scale_dask_cluster('{cluster}', {workers}) — it " ++
        "waits for the scheduler too, so calling it again is usually all " ++
        "that is needed."]
    else
      match ← catching (scale w cluster workers) with
      | .error failed =>
        return ["", s!"Created with 0 workers — the scale request failed: {failed.text}",
          s!"Retry with scale_dask_cluster('{cluster}', {workers})."]
      | .ok clamped =>
        return becameRunning w waited ++
          [(clamped.filter (· ≠ "")).getD s!"Scaling to {workers} worker(s)."] ++ workersPendingNext

/-- The name in the answer to a creation, if it has one. -/
def nameIn (resp : Response) : Option String :=
  match resp.json with
  | some (.dict payload) =>
    let name := Json.lookup payload "name"
    if name.truthy then some (w.str name) else none
  | _ => none

/-- The lines on a cluster that was created. -/
def createdLines (cluster : String) (options : Options) : List String :=
  [s!"Cluster '{cluster}' created.",
    s!"workers: cores={w.number options.workerCores} " ++
      s!"memory={w.number options.workerMemory} GiB each",
    if options.pixiProject ≠ "" then
      s!"env: pixi_project={options.pixiProject} pixi_env={options.pixiEnv}"
    else s!"env: conda_env={options.condaEnv}"]

/-- The lines on the workers of a new cluster. -/
def firstWorkers (looks : ℕ) (cluster : String) (workers : ℤ) : Talk (List String) :=
  if workers = 0 then
    return ["", "Cluster starts with 0 workers. Next: scale_dask_cluster(...)."]
  else startWorkers w looks cluster workers

/-- The part of `create_dask_cluster` that settles what to create. -/
def resolveCreation (username : String) (a : CreateArgs) : Talk (Options × ℤ) := do
  a.nWorkers.elim (pure ()) checkWorkerCount
  refuse (a.workerCores.any fun cores => le cores (.finite 0)) "Error: worker_cores must be > 0."
  refuse (a.workerMemory.any fun memory => le memory (.finite 0))
    "Error: worker_memory must be > 0 (GiB)."
  let (pixiProject, pixiEnv, condaEnv) ← resolveEnv globalPixiProject a
  let (workerCores, workerMemory) ← resolveSize globalPixiProject a.workerCores a.workerMemory
  let workers ← resolveCount w globalPixiProject a.nWorkers
  let options ← buildClusterOptions w username pixiProject pixiEnv condaEnv workerCores workerMemory
    a.env
  return (options, workers)

/-- `create_dask_cluster`, whose wait makes at most so many looks. -/
def createDaskCluster (looks : ℕ) (username : String) (a : CreateArgs) : Talk String := do
  let (options, workers) ← resolveCreation w globalPixiProject username a
  let resp ← gateway w (.create options)
  match nameIn w resp with
  | none =>
    let malformed := malformedResponse w service resp "a cluster record with a name"
    throw (upstreamError (s!"{malformed.text} The cluster may have been created anyway — check " ++
      "list_dask_clusters before creating another."))
  | some cluster =>
    let more ← firstWorkers w looks cluster workers
    return "\n".intercalate (createdLines w cluster options ++ more)

/-- `_CLUSTER_NAME_RE.match`: the end may be before a last line break. -/
def validName (cluster : String) : Bool :=
  let name := match cluster.toList.reverse with
    | '\n' :: rest => rest
    | rest => rest
  name ≠ [] && name.all fun c => c.isAlphanum || c = '.' || c = '_' || c = '-'

def validateClusterName (cluster : String) : Talk Unit :=
  refuse (!validName cluster) (s!"Error: invalid cluster name {w.repr cluster} — use a name " ++
    "returned by list_dask_clusters.")

/-- `scale_dask_cluster`, whose wait makes at most so many looks. -/
def scaleDaskCluster (looks : ℕ) (cluster : String) (workers : ℤ) : Talk String := do
  validateClusterName w cluster
  checkWorkerCount workers
  let (status, waited) ← awaitScheduler w looks cluster
  if status ≠ "RUNNING" then
    return s!"No scale request was sent: cluster '{cluster}' was still " ++
      s!"{status} after {w.rounded waited} s, and the gateway only accepts " ++
      "workers once the cluster is RUNNING.\n" ++
      "Next: get_dask_cluster_info for the current status, or " ++
      "query_dask_logs if it stays pending — the scheduler pod may " ++
      "be waiting for capacity. Calling scale_dask_cluster again " ++
      "resumes the wait."
  else
    let clamped ← scale w cluster workers
    return "\n".intercalate (becameRunning w waited ++
      [(clamped.filter (· ≠ "")).getD s!"Cluster '{cluster}' scaling to {workers} worker(s)."] ++
      if workers ≠ 0 then workersPendingNext else [])

end Tools

end PurdueAF.DaskTools
