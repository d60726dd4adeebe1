import PurdueAF.Dict
import PurdueAF.Machine
import PurdueAF.PyJson
import Mathlib.Data.List.Sort

/-!
# The exporter of the nodes' mounts

A pass reads the nodes and the probe pods, asks the probes for their results, and publishes what
they say. Nodes, pods and results are kept over the passes that cannot read them anew, and the
gauges keep each label set until it is removed.
-/
namespace PurdueAF.NodeMonitor
open Py Binary64 Machine

structure Condition where
  type : String
  status : String
  deriving DecidableEq, Repr

/-- The name is empty where a node has no metadata. -/
structure Node where
  name : String
  conditions : List Condition
  deriving DecidableEq, Repr

inductive Pool
  | prod | dev
  deriving DecidableEq, Repr

def otherPool : Pool → Pool
  | .prod => .dev
  | .dev => .prod

structure Row where
  name : String
  pool : Pool
  ready : Bool
  deriving DecidableEq, Repr

/-- `_node_is_ready` -/
def nodeIsReady (node : Node) : Bool :=
  node.conditions.any fun c => c.type = "Ready" && c.status = "True"

/-- What the two selectors listed. -/
structure Listing where
  prod : List Node
  dev : List Node
  deriving DecidableEq, Repr

def rowsOf (pool : Pool) (nodes : List Node) : List Row :=
  (nodes.filter (·.name ≠ "")).map fun node => ⟨node.name, pool, nodeIsReady node⟩

def Listing.rows (l : Listing) : List Row := rowsOf .prod l.prod ++ rowsOf .dev l.dev

/-- The first match wins: a node labelled both is production. -/
def addRow (byName : Dict String (Pool × Bool)) (row : Row) : Dict String (Pool × Bool) :=
  match byName.get? row.name with
  | some _ => byName
  | none => byName ++ [(row.name, (row.pool, row.ready))]

def Listing.byName (l : Listing) : Dict String (Pool × Bool) := l.rows.foldl addRow []

/-- The cached nodes, NotReady ones included so their gauges get cleared. -/
def Listing.nodes (l : Listing) : List Row :=
  (l.byName.map fun e => ⟨e.1, e.2.1, e.2.2⟩).insertionSort fun a b => a.name ≤ b.name

def mounts : List String := ["/depot/", "/work/", "eos", "cvmfs"]

inductive Gauge
  | valid | pingMs | dataRateGbps | metadataLatencyMs | resultFresh | probeUp
  deriving DecidableEq, Repr

def allMountGauges : List Gauge :=
  [.valid, .pingMs, .dataRateGbps, .metadataLatencyMs, .resultFresh, .probeUp]

structure Labels where
  mountName : String
  node : String
  nodePool : Pool
  deriving DecidableEq, Repr

/-- What is exported: a value for each label set of each gauge. -/
abbrev Series := Dict (Gauge × Labels) Value

def put (st : Series) (gauge : Gauge) (labels : Labels) (x : Value) : Series :=
  st.set (gauge, labels) x

/-- `_clear_gauges` -/
def clearGauges (st : Series) (labels : Labels) (gauges : List Gauge) : Series :=
  gauges.foldl (fun st gauge => st.pop (gauge, labels)) st

def clearMountGauges (st : Series) (labels : Labels) : Series :=
  clearGauges st labels allMountGauges

def clearNodePoolGauges (st : Series) (node : String) (pool : Pool) : Series :=
  mounts.foldl (fun st mount => clearMountGauges st ⟨mount, node, pool⟩) st

structure Settings where
  pingTimeoutS : Value
  metadataTimeoutS : Value
  resultStaleWindowS : Value
  clockSkewToleranceS : Value
  nodeCacheTtlS : Value
  podCacheTtlS : Value
  mountSetupGraceS : Value
  mountSetupRestarts : ℤ

def defaults : Settings :=
  ⟨.finite 3, .finite 10, .finite 1800, .finite 300, .finite 300, .finite 300, .finite 600, 3⟩

def timeoutMs (seconds : Value) : Value := mul seconds (.finite 1000)

def bit (b : Bool) : Value := .finite (if b then 1 else 0)

/-- `None` means the pod list could not be read: absent, not 0. -/
def publishProbeUp (st : Series) (labels : Labels) : Option Bool → Series
  | none => clearGauges st labels [.probeUp]
  | some ready => put st .probeUp labels (bit ready)

def publishSentinels (cfg : Settings) (st : Series) (labels : Labels) (fresh : Bool) : Series :=
  let st := put st .valid labels (.finite 0)
  let st := put st .pingMs labels (timeoutMs cfg.pingTimeoutS)
  let st := put st .metadataLatencyMs labels (timeoutMs cfg.metadataTimeoutS)
  let st := put st .dataRateGbps labels (.finite 0)
  put st .resultFresh labels (bit fresh)

structure Probe where
  ready : Bool
  ip : String
  port : ℤ
  setupFailed : Bool
  deriving DecidableEq, Repr

def defaultProbePort : ℤ := 8080

def Probe.new : Probe := ⟨false, "", defaultProbePort, false⟩

/-- `running` is false where the container has no state, the reasons empty where there is none. -/
structure ContainerStatus where
  running : Bool
  waitingReason : String
  terminatedReason : String
  restartCount : ℤ
  deriving DecidableEq, Repr

structure PodStatus where
  phase : String
  conditions : List Condition
  podIp : String
  containers : List ContainerStatus
  deriving DecidableEq, Repr

/-- `ports` are those of all its containers, by name. -/
structure Pod where
  mount : String
  nodeName : String
  terminating : Bool
  created : Option Value
  ports : List (String × ℤ)
  status : Option PodStatus
  deriving DecidableEq, Repr

/-- `_probe_pod_ready` -/
def probePodReady (pod : Pod) : Bool :=
  if pod.terminating then false
  else
    match pod.status with
    | none => false
    | some status =>
      status.phase = "Running" &&
        match status.conditions.find? fun c => c.type = "Ready" with
        | some c => c.status = "True"
        | none => false

def probePort (pod : Pod) : ℤ :=
  ((pod.ports.find? fun p => p.1 = "http").map Prod.snd).getD defaultProbePort

/-- `_mount_setup_failed` -/
def mountSetupFailed (cfg : Settings) (pod : Pod) (now : Value) : Bool :=
  if pod.terminating then false
  else
    match pod.status with
    | none => false
    | some status =>
      let waited := match pod.created with
        | some created => sub now created
        | none => .finite 0
      let stuck := status.phase = "Pending" && status.conditions.any fun c =>
        c.type = "PodReadyToStartContainers" && c.status = "False" && lt cfg.mountSetupGraceS waited
      let unbound := status.containers.any fun cs =>
        !cs.running &&
          (cs.waitingReason = "RunContainerError" || cs.terminatedReason = "ContainerCannotRun") &&
          decide (cfg.mountSetupRestarts ≤ cs.restartCount)
      stuck || unbound

/-- The mount's name in a pod's label, and the node. -/
abbrev Key := String × String

/-- One pod of the list; two of one node exist briefly during a rollout, and Ready wins. -/
def addPod (cfg : Settings) (now : Value) (probes : Dict Key (Probe × Bool)) (pod : Pod) :
    Dict Key (Probe × Bool) :=
  if pod.mount = "" ∨ pod.nodeName = "" then probes
  else
    let key := (pod.mount, pod.nodeName)
    let (probe, failed) := (probes.get? key).getD (.new, false)
    let ready := probePodReady pod
    let ip := (pod.status.map (·.podIp)).getD ""
    let probe :=
      if ip ≠ "" ∧ pod.terminating = false ∧ (ready ∨ probe.ip = "") then
        { probe with ip := ip, port := probePort pod }
      else probe
    probes.set key ({ probe with ready := probe.ready || ready },
      failed || mountSetupFailed cfg pod now)

/-- `_list_probe_pods` of what the API listed. -/
def listProbePods (cfg : Settings) (now : Value) (pods : List Pod) : Dict Key Probe :=
  (pods.foldl (addPod cfg now) []).map fun e =>
    (e.1, { e.2.1 with setupFailed := e.2.2 && !e.2.1.ready })

abbrev Data := List (String × Json)

def Data.getD (data : Data) (key : String) (default : Json) : Json :=
  (List.lookup key data).getD default

/-- A timestamp that is no number reads as 0. -/
def timestampOf (data : Data) : Except Exc Value :=
  match (data.getD "timestamp" (.int 0)).toFloat with
  | .error .typeError | .error .valueError => .ok (.finite 0)
  | result => result

def timeoutOf (data : Data) : Bool := (data.getD "timeout" (.bool false)).truthy

def okOf (data : Data) : Bool := (data.getD "ok" (.bool false)).truthy && !timeoutOf data

/-- A value of the result, where it has one. -/
def measured (data : Data) (key : String) : Except Exc (Option Value) :=
  match data.getD key .null with
  | .null => .ok none
  | x => x.toFloat.map some

def putMeasured (st : Series) (gauge : Gauge) (labels : Labels) : Option Value → Series
  | some x => put st gauge labels x
  | none => st

/-- Not measured yet: absent, not a zero rate left by an earlier sentinel. -/
def putRate (st : Series) (labels : Labels) (ok : Bool) : Option Value → Series
  | some x => put st .dataRateGbps labels x
  | none =>
    if ok then clearGauges st labels [.dataRateGbps] else put st .dataRateGbps labels (.finite 0)

def putSentinel (st : Series) (gauge : Gauge) (labels : Labels) (seconds : Value) :
    Option Value → Series
  | some _ => st
  | none => put st gauge labels (timeoutMs seconds)

/-- The measurements of a check that did not time out. -/
def publishMeasured (cfg : Settings) (st : Series) (labels : Labels) (data : Data) (ok : Bool) :
    Except Exc Series := do
  let ping ← measured data "ping_ms"
  let latency ← measured data "metadata_ms"
  let gbps ← measured data "throughput_gbps"
  let st := putMeasured st .pingMs labels ping
  let st := putMeasured st .metadataLatencyMs labels latency
  let st := putRate st labels ok gbps
  return if ok then st
    else putSentinel (putSentinel st .pingMs labels cfg.pingTimeoutS ping) .metadataLatencyMs labels
      cfg.metadataTimeoutS latency

/-- A check that timed out: a measured ping stands. -/
def publishTimeout (cfg : Settings) (st : Series) (labels : Labels) (data : Data) :
    Except Exc Series := do
  let ping ← measured data "ping_ms"
  let st := put st .pingMs labels (ping.getD (timeoutMs cfg.pingTimeoutS))
  let st := put st .metadataLatencyMs labels (timeoutMs cfg.metadataTimeoutS)
  return put st .dataRateGbps labels (.finite 0)

def publishResult (cfg : Settings) (now : Value) (st : Series) (labels : Labels) (data : Data) :
    Except Exc Series := do
  let timestamp ← timestampOf data
  -- A missing or future-dated timestamp cannot say whether the check is recent.
  if le timestamp (.finite 0) || lt (add now cfg.clockSkewToleranceS) timestamp then
    return publishSentinels cfg st labels false
  let ok := okOf data
  let stale := lt cfg.resultStaleWindowS (sub now timestamp)
  if stale && ok then return publishSentinels cfg st labels false
  let st := put st .valid labels (bit ok)
  let st := put st .resultFresh labels (.finite 1)
  if timeoutOf data then publishTimeout cfg st labels data
  else publishMeasured cfg st labels data ok

structure State where
  k8sReady : Bool
  afNodes : List Row
  lastNodeRefresh : Value
  nodePools : Dict String Pool
  probeCache : Option (Dict Key Probe)
  probeCacheTs : Value
  resultCache : Dict Key Data
  series : Series
  resultsAvailable : Option Value

def start : State := ⟨false, [], .finite 0, [], none, .finite 0, [], [], none⟩

/-- What a pass meets: whether the client initializes where it is tried, the times it reads, what
each list gives (`none` for an error), and the probes that answer with an object in time. -/
structure Pass where
  initNodes : Bool
  initPods : Bool
  refreshNow : Value
  now : Value
  prod : Option (List Node)
  dev : Option (List Node)
  pods : Option (List Pod)
  answers : Dict Key Data

/-- The listing that a pass reads, where the cached nodes are too old or none. -/
def listingRead (cfg : Settings) (s : State) (p : Pass) : Option Listing :=
  if !(s.k8sReady || p.initNodes) then none
  else if !s.afNodes.isEmpty && lt (sub p.refreshNow s.lastNodeRefresh) cfg.nodeCacheTtlS then none
  else
    match p.prod, p.dev with
    | some prod, some dev => some ⟨prod, dev⟩
    | _, _ => none

/-- Drops the gauges of the pool a node is not in, and of the nodes that left. -/
def clearListed (st : Series) (prevPools : Dict String Pool) (l : Listing) : Series :=
  let st := l.byName.foldl (fun st e => clearNodePoolGauges st e.1 (otherPool e.2.1)) st
  prevPools.foldl (fun st e =>
    if (l.byName.get? e.1).isNone then clearNodePoolGauges st e.1 e.2 else st) st

def refreshNodeCaches (cfg : Settings) (s : State) (p : Pass) : State :=
  let s' := { s with k8sReady := s.k8sReady || p.initNodes }
  match listingRead cfg s p with
  | some l =>
    { s' with
      series := clearListed s.series s.nodePools l
      nodePools := l.byName.map fun e => (e.1, e.2.1)
      afNodes := l.nodes
      lastNodeRefresh := p.refreshNow }
  | none => s'

/-- `_list_af_nodes`, after the refresh. -/
def listAfNodes (s : State) : List Row := if s.k8sReady then s.afNodes else []

/-- `_probe_pods`: a list that failed falls back to the last good one for a while. -/
def probePods (cfg : Settings) (s : State) (p : Pass) : Option (Dict Key Probe) × State :=
  let s := { s with k8sReady := s.k8sReady || p.initPods }
  match if s.k8sReady then p.pods.map (listProbePods cfg p.now) else none with
  | some probes => (some probes, { s with probeCache := some probes, probeCacheTs := p.now })
  | none =>
    if s.probeCache.isSome && lt (sub p.now s.probeCacheTs) cfg.podCacheTtlS then (s.probeCache, s)
    else (none, s)

def targetsOf (afNodes : List Row) (probes : Option (Dict Key Probe)) : Dict Key Probe :=
  (probes.getD []).filter fun e =>
    e.2.ip ≠ "" && afNodes.any fun row => row.ready && row.name = e.1.2

def fetchAll (targets : Dict Key Probe) (answers : Dict Key Data) : Dict Key Data :=
  targets.filterMap fun e => (answers.get? e.1).map fun data => (e.1, data)

/-- `name.strip("/")` -/
def stripSlashes (name : List Char) : List Char :=
  ((name.dropWhile (· = '/')).reverse.dropWhile (· = '/')).reverse

def sanitizedMountName (name : String) : String :=
  let clean := String.ofList ((stripSlashes name.toList).map fun c => if c = '/' then '_' else c)
  if clean = "" then "root" else clean

/-- What a pass has read when it comes to publish. -/
structure Read where
  now : Value
  probes : Option (Dict Key Probe)
  fetched : Dict Key Data
  cache : Dict Key Data
  workingNodes : List String

def publishRow (cfg : Settings) (r : Read) (st : Series) (at_ : String × Row) :
    Except Exc Series :=
  let (mount, row) := at_
  let labels := ⟨mount, row.name, row.pool⟩
  -- NotReady: probes cannot report, so null.
  if !row.ready then .ok (clearMountGauges st labels)
  else
    let key := (sanitizedMountName mount, row.name)
    let probe := r.probes.bind (·.get? key)
    let probeUp := r.probes.map fun _ => probe.any (·.ready) && (r.fetched.get? key).isSome
    let st := publishProbeUp st labels probeUp
    if probe.any (·.setupFailed) && decide (row.name ∈ r.workingNodes) then
      .ok (publishSentinels cfg st labels true)
    else
      match r.cache.get? key with
      | none | some [] => .ok (publishSentinels cfg st labels false)
      | some data => publishResult cfg r.now st labels data

def publishAll (cfg : Settings) (r : Read) (afNodes : List Row) (st : Series) :
    Except Exc Series :=
  (mounts.flatMap fun mount => afNodes.map fun row => (mount, row)).foldlM (publishRow cfg r) st

/-- The results a pass gets. -/
def fetchedIn (cfg : Settings) (s : State) (p : Pass) : Dict Key Data :=
  let s := refreshNodeCaches cfg s p
  fetchAll (targetsOf (listAfNodes s) (probePods cfg s p).1) p.answers

/-- `update_metrics` -/
def updateMetrics (cfg : Settings) (s : State) (p : Pass) : Except Exc State := do
  let fetched := fetchedIn cfg s p
  let s := refreshNodeCaches cfg s p
  let afNodes := listAfNodes s
  let pods := probePods cfg s p
  let targets := targetsOf afNodes pods.1
  let cache := pods.2.resultCache.overlay fetched
  let expected := (targets.filter (·.2.ready)).map Prod.fst
  let answered := expected.filter fun key => (fetched.get? key).isSome
  let r := ⟨p.now, pods.1, fetched, cache, answered.map Prod.snd⟩
  let series ← publishAll cfg r afNodes pods.2.series
  let available :=
    if expected.isEmpty then bit !(afNodes.any (·.ready))
    else nearest (answered.length / expected.length)
  return { pods.2 with resultCache := cache, series := series, resultsAvailable := some available }

/-- A pass that completes. -/
def step (cfg : Settings) (s : State) (p : Pass) : Option State := (updateMetrics cfg s p).toOption

end PurdueAF.NodeMonitor
