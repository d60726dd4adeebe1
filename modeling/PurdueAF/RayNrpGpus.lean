import PurdueAF.DefaultDict
import PurdueAF.RaySettings

/-!
# The workers NRP has room for

`nrp_gpus.py` joins the samples of five queries by node and sums them by GPU model, and the
gateway sizes a job on NRP by the sums. Amounts are exact rationals here.
-/
namespace PurdueAF.RayNrpGpus
open Ray Py Binary64

def gpu : String := "nvidia_com_gpu"

def memorySlack : ℚ := 19 / 20

structure Sample where
  metric : Dict String String
  value : ℚ
  deriving DecidableEq, Repr

/-- What Prometheus answers to the five queries. -/
structure Results where
  allocatable : List Sample
  requested : List Sample
  unschedulable : List Sample
  models : List Sample
  memory : List Sample
  deriving DecidableEq, Repr

/-- The requests of one Ray worker pod. -/
structure Worker where
  gpus : ℤ
  cpus : ℚ
  memoryGb : ℚ
  gpus_pos : 0 < gpus
  cpus_pos : 0 < cpus
  memoryGb_pos : 0 < memoryGb

/-- The GPUs of one model. -/
structure Model where
  memoryGb : Option ℚ
  gpus : ℤ
  freeGpus : ℤ
  workers : ℤ
  workersEmpty : ℤ
  deriving DecidableEq, Repr

def Model.none : Model := ⟨.none, 0, 0, 0, 0⟩

structure Room where
  workers : ℤ
  workersEmpty : ℤ
  /-- None for any GPU. -/
  models : Option (List String)
  deriving DecidableEq, Repr

/-- Amounts by resource: `defaultdict(float)`. -/
abbrev Amounts := String → ℚ

def nothing : Amounts := fun _ => 0

/-- The node, the resource and the amount of a sample; none for a `KeyError`. -/
def nodeSample (s : Sample) : Option (String × String × ℚ) := do
  let node ← s.metric.get? "node"
  let resource ← s.metric.get? "resource"
  return (node, resource, s.value)

def addAmount (row : String × String × ℚ) (has : Amounts) : Amounts :=
  fun resource => if resource = row.2.1 then has resource + row.2.2 else has resource

/-- What each GPU node has and what its pods hold, and the nodes that take no pods. -/
def freeByNode (allocatable requested unschedulable : List Sample) :
    Option (Dict String Amounts × Dict String Amounts × List String) := do
  let has ← allocatable.mapM nodeSample
  -- A pod not yet bound has no node, and holds nothing.
  let holds ← (requested.filter fun s => (s.metric.get? "node").isSome).mapM nodeSample
  let closed ← unschedulable.mapM fun s => s.metric.get? "node"
  return (Dict.upsertAll nothing Prod.fst addAmount [] has,
    Dict.upsertAll nothing Prod.fst addAmount [] holds, closed)

/-- How many workers fit beside what a node's pods hold. -/
def fitting (has held : Amounts) (worker : Worker) : ℤ :=
  let gpus := truncate (has gpu - held gpu)
  let cpus := has "cpu" - held "cpu"
  let memoryGb := (has "memory" - held "memory") / 2 ^ 30
  max (min (gpus.fdiv worker.gpus) (min ⌊cpus / worker.cpus⌋ ⌊memoryGb / worker.memoryGb⌋)) 0

/-- A node's part in the sums of its model. -/
def countNode (closed : List String) (held : Dict String Amounts) (worker : Worker)
    (entry : String × Amounts) (model : Model) : Model :=
  let (node, has) := entry
  let holds := (held.get? node).getD nothing
  let counted := { model with gpus := model.gpus + truncate (has gpu) }
  if closed.contains node then counted
  else
    { counted with
      freeGpus := counted.freeGpus + max (truncate (has gpu - holds gpu)) 0
      workers := counted.workers + fitting has holds worker
      workersEmpty := counted.workersEmpty + fitting has nothing worker }

def modelSample (s : Sample) : Option (String × String) := do
  let host ← s.metric.get? "Hostname"
  let name ← s.metric.get? "modelName"
  return (host, name)

def memorySample (s : Sample) : Option (String × ℚ) := do
  let name ← s.metric.get? "modelName"
  return (name, s.value * 2 ^ 20 / 10 ^ 9)

def setMemory (row : String × ℚ) (model : Model) : Model := { model with memoryGb := some row.2 }

/-- A node DCGM does not report is of the model "". -/
def modelOf (names : Dict String String) (node : String) : String := (names.get? node).getD ""

def sortedByName (models : Dict String Model) : Dict String Model :=
  List.mergeSort models fun a b => decide (a.1 ≤ b.1)

/-- The results of the five queries, summed by GPU model. -/
def byModel (r : Results) (worker : Worker) : Option (Dict String Model) := do
  let (free, held, closed) ← freeByNode r.allocatable r.requested r.unschedulable
  let names ← r.models.mapM modelSample
  let memory ← r.memory.mapM memorySample
  let known := Dict.upsertAll Model.none Prod.fst setMemory [] memory
  let out := Dict.upsertAll Model.none (fun e => modelOf (Dict.ofPairs names) e.1)
    (countNode closed held worker) known free
  return (sortedByName out).filter fun e => e.2.gpus ≠ 0

/-- The models whose GPUs have a memory; none, for any GPU, if it is 0. -/
def withMemory (models : Dict String Model) (memoryGb : ℚ) : Option (List String) :=
  if memoryGb = 0 then none
  else some ((models.filter fun e => e.1 ≠ "" ∧
    e.2.memoryGb.any fun memory => memoryGb * memorySlack ≤ memory).map Prod.fst)

/-- The workers that fit on GPUs of a memory or more, now and empty. -/
def room (models : Dict String Model) (memoryGb : ℚ) : Room :=
  let allowed := withMemory models memoryGb
  let held := models.filter fun e => allowed.all fun names => names.contains e.1
  ⟨(held.map (·.2.workers)).sum, (held.map (·.2.workersEmpty)).sum, allowed⟩

def wanted (shape : Shape) : ℤ := (int? shape.workers).getD 0

def least (shape : Shape) : ℤ := (int? shape.least).getD 0

/-- `float` of a shape's memory, which `:g` printed. -/
def memoryAsked (shape : Shape) : ℚ :=
  match if shape.memory = "" then some (.finite 0) else floatOfText shape.memory with
  | some (.finite memory) => memory
  | _ => 0

/-- The workers and the GPU models `start_nrp_job` builds a job of, or its refusal; the answers
are none where a query failed. -/
def startNrpJob (answers : Option Results) (worker : Worker) (shape : Shape) :
    Except Refused (ℤ × Option (List String)) :=
  let memory := memoryAsked shape
  let models := (answers.bind fun r => byModel r worker).getD []
  let space := room models memory
  if models = [] then
    .error ⟨.unavailable, "NRP's Prometheus shows none of its GPU nodes now: try again later."⟩
  else if space.models = some [] then
    .error ⟨.invalidArgument, "No GPU on NRP has " ++ formatG memory ++ " GB."⟩
  else if space.workersEmpty < least shape then
    let gpus := if memory = 0 then "GPU nodes" else "GPUs of " ++ formatG memory ++ " GB or more"
    .error ⟨.resourceExhausted, "Your job asks for " ++ toString (least shape) ++
      " workers, and NRP's " ++ gpus ++ " have room for at most " ++
      toString space.workersEmpty ++ ", empty: ask for fewer."⟩
  else .ok (min (wanted shape) (max space.workers (least shape)), space.models)

/-- So many workers fit a node together, beside what its pods hold. -/
def Fits (k : ℤ) (has held : Amounts) (worker : Worker) : Prop :=
  held gpu + k * worker.gpus ≤ has gpu ∧ held "cpu" + k * worker.cpus ≤ has "cpu" ∧
    held "memory" + k * worker.memoryGb * 2 ^ 30 ≤ has "memory"

theorem le_truncate_iff {k : ℤ} (hk : 0 < k) (q : ℚ) : k ≤ truncate q ↔ (k : ℚ) ≤ q := by
  unfold truncate
  split_ifs with hq
  · exact Int.le_floor
  · have hceil : ⌈q⌉ ≤ 0 := Int.ceil_le.mpr (by simpa using (not_le.mp hq).le)
    have hkq : (0 : ℚ) < k := by exact_mod_cast hk
    constructor
    · intro h
      omega
    · intro h
      exact absurd (hkq.trans_le h).le hq

theorem truncate_nonneg {q : ℚ} (h : 0 ≤ q) : 0 ≤ truncate q := by
  rw [truncate, if_pos h]
  exact Int.floor_nonneg.mpr h

theorem fitting_nonneg (has held : Amounts) (worker : Worker) : 0 ≤ fitting has held worker :=
  le_max_right _ _

/-- `fitting` is the most workers that fit. -/
theorem le_fitting_iff {k : ℤ} (hk : 0 < k) (has held : Amounts) (worker : Worker) :
    k ≤ fitting has held worker ↔ Fits k has held worker := by
  have hgpus := worker.gpus_pos
  have hdiv (a : ℤ) : k ≤ a.fdiv worker.gpus ↔ k * worker.gpus ≤ a := by
    rw [Int.fdiv_eq_ediv_of_nonneg _ hgpus.le, Int.le_ediv_iff_mul_le hgpus]
  have hwhole : 0 < k * worker.gpus := mul_pos hk hgpus
  have hmax (a : ℤ) : k ≤ max a 0 ↔ k ≤ a := by omega
  have hgpu : k ≤ (truncate (has gpu - held gpu)).fdiv worker.gpus ↔
      held gpu + k * worker.gpus ≤ has gpu := by
    rw [hdiv, le_truncate_iff hwhole]
    push_cast
    constructor <;> intro h <;> linarith
  have hcpu : k ≤ ⌊(has "cpu" - held "cpu") / worker.cpus⌋ ↔
      held "cpu" + k * worker.cpus ≤ has "cpu" := by
    rw [Int.le_floor, le_div_iff₀ worker.cpus_pos]
    constructor <;> intro h <;> linarith
  have hmemory : k ≤ ⌊(has "memory" - held "memory") / 2 ^ 30 / worker.memoryGb⌋ ↔
      held "memory" + k * worker.memoryGb * 2 ^ 30 ≤ has "memory" := by
    rw [Int.le_floor, le_div_iff₀ worker.memoryGb_pos, le_div_iff₀ (by norm_num)]
    constructor <;> intro h <;> linarith
  simp only [fitting, hmax, le_min_iff, hgpu, hcpu, hmemory, Fits]

/-- A node holds no more workers beside its pods than empty. -/
theorem fitting_le_empty {has held : Amounts} (h : ∀ resource, 0 ≤ held resource)
    (worker : Worker) : fitting has held worker ≤ fitting has nothing worker := by
  rcases (fitting_nonneg has held worker).eq_or_lt with hzero | hpos
  · rw [← hzero]
    exact fitting_nonneg _ _ _
  · obtain ⟨hgpu, hcpu, hmemory⟩ := (le_fitting_iff hpos _ _ _).mp le_rfl
    refine (le_fitting_iff hpos _ _ _).mpr ⟨?_, ?_, ?_⟩
    · have := h gpu
      simp only [nothing]
      linarith
    · have := h "cpu"
      simp only [nothing]
      linarith
    · have := h "memory"
      simp only [nothing]
      linarith

theorem fitting_empty_of_no_gpus {has : Amounts} (h : truncate (has gpu) = 0) (worker : Worker) :
    fitting has nothing worker = 0 := by
  refine le_antisymm (not_lt.mp fun hpos => ?_) (fitting_nonneg _ _ _)
  obtain ⟨hgpu, -⟩ := (le_fitting_iff hpos _ _ _).mp le_rfl
  have hwhole := mul_pos hpos worker.gpus_pos
  have hle : fitting has nothing worker * worker.gpus ≤ truncate (has gpu) := by
    rw [le_truncate_iff hwhole]
    push_cast
    simpa [nothing] using hgpu
  omega

theorem free_le {has held : ℚ} (hhas : 0 ≤ has) (hheld : 0 ≤ held) :
    max (truncate (has - held)) 0 ≤ truncate has := by
  refine max_le (not_lt.mp fun hlt => ?_) (truncate_nonneg hhas)
  have hpos : 0 < truncate (has - held) := (truncate_nonneg hhas).trans_lt hlt
  have hle := (le_truncate_iff hpos _).mp le_rfl
  exact absurd ((le_truncate_iff hpos has).mpr (by linarith)) (not_le.mpr hlt)

/-- What samples say of a node, of each resource. -/
def amount (samples : List Sample) (node : String) : Amounts := fun resource =>
  (((samples.filterMap nodeSample).filter fun row => row.1 = node ∧ row.2.1 = resource).map
    fun row => row.2.2).sum

namespace Results

variable (r : Results)

def nodes : Finset String := ((r.allocatable.filterMap nodeSample).map Prod.fst).toFinset

def has (node : String) : Amounts := amount r.allocatable node

def held (node : String) : Amounts := amount r.requested node

def Closed (node : String) : Prop := ∃ s ∈ r.unschedulable, s.metric.get? "node" = some node

instance (node : String) : Decidable (r.Closed node) :=
  inferInstanceAs (Decidable (∃ s ∈ r.unschedulable, s.metric.get? "node" = some node))

/-- The model of a node: of the last sample that names it. -/
def model (node : String) : String := modelOf (Dict.ofPairs (r.models.filterMap modelSample)) node

def nodesOf (name : String) : Finset String := r.nodes.filter fun node => r.model node = name

def openOf (name : String) : Finset String := (r.nodesOf name).filter fun node => ¬r.Closed node

/-- The open nodes of the models a job may hold. -/
def openNodes (allowed : Option (List String)) : Finset String :=
  r.nodes.filter fun node => ¬r.Closed node ∧ ∀ names ∈ allowed, r.model node ∈ names

/-- The workers that fit on a node now, and on the node empty. -/
def fits (worker : Worker) (node : String) : ℤ := fitting (r.has node) (r.held node) worker

def fitsEmpty (worker : Worker) (node : String) : ℤ := fitting (r.has node) nothing worker

/-- No amount is below 0. -/
def Nonneg : Prop := (∀ s ∈ r.allocatable, 0 ≤ s.value) ∧ ∀ s ∈ r.requested, 0 ≤ s.value

end Results

theorem amount_nonneg {samples : List Sample} (h : ∀ s ∈ samples, 0 ≤ s.value)
    (node resource : String) : 0 ≤ amount samples node resource := by
  refine List.sum_nonneg fun x hx => ?_
  obtain ⟨row, hrow, rfl⟩ := List.mem_map.mp hx
  obtain ⟨s, hs, hsample⟩ := List.mem_filterMap.mp (List.mem_filter.mp hrow).1
  simp only [nodeSample, Option.bind_eq_bind, Option.bind_eq_some_iff, Option.pure_def,
    Option.some.injEq] at hsample
  obtain ⟨_, -, _, -, rfl⟩ := hsample
  exact h s hs

theorem filterMap_of_mapM {α β : Type*} {f : α → Option β} {l : List α} {rows : List β}
    (h : l.mapM f = some rows) : l.filterMap f = rows := by
  induction l generalizing rows with
  | nil => simpa using h
  | cons a l ih =>
    rw [List.mapM_cons] at h
    simp only [Option.bind_eq_bind, Option.bind_eq_some_iff, Option.pure_def,
      Option.some.injEq] at h
    obtain ⟨b, hb, rest, hrest, rfl⟩ := h
    rw [List.filterMap_cons_some hb, ih hrest]

theorem foldl_addAmount (rows : List (String × String × ℚ)) (has : Amounts) (resource : String) :
    rows.foldl (fun has row => addAmount row has) has resource =
      has resource + ((rows.filter fun row => row.2.1 = resource).map fun row => row.2.2).sum := by
  induction rows generalizing has with
  | nil => simp
  | cons row rows ih =>
    rw [List.foldl_cons, ih]
    by_cases hr : row.2.1 = resource
    · simp [addAmount, hr, add_assoc]
    · simp [addAmount, hr, Ne.symm hr]

/-- The amounts of a node add up over its samples, whatever stands between them. -/
theorem getD_upsertAll_addAmount (rows : List (String × String × ℚ)) (node resource : String) :
    ((Dict.upsertAll nothing Prod.fst addAmount [] rows).get? node).getD nothing resource =
      ((rows.filter fun row => row.1 = node ∧ row.2.1 = resource).map fun row => row.2.2).sum := by
  rw [Dict.getD_upsertAll, foldl_addAmount, List.filter_filter]
  simp only [Dict.get?_nil, Option.getD_none, nothing, zero_add]
  congr 2
  refine List.filter_congr fun row _ => ?_
  simp [Bool.and_comm]

/-- The tables of `free_by_node` say of each node what its samples do. -/
structure Joined (r : Results) (free held : Dict String Amounts) (closed : List String) :
    Prop where
  nodup : (free.map Prod.fst).Nodup
  keys : (free.map Prod.fst).toFinset = r.nodes
  has : ∀ e ∈ free, e.2 = r.has e.1
  held : ∀ node, (held.get? node).getD nothing = r.held node
  closed : ∀ node, node ∈ closed ↔ r.Closed node

theorem getD_table {samples : List Sample} {rows : List (String × String × ℚ)}
    (h : samples.filterMap nodeSample = rows) (node : String) :
    ((Dict.upsertAll nothing Prod.fst addAmount [] rows).get? node).getD nothing =
      amount samples node := by
  funext resource
  rw [getD_upsertAll_addAmount, ← h, amount]

theorem filterMap_bound (samples : List Sample) :
    (samples.filter fun s => (s.metric.get? "node").isSome).filterMap nodeSample =
      samples.filterMap nodeSample := by
  rw [List.filterMap_filter]
  refine List.filterMap_congr fun s _ => ?_
  cases h : s.metric.get? "node" <;> simp [nodeSample, h]

theorem joined_of_freeByNode {r : Results} {free held : Dict String Amounts}
    {closed : List String}
    (h : freeByNode r.allocatable r.requested r.unschedulable = some (free, held, closed)) :
    Joined r free held closed := by
  simp only [freeByNode, Option.bind_eq_bind, Option.bind_eq_some_iff, Option.pure_def,
    Option.some.injEq, Prod.mk.injEq] at h
  obtain ⟨has, hhas, holds, hholds, shut, hshut, rfl, rfl, rfl⟩ := h
  replace hhas := filterMap_of_mapM hhas
  replace hholds := filterMap_of_mapM hholds
  replace hshut := filterMap_of_mapM hshut
  rw [filterMap_bound] at hholds
  have hnodup : ((Dict.upsertAll nothing Prod.fst addAmount [] has).map Prod.fst).Nodup :=
    Dict.nodup_upsertAll nothing Prod.fst addAmount (by simp) has
  refine ⟨hnodup, ?_, ?_, getD_table hholds, ?_⟩
  · ext node
    have hnone := Dict.get?_upsertAll_eq_none nothing Prod.fst addAmount [] has node
    rw [Results.nodes, hhas, List.mem_toFinset, List.mem_toFinset, ← not_iff_not]
    rw [← Dict.get?_eq_none_iff, hnone]
    simp only [Dict.get?_nil, true_and, List.mem_map, not_exists, not_and]
  · rintro ⟨node, row⟩ he
    have hget := Dict.get?_of_mem hnodup he
    rw [Results.has, ← getD_table hhas, hget, Option.getD_some]
  · intro node
    rw [← hshut, List.mem_filterMap, Results.Closed]

/-- What `by_model` says of a model: its GPUs on every node of it, and the rest on those that
take pods. -/
structure Counted (r : Results) (worker : Worker) (name : String) (m : Model) : Prop where
  gpus : m.gpus = ∑ node ∈ r.nodesOf name, truncate (r.has node gpu)
  freeGpus : m.freeGpus =
    ∑ node ∈ r.openOf name, max (truncate (r.has node gpu - r.held node gpu)) 0
  workers : m.workers = ∑ node ∈ r.openOf name, r.fits worker node
  workersEmpty : m.workersEmpty = ∑ node ∈ r.openOf name, r.fitsEmpty worker node

/-- A model no node was counted under yet. -/
def Uncounted (m : Model) : Prop :=
  m.gpus = 0 ∧ m.freeGpus = 0 ∧ m.workers = 0 ∧ m.workersEmpty = 0

theorem uncounted_none : Uncounted Model.none := ⟨rfl, rfl, rfl, rfl⟩

theorem uncounted_foldl_setMemory (rows : List (String × ℚ)) {m : Model} (h : Uncounted m) :
    Uncounted (rows.foldl (fun m row => setMemory row m) m) := by
  induction rows generalizing m with
  | nil => exact h
  | cons row rows ih => exact ih h

section Sums

variable {r : Results} {free held : Dict String Amounts} {closed : List String}
  (hj : Joined r free held closed) (worker : Worker)

include hj

theorem countNode_eq {e : String × Amounts} (he : e ∈ free) (m : Model) :
    countNode closed held worker e m =
      ⟨m.memoryGb, m.gpus + truncate (r.has e.1 gpu),
        m.freeGpus + (if ¬r.Closed e.1 then
          max (truncate (r.has e.1 gpu - r.held e.1 gpu)) 0 else 0),
        m.workers + (if ¬r.Closed e.1 then r.fits worker e.1 else 0),
        m.workersEmpty + (if ¬r.Closed e.1 then r.fitsEmpty worker e.1 else 0)⟩ := by
  obtain ⟨node, row⟩ := e
  obtain rfl : row = r.has node := hj.has _ he
  have hclosed : closed.contains node = true ↔ r.Closed node := by simpa using hj.closed node
  simp only [countNode, hj.held]
  by_cases hc : r.Closed node
  · rw [if_pos (hclosed.mpr hc)]
    simp [hc]
  · rw [if_neg fun h => hc (hclosed.mp h)]
    simp [hc, Results.fits, Results.fitsEmpty]

theorem foldl_countNode {es : List (String × Amounts)} (hes : ∀ e ∈ es, e ∈ free) (m : Model) :
    es.foldl (fun m e => countNode closed held worker e m) m =
      ⟨m.memoryGb, m.gpus + (es.map fun e => truncate (r.has e.1 gpu)).sum,
        m.freeGpus + (es.map fun e => if ¬r.Closed e.1 then
          max (truncate (r.has e.1 gpu - r.held e.1 gpu)) 0 else 0).sum,
        m.workers + (es.map fun e => if ¬r.Closed e.1 then r.fits worker e.1 else 0).sum,
        m.workersEmpty +
          (es.map fun e => if ¬r.Closed e.1 then r.fitsEmpty worker e.1 else 0).sum⟩ := by
  induction es generalizing m with
  | nil => simp
  | cons e es ih =>
    rw [List.foldl_cons, ih (fun d hd => hes d (by simp [hd])),
      countNode_eq hj worker (hes e (by simp))]
    simp only [List.map_cons, List.sum_cons, add_assoc]

/-- A sum over the entries of a model is one over its nodes. -/
theorem sum_entries (name : String) (g : String → ℤ) :
    ((free.filter fun e => r.model e.1 = name).map fun e => g e.1).sum =
      ∑ node ∈ r.nodesOf name, g node := by
  have hsub : ((free.filter fun e => r.model e.1 = name).map Prod.fst).Nodup :=
    hj.nodup.sublist (List.filter_sublist.map _)
  have hset : ((free.filter fun e => r.model e.1 = name).map Prod.fst).toFinset =
      r.nodesOf name := by
    ext node
    simp only [Results.nodesOf, ← hj.keys, List.mem_toFinset, List.mem_map, List.mem_filter,
      decide_eq_true_eq, Finset.mem_filter]
    constructor
    · rintro ⟨e, ⟨he, hname⟩, rfl⟩
      exact ⟨⟨e, he, rfl⟩, hname⟩
    · rintro ⟨⟨e, he, rfl⟩, hname⟩
      exact ⟨e, ⟨he, hname⟩, rfl⟩
  rw [← hset, List.sum_toFinset _ hsub, List.map_map]
  rfl

theorem counted_foldl (name : String) {m : Model} (hm : Uncounted m) :
    Counted r worker name ((free.filter fun e => r.model e.1 = name).foldl
      (fun m e => countNode closed held worker e m) m) := by
  obtain ⟨hgpus, hfree, hworkers, hempty⟩ := hm
  rw [foldl_countNode hj worker fun e he => (List.mem_filter.mp he).1]
  constructor
  · rw [hgpus, zero_add, sum_entries hj name fun node => truncate (r.has node gpu)]
  · rw [hfree, zero_add, sum_entries hj name fun node => if ¬r.Closed node then
      max (truncate (r.has node gpu - r.held node gpu)) 0 else 0, Results.openOf,
      Finset.sum_filter]
  · rw [hworkers, zero_add, sum_entries hj name fun node =>
      if ¬r.Closed node then r.fits worker node else 0, Results.openOf, Finset.sum_filter]
  · rw [hempty, zero_add, sum_entries hj name fun node =>
      if ¬r.Closed node then r.fitsEmpty worker node else 0, Results.openOf, Finset.sum_filter]

end Sums

/-- The table of `by_model`: each model of it counted, and every other without a GPU. -/
structure Tabled (r : Results) (worker : Worker) (models : Dict String Model) : Prop where
  nodup : (models.map Prod.fst).Nodup
  counted : ∀ e ∈ models, Counted r worker e.1 e.2
  gpus : ∀ e ∈ models, e.2.gpus ≠ 0
  rest : ∀ name ∉ models.map Prod.fst, ∑ node ∈ r.nodesOf name, truncate (r.has node gpu) = 0

theorem tabled_of_byModel {r : Results} {worker : Worker} {models : Dict String Model}
    (h : byModel r worker = some models) : Tabled r worker models := by
  simp only [byModel, Option.bind_eq_bind, Option.bind_eq_some_iff, Option.pure_def,
    Option.some.injEq] at h
  obtain ⟨⟨free, held, closed⟩, hfree, names, hnames, memory, -, h⟩ := h
  have hj := joined_of_freeByNode hfree
  replace hnames := filterMap_of_mapM hnames
  set known := Dict.upsertAll Model.none Prod.fst setMemory [] memory with hknown
  have hmodel : (fun e : String × Amounts => modelOf (Dict.ofPairs names) e.1) =
      fun e => r.model e.1 := by
    funext e
    rw [Results.model, hnames]
  rw [hmodel] at h
  set out := Dict.upsertAll Model.none (fun e : String × Amounts => r.model e.1)
    (countNode closed held worker) known free with hout
  have hnodup : (out.map Prod.fst).Nodup :=
    Dict.nodup_upsertAll _ _ _ (Dict.nodup_upsertAll _ _ _ (by simp) _) _
  have hcounted (name : String) : Counted r worker name ((out.get? name).getD Model.none) := by
    rw [hout, Dict.getD_upsertAll]
    refine counted_foldl hj worker name ?_
    rw [hknown, Dict.getD_upsertAll]
    exact uncounted_foldl_setMemory _ uncounted_none
  have hmem {e : String × Model} : e ∈ models ↔ e ∈ out ∧ e.2.gpus ≠ 0 := by
    rw [← h, List.mem_filter, sortedByName, List.mem_mergeSort]
    simp
  have hget {e : String × Model} (he : e ∈ out) : out.get? e.1 = some e.2 :=
    Dict.get?_of_mem hnodup he
  refine ⟨?_, ?_, fun e he => (hmem.mp he).2, ?_⟩
  · rw [← h]
    have hsorted : ((sortedByName out).map Prod.fst).Nodup :=
      ((List.mergeSort_perm out _).map Prod.fst).nodup_iff.mpr hnodup
    exact hsorted.sublist (List.filter_sublist.map _)
  · intro e he
    have hc := hcounted e.1
    rwa [hget (hmem.mp he).1, Option.getD_some] at hc
  · intro name hname
    rw [← (hcounted name).gpus]
    cases hfound : out.get? name with
    | none => rfl
    | some m =>
      by_contra hne
      exact hname (List.mem_map.mpr ⟨(name, m), hmem.mpr ⟨Dict.mem_of_get? hfound, hne⟩, rfl⟩)

section Nonneg

variable {r : Results} (hr : r.Nonneg) {worker : Worker} {models : Dict String Model}

include hr

theorem has_nonneg (node resource : String) : 0 ≤ r.has node resource :=
  amount_nonneg hr.1 node resource

theorem held_nonneg (node resource : String) : 0 ≤ r.held node resource :=
  amount_nonneg hr.2 node resource

theorem fits_le_fitsEmpty (node : String) : r.fits worker node ≤ r.fitsEmpty worker node :=
  fitting_le_empty (held_nonneg hr node) worker

theorem fits_eq_zero {node : String} (h : truncate (r.has node gpu) = 0) :
    r.fits worker node = 0 := by
  have hempty : r.fitsEmpty worker node = 0 := fitting_empty_of_no_gpus h worker
  have hle : r.fits worker node ≤ r.fitsEmpty worker node := fits_le_fitsEmpty hr node
  rw [hempty] at hle
  exact le_antisymm hle (fitting_nonneg _ _ _)

/-- A node of a model that the table leaves out has no whole GPU. -/
theorem gpus_eq_zero_of_unlisted (ht : Tabled r worker models) {node : String}
    (hnode : node ∈ r.nodes) (h : r.model node ∉ models.map Prod.fst) :
    truncate (r.has node gpu) = 0 := by
  have hall : ∀ other ∈ r.nodesOf (r.model node), 0 ≤ truncate (r.has other gpu) :=
    fun other _ => truncate_nonneg (has_nonneg hr other gpu)
  have hmem : node ∈ r.nodesOf (r.model node) := Finset.mem_filter.mpr ⟨hnode, rfl⟩
  exact (Finset.sum_eq_zero_iff_of_nonneg hall).mp (ht.rest _ h) node hmem

theorem Counted.bounds {name : String} {m : Model} (h : Counted r worker name m) :
    0 ≤ m.workers ∧ m.workers ≤ m.workersEmpty ∧ m.freeGpus ≤ m.gpus := by
  refine ⟨?_, ?_, ?_⟩
  · rw [h.workers]
    exact Finset.sum_nonneg fun node _ => fitting_nonneg _ _ _
  · rw [h.workers, h.workersEmpty]
    exact Finset.sum_le_sum fun node _ => fits_le_fitsEmpty hr node
  · rw [h.freeGpus, h.gpus]
    calc ∑ node ∈ r.openOf name, max (truncate (r.has node gpu - r.held node gpu)) 0
        ≤ ∑ node ∈ r.openOf name, truncate (r.has node gpu) :=
          Finset.sum_le_sum fun node _ => free_le (has_nonneg hr node gpu) (held_nonneg hr node gpu)
      _ ≤ ∑ node ∈ r.nodesOf name, truncate (r.has node gpu) :=
          Finset.sum_le_sum_of_subset_of_nonneg (Finset.filter_subset _ _)
            fun node _ _ => truncate_nonneg (has_nonneg hr node gpu)

/-- The GPUs of all models are those of all nodes. -/
theorem sum_gpus (ht : Tabled r worker models) :
    (models.map fun e => e.2.gpus).sum = ∑ node ∈ r.nodes, truncate (r.has node gpu) := by
  have hfields : (models.map fun e => e.2.gpus) =
      (models.map Prod.fst).map fun name => ∑ node ∈ r.nodesOf name, truncate (r.has node gpu) := by
    rw [List.map_map]
    exact List.map_congr_left fun e he => (ht.counted e he).gpus
  rw [hfields, ← List.sum_toFinset _ ht.nodup]
  simp only [Results.nodesOf]
  rw [Finset.sum_fiberwise_eq_sum_filter]
  refine Finset.sum_subset (Finset.filter_subset _ _) fun node hnode hout => ?_
  refine gpus_eq_zero_of_unlisted hr ht hnode fun hlisted => hout ?_
  exact Finset.mem_filter.mpr ⟨hnode, List.mem_toFinset.mpr hlisted⟩

/-- A sum over the models a job may hold is one over their open nodes. -/
theorem sum_allowed (ht : Tabled r worker models) {field : Model → ℤ} {f : String → ℤ}
    (hfield : ∀ e ∈ models, field e.2 = ∑ node ∈ r.openOf e.1, f node)
    (hf : ∀ node, truncate (r.has node gpu) = 0 → f node = 0) (allowed : Option (List String)) :
    ((models.filter fun e => allowed.all fun names => names.contains e.1).map
      fun e => field e.2).sum = ∑ node ∈ r.openNodes allowed, f node := by
  set held := models.filter fun e => allowed.all fun names => names.contains e.1 with hheld
  have hfields : (held.map fun e => field e.2) =
      (held.map Prod.fst).map fun name => ∑ node ∈ r.openOf name, f node := by
    rw [List.map_map]
    exact List.map_congr_left fun e he => hfield e (List.mem_filter.mp he).1
  have hnodup : (held.map Prod.fst).Nodup := ht.nodup.sublist (List.filter_sublist.map _)
  have hopen (name : String) : r.openOf name =
      (r.nodes.filter fun node => ¬r.Closed node).filter fun node => r.model node = name := by
    rw [Results.openOf, Results.nodesOf, Finset.filter_comm]
  have hnames (name : String) : name ∈ (held.map Prod.fst).toFinset ↔
      name ∈ models.map Prod.fst ∧ ∀ names ∈ allowed, name ∈ names := by
    rw [List.mem_toFinset, hheld, List.mem_map, List.mem_map]
    constructor
    · rintro ⟨e, he, rfl⟩
      obtain ⟨he, hallowed⟩ := List.mem_filter.mp he
      exact ⟨⟨e, he, rfl⟩, by simpa [Option.all_eq_true] using hallowed⟩
    · rintro ⟨⟨e, he, rfl⟩, hallowed⟩
      exact ⟨e, List.mem_filter.mpr ⟨he, by simpa [Option.all_eq_true] using hallowed⟩, rfl⟩
  rw [hfields, ← List.sum_toFinset _ hnodup]
  simp only [hopen]
  rw [Finset.sum_fiberwise_eq_sum_filter, Finset.filter_filter]
  simp only [hnames]
  refine Finset.sum_subset ?_ fun node hnode hout => ?_
  · intro node hnode
    obtain ⟨hnode, hclosed, -, hallowed⟩ := Finset.mem_filter.mp hnode
    exact Finset.mem_filter.mpr ⟨hnode, hclosed, hallowed⟩
  · obtain ⟨hnode, hclosed, hallowed⟩ := Finset.mem_filter.mp hnode
    refine hf node (gpus_eq_zero_of_unlisted hr ht hnode fun hlisted => hout ?_)
    exact Finset.mem_filter.mpr ⟨hnode, hclosed, hlisted, hallowed⟩

theorem room_eq (ht : Tabled r worker models) (memory : ℚ) :
    room models memory =
      ⟨∑ node ∈ r.openNodes (withMemory models memory), r.fits worker node,
        ∑ node ∈ r.openNodes (withMemory models memory), r.fitsEmpty worker node,
        withMemory models memory⟩ := by
  have hworkers := sum_allowed hr ht (fun e he => (ht.counted e he).workers)
    (fun node h => fits_eq_zero hr h) (withMemory models memory)
  have hempty := sum_allowed hr ht (fun e he => (ht.counted e he).workersEmpty)
    (fun node h => fitting_empty_of_no_gpus h worker) (withMemory models memory)
  rw [← hworkers, ← hempty]
  rfl

end Nonneg

theorem requestedWorkers_ordered {exactly atMost workers fewest : String} {most : Option ℕ}
    (h : requestedWorkers exactly atMost most = .ok (workers, fewest)) :
    ∃ w l, int? workers = some w ∧ int? fewest = some l ∧ 1 ≤ l ∧ l ≤ w := by
  have hone : int? "1" = some 1 := by rfl
  unfold requestedWorkers at h
  dsimp only at h
  by_cases hexact : exactly = ""
  · rw [if_neg fun hboth => hboth.1 hexact, if_pos hexact, if_pos hexact] at h
    split_ifs at h with hnone hwhole <;>
      obtain ⟨rfl, rfl⟩ := Prod.mk.inj (Except.ok.inj h)
    · exact ⟨1, 1, hone, hone, le_rfl, le_rfl⟩
    · obtain ⟨-, w, hw, hle, -⟩ := whole_iff.mp hwhole
      exact ⟨w, 1, hw, hone, le_rfl, hle⟩
  · rw [if_neg hexact, if_neg hexact] at h
    split_ifs at h with hboth hwhole
    obtain ⟨rfl, rfl⟩ := Prod.mk.inj (Except.ok.inj h)
    obtain ⟨-, w, hw, hle, -⟩ := whole_iff.mp hwhole
    exact ⟨w, w, hw, hw, hle, le_rfl⟩

/-- A call on NRP starts with one worker or more, and with no more than it asks for. -/
theorem least_le_wanted {values : Dict String String} {shape : Shape}
    (h : nrpShape values = .ok shape) : 1 ≤ least shape ∧ least shape ≤ wanted shape := by
  unfold nrpShape at h
  dsimp only at h
  split_ifs at h with hothers
  obtain ⟨⟨workers, fewest⟩, hworkers, h⟩ := except_bind_ok h
  obtain ⟨_, -, h⟩ := except_bind_ok h
  obtain rfl := Except.ok.inj h
  obtain ⟨w, l, hw, hl, hpos, hle⟩ := requestedWorkers_ordered hworkers
  simp only [least, wanted, hw, hl, Option.getD_some]
  exact ⟨by exact_mod_cast hpos, by exact_mod_cast hle⟩

/-- What `start_nrp_job` builds, of a table of the models. -/
theorem startNrpJob_eq_ok {r : Results} {worker : Worker} {shape : Shape} {n : ℤ}
    {allowed : Option (List String)}
    (h : startNrpJob (some r) worker shape = .ok (n, allowed)) :
    ∃ models, byModel r worker = some models ∧
      allowed = (room models (memoryAsked shape)).models ∧
      least shape ≤ (room models (memoryAsked shape)).workersEmpty ∧
      n = min (wanted shape) (max (room models (memoryAsked shape)).workers (least shape)) := by
  unfold startNrpJob at h
  dsimp only [Option.bind_some] at h
  cases hmodels : byModel r worker with
  | none =>
    rw [hmodels] at h
    cases h
  | some models =>
    rw [hmodels, Option.getD_some] at h
    split_ifs at h with hempty hnone hfew
    obtain ⟨rfl, rfl⟩ := Prod.mk.inj (Except.ok.inj h)
    exact ⟨models, rfl, rfl, not_lt.mp hfew, rfl⟩

/-- The models that have the memory asked for; any, if none is asked for. -/
def Holding (models : Dict String Model) (memoryGb : ℚ) : Option (List String) → Prop
  | none => memoryGb = 0
  | some names => memoryGb ≠ 0 ∧ ∀ name, name ∈ names ↔ name ≠ "" ∧
      ∃ model memory, (name, model) ∈ models ∧ model.memoryGb = some memory ∧
        memoryGb * memorySlack ≤ memory

theorem holding_withMemory (models : Dict String Model) (memoryGb : ℚ) :
    Holding models memoryGb (withMemory models memoryGb) := by
  unfold withMemory
  split_ifs with hzero
  · exact hzero
  · refine ⟨hzero, fun name => ?_⟩
    simp only [List.mem_map, List.mem_filter, Option.any_eq_true, decide_eq_true_eq, Prod.exists]
    constructor
    · rintro ⟨_, model, ⟨hmem, hne, memory, hmemory, hle⟩, rfl⟩
      exact ⟨hne, model, memory, hmem, hmemory, hle⟩
    · rintro ⟨hne, model, memory, hmem, hmemory, hle⟩
      exact ⟨name, model, ⟨hmem, hne, memory, hmemory, hle⟩, rfl⟩

/-- The size of a job on NRP: between what it starts with and what it asks for, within what the
open nodes of its models hold empty, and all it asks for where that fits now. The models it is
sized by count each node once, a closed one for its GPUs only, and what they count as fitting a
node fits. Its models are those that have the memory it asks for. -/
theorem job_sized {r : Results} (hr : r.Nonneg) (worker : Worker) :
    (∀ models, byModel r worker = some models →
      (∀ e ∈ models, Counted r worker e.1 e.2 ∧ 0 ≤ e.2.workers ∧
        e.2.workers ≤ e.2.workersEmpty ∧ e.2.freeGpus ≤ e.2.gpus) ∧
      (models.map fun e => e.2.gpus).sum = ∑ node ∈ r.nodes, truncate (r.has node gpu) ∧
      ∀ node ∈ r.nodes, truncate (r.has node gpu) ≠ 0 →
        ∃! e, e ∈ models ∧ node ∈ r.nodesOf e.1) ∧
    (∀ node k, 0 < k →
      (k ≤ r.fits worker node ↔ Fits k (r.has node) (r.held node) worker) ∧
      (k ≤ r.fitsEmpty worker node ↔ Fits k (r.has node) nothing worker)) ∧
    ∀ values shape n allowed, nrpShape values = .ok shape →
      startNrpJob (some r) worker shape = .ok (n, allowed) →
        (∃ models, byModel r worker = some models ∧ Holding models (memoryAsked shape) allowed) ∧
        least shape ≤ n ∧ n ≤ wanted shape ∧
        n ≤ ∑ node ∈ r.openNodes allowed, r.fitsEmpty worker node ∧
        (wanted shape ≤ ∑ node ∈ r.openNodes allowed, r.fits worker node → n = wanted shape) := by
  refine ⟨?_, fun node k hk => ⟨le_fitting_iff hk _ _ _, le_fitting_iff hk _ _ _⟩, ?_⟩
  · intro models hmodels
    have ht := tabled_of_byModel hmodels
    refine ⟨fun e he => ⟨ht.counted e he, (ht.counted e he).bounds hr⟩, sum_gpus hr ht, ?_⟩
    intro node hnode hgpus
    have hlisted : r.model node ∈ models.map Prod.fst := by
      by_contra hout
      exact hgpus (gpus_eq_zero_of_unlisted hr ht hnode hout)
    obtain ⟨e, he, hname⟩ := List.mem_map.mp hlisted
    refine ⟨e, ⟨he, Finset.mem_filter.mpr ⟨hnode, hname.symm⟩⟩, ?_⟩
    rintro d ⟨hd, hof⟩
    have hkey : d.1 = e.1 := ((Finset.mem_filter.mp hof).2).symm.trans hname.symm
    have hd' := Dict.get?_of_mem ht.nodup hd
    have he' := Dict.get?_of_mem ht.nodup he
    rw [hkey, he'] at hd'
    exact Prod.ext hkey (Option.some.inj hd').symm
  · intro values shape n allowed hshape hstart
    obtain ⟨-, hordered⟩ := least_le_wanted hshape
    obtain ⟨models, hmodels, hallowed, henough, hn⟩ := startNrpJob_eq_ok hstart
    rw [room_eq hr (tabled_of_byModel hmodels)] at hallowed henough hn
    dsimp only at hallowed henough hn
    have hholding : Holding models (memoryAsked shape) allowed :=
      hallowed ▸ holding_withMemory models (memoryAsked shape)
    rw [← hallowed] at henough hn
    have hbeside : ∑ node ∈ r.openNodes allowed, r.fits worker node ≤
        ∑ node ∈ r.openNodes allowed, r.fitsEmpty worker node :=
      Finset.sum_le_sum fun node _ => fits_le_fitsEmpty hr node
    refine ⟨⟨models, hmodels, hholding⟩, ?_, ?_, ?_, ?_⟩ <;> omega

/-- The worker of `rayjob-nrp.yaml`. -/
def nrpWorker : Worker := ⟨1, 4, 16, by decide, by norm_num, by norm_num⟩

def onNode (resource : String) (value : ℚ) : Sample :=
  ⟨[("node", "gpn-1"), ("resource", resource)], value⟩

/-- One node of four GPUs, of which a pod holds one. -/
def oneNode : Results where
  allocatable := [onNode gpu 4, onNode "cpu" 64, onNode "memory" (256 * 2 ^ 30)]
  requested := [onNode gpu 1, onNode "cpu" 50, onNode "memory" (20 * 2 ^ 30)]
  unschedulable := []
  models := [⟨[("Hostname", "gpn-1"), ("modelName", "Tesla T4")], 4⟩]
  memory := [⟨[("modelName", "Tesla T4")], 15360⟩]

def upToFive : Shape := ⟨"", "5", "15", "", "", "1", "1", "nrp"⟩

theorem job_sized_oneNode : oneNode.Nonneg ∧
    startNrpJob (some oneNode) nrpWorker upToFive = .ok (3, some ["Tesla T4"]) ∧
    (∃ models, byModel oneNode nrpWorker = some models ∧ Holding models 15 (some ["Tesla T4"])) ∧
    (3 : ℤ) ≤ wanted upToFive ∧
    (3 : ℤ) ≤ ∑ node ∈ oneNode.openNodes (some ["Tesla T4"]), oneNode.fitsEmpty nrpWorker node := by
  have hr : oneNode.Nonneg := ⟨by decide +kernel, by decide +kernel⟩
  have hshape : nrpShape [("af-max-workers", "5"), ("af-min-gpu-memory-gb", "15")] =
      .ok upToFive := by decide +kernel
  have hstart : startNrpJob (some oneNode) nrpWorker upToFive = .ok (3, some ["Tesla T4"]) := by
    decide +kernel
  have hasked : memoryAsked upToFive = 15 := by decide +kernel
  obtain ⟨-, -, hjob⟩ := job_sized hr nrpWorker
  obtain ⟨hholding, -, hwanted, hempty, -⟩ := hjob _ _ _ _ hshape hstart
  exact ⟨hr, hstart, hasked ▸ hholding, hwanted, hempty⟩

end PurdueAF.RayNrpGpus
