import Mathlib.Tactic.IntervalCases
import PurdueAF.PyJson
import PurdueAF.RayPaths

/-!
# The settings of a call, and the call that reaches a cluster

`caller` makes a `Shape` of the `af-` settings of a call. A cluster keeps its shape in
annotations; `ownCluster` shows it to its owner, and the agentic interface prints from that the
call of a notebook that is to reach it.
-/
namespace PurdueAF.Ray
open RayNaming Py Binary64

def workerCpusMax : ℕ := 16
def workerMemoryGbMin : ℕ := 4
def workerMemoryGbMax : ℕ := 64
def defaultEnv : String := "/work/pixi/global/.pixi/envs/default"

/-- The CPU cores and the memory of the worker of `raycluster.yaml`. -/
def workerSize : String × String := ("8", "32")

def settings : List String :=
  ["af-env", "af-n-workers", "af-max-workers", "af-gpus-per-worker", "af-min-gpu-memory-gb",
   "af-cpus-per-worker", "af-ram-per-worker-gb", "af-site", "af-inputs", "af-output"]

def nrpSettings : List String :=
  ["af-n-workers", "af-max-workers", "af-min-gpu-memory-gb", "af-site", "af-inputs", "af-output"]

def unprefixed : List String := settings.map fun name => String.ofList (name.toList.drop 3)

/-- `values.get(name, "")`. -/
def setting (values : Dict String String) (name : String) : String := (values.get? name).getD ""

/-- A full match of `[1-9][0-9]{0,8}`. -/
def plain : List Char → Bool
  | [] => false
  | c :: cs => '1' ≤ c && c ≤ '9' && cs.all isDigit && cs.length ≤ 8

/-- Whether `value` is a whole number in bounds, written plainly. -/
def whole (value : String) (least : ℕ) (most : Option ℕ) : Bool :=
  plain value.toList &&
    (int? value).any fun n => least ≤ n && most.all fun m => n ≤ m

def requestedSize (name value default : String) (least most : ℕ) : Except Refused String :=
  if value = "" then .ok default
  else if whole value least (some most) then .ok value
  else .error ⟨.invalidArgument, name ++ " is a whole number from " ++ toString least ++ " to " ++
    toString most ++ "."⟩

/-- The GPU memory a call asks of each worker, in GB: 0 for any GPU. -/
def gpuMemory (value : String) : Except Refused ℚ :=
  let refused := .error ⟨.invalidArgument, "af-min-gpu-memory-gb is a number of GB."⟩
  match if value = "" then some (.finite 0) else floatOfText value with
  | some (.finite wanted) => if 0 ≤ wanted then .ok wanted else refused
  | _ => refused

/-- That memory as the one of the smallest GPU that has it. -/
def requestedMemory (value : String) : Except Refused String :=
  match gpuMemory value with
  | .error refusal => .error refusal
  | .ok wanted =>
    match (flavors.filter fun f => wanted ≤ f.memory).map Flavor.memory with
    | [] => .error ⟨.invalidArgument, "No GPU of a Ray cluster has " ++ formatG wanted ++
        " GB: the largest has " ++ formatG 16 ++ " GB."⟩
    | m :: more => .ok (formatG (more.foldl Min.min m))

/-- The memory that a text of a shape states. -/
def memoryOf (memory : String) : ℚ := (float? memory).getD 0

/-- The GPUs that a text of a shape states. -/
def gpusOf (perWorker : String) : ℕ := (int? perWorker).getD 0

def requestedPerWorker (value memory : String) : Except Refused String :=
  let most := ((flavors.filter fun f => memoryOf memory ≤ f.memory).map Flavor.perWorker).foldl
    Max.max 0
  if value = "" then .ok "1"
  else if whole value 1 (some most) then .ok value
  else .error ⟨.invalidArgument, "af-gpus-per-worker is a number of GPUs from 1 to " ++
    toString most ++ "."⟩

/-- The most workers a call asks for and the fewest its cluster starts with: all of `exactly`,
or one of up to `atMost`. On NRP there is no `most`. -/
def requestedWorkers (exactly atMost : String) (most : Option ℕ) :
    Except Refused (String × String) :=
  let value := if exactly = "" then atMost else exactly
  if exactly ≠ "" ∧ atMost ≠ "" then
    .error ⟨.invalidArgument, "af-n-workers asks for a number of workers and af-max-workers for " ++
      "up to as many: set one of them."⟩
  else if value = "" then .ok ("1", "1")
  else if whole value 1 most then .ok (value, if exactly = "" then "1" else exactly)
  else
    let name := if exactly = "" then "af-max-workers" else "af-n-workers"
    .error ⟨.invalidArgument, match most with
      | none => name ++ " is a whole number of workers, 1 or more, on NRP."
      | some m => name ++ " is a number of workers from 1 to " ++ toString m ++ "."⟩

/-- The environment a call asks for, or the global one. -/
def requestedEnv (value : String) (user : User) : Except Refused String :=
  if value = "" then .ok defaultEnv else mountedEnv value user

/-- The most workers of a memory and a number of GPUs that the budgets hold. -/
def mostWorkers (memory perWorker : String) : ℕ :=
  ((Shape.flavors (memoryOf memory) (gpusOf perWorker)).map fun f =>
    f.budget / gpusOf perWorker).sum

/-- The header's token; none in one that is not printable ASCII. -/
def bearerToken (header : String) : Option String :=
  let (scheme, rest) := header.toList.span (· ≠ ' ')
  let token := stripSpace (rest.drop 1)
  let lowered := scheme.flatMap lower
  if (lowered = "bearer".toList ∨ lowered = "token".toList) ∧ token ≠ [] then
    if token.all fun c => 32 ≤ c.toNat && c.toNat ≤ 126 then some (String.ofList token) else none
  else none

def unknownSettings (values : Dict String String) : List String :=
  (values.map Prod.fst).filter fun name =>
    unprefixed.contains name || ("af-".toList.isPrefixOf name.toList && !settings.contains name)

def sorted (names : List String) : List String := names.mergeSort fun a b => decide (a ≤ b)

def nrpShape (values : Dict String String) : Except Refused Shape :=
  let others := (values.map Prod.fst).filter fun name =>
    settings.contains name && !nrpSettings.contains name
  if others ≠ [] then
    .error ⟨.invalidArgument, ", ".intercalate (sorted others) ++ " sets a Ray cluster at " ++
      "Purdue: a job on NRP runs the AF's global environment on workers of 1 GPU, 4 CPUs and " ++
      "16 GB, and takes only af-n-workers, af-max-workers or af-min-gpu-memory-gb."⟩
  else do
    let (workers, least) ← requestedWorkers (setting values "af-n-workers")
      (setting values "af-max-workers") none
    let value := setting values "af-min-gpu-memory-gb"
    let wanted ← gpuMemory value
    -- A zero keeps its sign.
    let sign := if wanted = 0 ∧ (signed (stripSpace value.toList)).1 then "-" else ""
    return ⟨"", workers, sign ++ formatG wanted, "", "", "1", least, "nrp"⟩

def purdueShape (user : User) (values : Dict String String) : Except Refused Shape := do
  let memory ← requestedMemory (setting values "af-min-gpu-memory-gb")
  let env ← requestedEnv (setting values "af-env") user
  let cpus ← requestedSize "af-cpus-per-worker" (setting values "af-cpus-per-worker")
    workerSize.1 1 workerCpusMax
  let ram ← requestedSize "af-ram-per-worker-gb" (setting values "af-ram-per-worker-gb")
    workerSize.2 workerMemoryGbMin workerMemoryGbMax
  let perWorker ← requestedPerWorker (setting values "af-gpus-per-worker") memory
  let (workers, least) ← requestedWorkers (setting values "af-n-workers")
    (setting values "af-max-workers") (some (mostWorkers memory perWorker))
  return ⟨env, workers, memory, cpus, ram, perWorker, least, "purdue"⟩

/-- Who makes a call, from its token, and the cluster it asks for. `userFor` asks the Hub and
the accounts. -/
def caller (serviceToken : String) (userFor : String → Except Refused User)
    (values : Dict String String) : Except Refused (User × Shape) :=
  if serviceToken = "" then
    .error ⟨.unavailable, "Ray is not enabled: JupyterHub has not registered the " ++
      "ray-train-gateway service."⟩
  else
    match bearerToken (setting values "authorization") with
    | none => .error ⟨.unauthenticated, "No token: RAY_AUTH_MODE=token and " ++
        "RAY_AUTH_TOKEN=$JUPYTERHUB_API_TOKEN must be set."⟩
    | some token =>
      if unknownSettings values ≠ [] then
        .error ⟨.invalidArgument, ", ".intercalate (sorted (unknownSettings values)) ++
          " is no setting of a Ray cluster: the settings are " ++
          ", ".intercalate (sorted settings) ++ "."⟩
      else
        let named := setting values "af-site"
        let site := if named = "" then "purdue" else named
        if site ≠ "purdue" ∧ site ≠ "nrp" then
          .error ⟨.invalidArgument, "af-site is one of purdue, nrp."⟩
        else do
          let user ← userFor token
          let shape ← if site = "nrp" then nrpShape values else purdueShape user values
          return (user, shape)

def annotate (shape : Shape) : Dict String String :=
  [("purdue-af/ray-env", shape.env), ("purdue-af/ray-workers", shape.workers),
   ("purdue-af/ray-gpu-memory", shape.memory), ("purdue-af/ray-worker-cpus", shape.cpus),
   ("purdue-af/ray-worker-memory", shape.ram), ("purdue-af/ray-gpus-per-worker", shape.perWorker),
   ("purdue-af/ray-min-workers", shape.least)]

def clusterShape (annotations : Dict String String) : Shape where
  env := setting annotations "purdue-af/ray-env"
  workers := setting annotations "purdue-af/ray-workers"
  memory := setting annotations "purdue-af/ray-gpu-memory"
  cpus := setting annotations "purdue-af/ray-worker-cpus"
  ram := setting annotations "purdue-af/ray-worker-memory"
  perWorker := setting annotations "purdue-af/ray-gpus-per-worker"
  least := setting annotations "purdue-af/ray-min-workers"

/-- What Kubernetes and its head say of a live cluster. -/
structure LiveCluster where
  annotations : Dict String String
  headReady : Bool
  busy : Bool
  readyWorkerReplicas : ℕ
  deriving Repr

structure ClusterView where
  name : String
  ready : Bool
  busy : Bool
  workers : ℕ
  workersReady : ℕ
  minGpuMemoryGb : ℚ
  gpusPerWorker : ℕ
  cpusPerWorker : String
  ramPerWorkerGb : String
  environment : String
  deriving DecidableEq, Repr

/-- The answer to a GET for the caller's live cluster, unless a number in its annotations is
none. -/
def ownCluster (user : User) (cluster : LiveCluster) : Option ClusterView := do
  let shape := clusterShape cluster.annotations
  let workers ← if shape.workers = "" then some 0 else int? shape.workers
  let memory ← float? shape.memory
  let perWorker ← int? shape.perWorker
  return ⟨user.cluster, cluster.headReady, cluster.busy, workers, cluster.readyWorkerReplicas,
    memory, perWorker, shape.cpus, shape.ram, shape.env⟩

/-- The settings of the call that `_connect` prints. -/
def connectSettings (cluster : ClusterView) : Dict String String :=
  [("af-max-workers", toString cluster.workers)] ++
    (if cluster.gpusPerWorker ≠ 1 then [("af-gpus-per-worker", toString cluster.gpusPerWorker)]
      else []) ++
    (if cluster.environment ≠ "" then [("af-env", cluster.environment)] else [])

/-- The notebook call that reaches the cluster. -/
def connect (cluster : ClusterView) : String :=
  "ray.init(\"ray://ray-train-gateway:10001\", _metadata=[" ++
    ", ".intercalate ((connectSettings cluster).map fun e =>
      "(\"" ++ e.1 ++ "\", \"" ++ e.2 ++ "\")") ++ "])"

theorem foldl_digits (cs : List Char) (c : Char) :
    (cs ++ [c]).foldl (fun n c => 10 * n + (c.toNat - 48)) 0 =
      10 * cs.foldl (fun n c => 10 * n + (c.toNat - 48)) 0 + (c.toNat - 48) := by
  simp

theorem digitChar_of_isDigit {c : Char} (h : isDigit c = true) :
    (c.toNat - 48).digitChar = c ∧ c.toNat - 48 < 10 := by
  simp only [isDigit, Bool.and_eq_true, decide_eq_true_eq] at h
  have hlow : 48 ≤ c.toNat := h.1
  have hhigh : c.toNat ≤ 57 := h.2
  have hc : c = Char.ofNat (48 + (c.toNat - 48)) := by
    rw [Nat.add_sub_cancel' hlow, Char.ofNat_toNat]
  have hlt : c.toNat - 48 < 10 := by omega
  refine ⟨?_, hlt⟩
  generalize c.toNat - 48 = d at hc hlt
  rw [hc]
  interval_cases d <;> rfl

theorem isDigit_of_nonzero {c : Char} (hlow : '1' ≤ c) (hhigh : c ≤ '9') : isDigit c = true := by
  have h0 : '0' ≤ c := Char.le_trans (show '0' ≤ '1' by decide) hlow
  simp [isDigit, h0, hhigh]

/-- The digits of a number are those it is written in. -/
theorem toDigits_foldl {cs : List Char} (hplain : plain cs = true) :
    0 < cs.foldl (fun n c => 10 * n + (c.toNat - 48)) 0 ∧
      Nat.toDigits 10 (cs.foldl (fun n c => 10 * n + (c.toNat - 48)) 0) = cs := by
  induction cs using List.reverseRecOn with
  | nil => simp [plain] at hplain
  | append_singleton front c ih =>
    rw [foldl_digits]
    cases front with
    | nil =>
      simp only [List.nil_append, plain, List.all_nil, Bool.and_eq_true, decide_eq_true_eq] at hplain
      have hdigit : isDigit c = true := isDigit_of_nonzero hplain.1.1.1 hplain.1.1.2
      obtain ⟨hchar, hlt⟩ := digitChar_of_isDigit hdigit
      have hlow : 49 ≤ c.toNat := hplain.1.1.1
      refine ⟨by simp; omega, ?_⟩
      simp [Nat.toDigits_of_lt_base hlt, hchar]
    | cons d ds =>
      simp only [List.cons_append, plain, List.all_append, Bool.and_eq_true, decide_eq_true_eq,
        List.length_append, List.all_cons, List.all_nil, List.length_cons, List.length_nil] at hplain
      obtain ⟨⟨⟨hlow, hhigh⟩, hds, hc, -⟩, hlen⟩ := hplain
      have hfront : plain (d :: ds) = true := by
        simp only [plain, Bool.and_eq_true, decide_eq_true_eq]
        exact ⟨⟨⟨hlow, hhigh⟩, hds⟩, by omega⟩
      obtain ⟨hpos, hdigits⟩ := ih hfront
      obtain ⟨hchar, hlt⟩ := digitChar_of_isDigit hc
      refine ⟨by omega, ?_⟩
      rw [← Nat.toDigits_append_toDigits (by omega) hpos hlt, hdigits,
        Nat.toDigits_of_lt_base hlt, hchar]

theorem isDigit_of_plain {cs : List Char} (h : plain cs = true) : cs.all isDigit = true := by
  cases cs with
  | nil => rfl
  | cons c rest =>
    simp only [plain, Bool.and_eq_true, decide_eq_true_eq] at h
    rw [List.all_cons, isDigit_of_nonzero h.1.1.1 h.1.1.2, h.1.2]
    rfl

/-- A number written plainly is printed as it was written. -/
theorem toString_int?_of_plain {value : String} (h : plain value.toList = true) :
    ∃ n, int? value = some n ∧ toString n = value := by
  have hall := isDigit_of_plain h
  obtain ⟨-, hdigits⟩ := toDigits_foldl h
  cases hv : value.toList with
  | nil => simp [hv, plain] at h
  | cons c cs =>
    rw [hv] at hall hdigits
    refine ⟨_, by simp only [int?, hv, hall, if_true]; rfl, ?_⟩
    rw [Nat.toString_eq_ofList_toDigits, hdigits, ← hv, String.ofList_toList]

theorem whole_iff {value : String} {least : ℕ} {most : Option ℕ} :
    whole value least most = true ↔ plain value.toList = true ∧
      ∃ n, int? value = some n ∧ least ≤ n ∧ ∀ m ∈ most, n ≤ m := by
  simp only [whole, Bool.and_eq_true, Option.any_eq_true, decide_eq_true_eq, Option.all_eq_true]
  rfl

theorem requestedSize_eq_ok {name value default size : String} {least most : ℕ}
    (h : requestedSize name value default least most = .ok size) :
    value = "" ∧ size = default ∨ value ≠ "" ∧ size = value := by
  unfold requestedSize at h
  split_ifs at h with hempty hwhole
  · exact .inl ⟨hempty, (Except.ok.inj h).symm⟩
  · exact .inr ⟨hempty, (Except.ok.inj h).symm⟩

/-- A size is the template's when it is not set, or set to it. -/
theorem requestedSize_eq_default_iff {name value default size : String} {least most : ℕ}
    (h : requestedSize name value default least most = .ok size) :
    size = default ↔ value = "" ∨ value = default := by
  rcases requestedSize_eq_ok h with ⟨hempty, rfl⟩ | ⟨hne, rfl⟩
  · simp [hempty]
  · simp [hne]

theorem formatG_five : formatG 5 = "5" := by decide +kernel

theorem formatG_sixteen : formatG 16 = "16" := by decide +kernel

theorem float?_five : float? "5" = some 5 := by decide +kernel

theorem float?_sixteen : float? "16" = some 16 := by decide +kernel

theorem memoryOf_five : memoryOf "5" = 5 := by rw [memoryOf, float?_five, Option.getD_some]

theorem memoryOf_sixteen : memoryOf "16" = 16 := by
  rw [memoryOf, float?_sixteen, Option.getD_some]

theorem requestedMemory_eq_ok {value memory : String} (h : requestedMemory value = .ok memory) :
    ∃ wanted, gpuMemory value = .ok wanted ∧
      (wanted ≤ 5 ∧ memory = "5" ∨ 5 < wanted ∧ memory = "16") := by
  unfold requestedMemory at h
  cases hg : gpuMemory value with
  | error refusal => simp [hg] at h
  | ok wanted =>
    refine ⟨wanted, rfl, ?_⟩
    rw [hg] at h
    by_cases h5 : wanted ≤ 5
    · have h16 : wanted ≤ 16 := h5.trans (by norm_num)
      have hmin : Min.min (5 : ℚ) 16 = 5 := by norm_num
      simp [flavors, h5, h16, hmin, formatG_five] at h
      exact .inl ⟨h5, h.symm⟩
    · by_cases h16 : wanted ≤ 16
      · simp [flavors, h5, h16, formatG_sixteen] at h
        exact .inr ⟨not_le.mp h5, h.symm⟩
      · simp [flavors, h5, h16] at h

theorem requestedMemory_empty : requestedMemory "" = .ok "5" := by
  have hempty : gpuMemory "" = .ok 0 := by decide
  have hmin : Min.min (5 : ℚ) 16 = 5 := by norm_num
  simp [requestedMemory, hempty, flavors, hmin, formatG_five]

/-- The most GPUs a worker has, whatever their memory. -/
theorem most_perWorker {memory : String} (hm : memory = "5" ∨ memory = "16") :
    ((flavors.filter fun f => memoryOf memory ≤ f.memory).map Flavor.perWorker).foldl
      Max.max 0 = 2 := by
  rcases hm with rfl | rfl
  · rw [memoryOf_five]
    decide
  · rw [memoryOf_sixteen]
    decide

/-- A worker has one GPU or two, whatever their memory. -/
theorem requestedPerWorker_eq_ok {value memory perWorker : String}
    (hm : memory = "5" ∨ memory = "16") (h : requestedPerWorker value memory = .ok perWorker) :
    perWorker = "1" ∨ perWorker = "2" := by
  unfold requestedPerWorker at h
  rw [most_perWorker hm] at h
  dsimp only at h
  split_ifs at h with hempty hwhole
  · exact .inl (Except.ok.inj h).symm
  · obtain rfl := Except.ok.inj h
    obtain ⟨hplain, n, hn, hlow, hhigh⟩ := whole_iff.mp hwhole
    obtain ⟨m, hm, htext⟩ := toString_int?_of_plain hplain
    obtain rfl : n = m := Option.some.inj (hn.symm.trans hm)
    have hle : n ≤ 2 := hhigh 2 rfl
    have hcases : n = 1 ∨ n = 2 := by omega
    rcases hcases with rfl | rfl
    · exact .inl htext.symm
    · exact .inr htext.symm

theorem mostWorkers_pos {memory perWorker : String} (hm : memory = "5" ∨ memory = "16")
    (hp : perWorker = "1" ∨ perWorker = "2") : 1 ≤ mostWorkers memory perWorker := by
  unfold mostWorkers
  rcases hm with rfl | rfl
  · rw [memoryOf_five]
    rcases hp with rfl | rfl <;> decide
  · rw [memoryOf_sixteen]
    rcases hp with rfl | rfl <;> decide

theorem whole_one {most : ℕ} (h : 1 ≤ most) : whole "1" 1 (some most) = true :=
  whole_iff.mpr ⟨rfl, 1, rfl, le_rfl, by simpa using h⟩

/-- The workers a call is given are a number written plainly, and up to as many may be asked
for. Only a call for an exact number above one starts with more than one. -/
theorem requestedWorkers_eq_ok {exactly atMost workers least : String} {most : ℕ}
    (hmost : 1 ≤ most) (h : requestedWorkers exactly atMost (some most) = .ok (workers, least)) :
    plain workers.toList = true ∧ requestedWorkers "" workers (some most) = .ok (workers, "1") ∧
      (least = "1" ↔ exactly = "" ∨ exactly = "1") := by
  have hagain : ∀ {text}, text ≠ "" → whole text 1 (some most) = true →
      plain text.toList = true ∧ requestedWorkers "" text (some most) = .ok (text, "1") := by
    intro text hne hwhole
    exact ⟨(whole_iff.mp hwhole).1, by simp [requestedWorkers, hne, hwhole]⟩
  unfold requestedWorkers at h
  dsimp only at h
  by_cases hempty : exactly = ""
  · simp only [hempty, ne_eq, not_true, false_and, if_false, if_true] at h
    split_ifs at h with hnone hwhole <;>
      obtain ⟨rfl, rfl⟩ := Prod.mk.inj (Except.ok.inj h)
    · obtain ⟨hp, ha⟩ := hagain (by decide) (whole_one hmost)
      exact ⟨hp, ha, by simp [hempty]⟩
    · obtain ⟨hp, ha⟩ := hagain hnone hwhole
      exact ⟨hp, ha, by simp [hempty]⟩
  · simp only [hempty, ne_eq, not_false_eq_true, true_and, if_false] at h
    split_ifs at h with hboth hwhole
    obtain ⟨rfl, rfl⟩ := Prod.mk.inj (Except.ok.inj h)
    obtain ⟨hp, ha⟩ := hagain hempty hwhole
    exact ⟨hp, ha, by simp [hempty]⟩

theorem purdueShape_eq_ok {user : User} {values : Dict String String} {shape : Shape} :
    purdueShape user values = .ok shape ↔
      requestedMemory (setting values "af-min-gpu-memory-gb") = .ok shape.memory ∧
      requestedEnv (setting values "af-env") user = .ok shape.env ∧
      requestedSize "af-cpus-per-worker" (setting values "af-cpus-per-worker") workerSize.1 1
        workerCpusMax = .ok shape.cpus ∧
      requestedSize "af-ram-per-worker-gb" (setting values "af-ram-per-worker-gb") workerSize.2
        workerMemoryGbMin workerMemoryGbMax = .ok shape.ram ∧
      requestedPerWorker (setting values "af-gpus-per-worker") shape.memory =
        .ok shape.perWorker ∧
      requestedWorkers (setting values "af-n-workers") (setting values "af-max-workers")
        (some (mostWorkers shape.memory shape.perWorker)) = .ok (shape.workers, shape.least) ∧
      shape.site = "purdue" := by
  constructor
  · intro h
    obtain ⟨memory, hmemory, h⟩ := except_bind_ok h
    obtain ⟨env, henv, h⟩ := except_bind_ok h
    obtain ⟨cpus, hcpus, h⟩ := except_bind_ok h
    obtain ⟨ram, hram, h⟩ := except_bind_ok h
    obtain ⟨perWorker, hper, h⟩ := except_bind_ok h
    obtain ⟨⟨workers, least⟩, hworkers, h⟩ := except_bind_ok h
    obtain rfl := Except.ok.inj h
    exact ⟨hmemory, henv, hcpus, hram, hper, hworkers, rfl⟩
  · rintro ⟨hmemory, henv, hcpus, hram, hper, hworkers, hsite⟩
    have hshape : shape = ⟨shape.env, shape.workers, shape.memory, shape.cpus, shape.ram,
        shape.perWorker, shape.least, "purdue"⟩ := by
      rw [← hsite]
    rw [hshape]
    simp only [purdueShape, hmemory, henv, hcpus, hram, hper, hworkers, ok_bind]
    rfl

theorem nrpShape_site {values : Dict String String} {shape : Shape}
    (h : nrpShape values = .ok shape) : shape.site = "nrp" := by
  unfold nrpShape at h
  dsimp only at h
  split_ifs at h with hothers
  obtain ⟨_, -, h⟩ := except_bind_ok h
  obtain ⟨_, -, h⟩ := except_bind_ok h
  obtain rfl := Except.ok.inj h
  rfl

theorem caller_eq_ok {serviceToken : String} {userFor : String → Except Refused User}
    {values : Dict String String} {user : User} {shape : Shape} :
    caller serviceToken userFor values = .ok (user, shape) ∧ shape.site = "purdue" ↔
      serviceToken ≠ "" ∧ (∃ token, bearerToken (setting values "authorization") = some token ∧
        userFor token = .ok user) ∧ unknownSettings values = [] ∧
      (setting values "af-site" = "" ∨ setting values "af-site" = "purdue") ∧
      purdueShape user values = .ok shape := by
  constructor
  · rintro ⟨h, hsite⟩
    unfold caller at h
    by_cases htoken : serviceToken = ""
    · simp [htoken] at h
    rw [if_neg htoken] at h
    cases hbearer : bearerToken (setting values "authorization") with
    | none => simp [hbearer] at h
    | some token =>
      simp only [hbearer] at h
      by_cases hunknown : unknownSettings values = []
      · rw [if_neg (not_not.mpr hunknown)] at h
        generalize hnamed : (if setting values "af-site" = "" then "purdue"
          else setting values "af-site") = site at h
        split_ifs at h with hneither hnrp
        all_goals
          obtain ⟨who, hwho, h⟩ := except_bind_ok h
          obtain ⟨made, hmade, h⟩ := except_bind_ok h
          obtain ⟨rfl, rfl⟩ := Prod.mk.inj (Except.ok.inj h)
        · rw [nrpShape_site hmade] at hsite
          exact absurd hsite (by decide)
        · have hpurdue : site = "purdue" := by
            by_contra hother
            exact hneither ⟨hother, hnrp⟩
          have hset : setting values "af-site" = "" ∨ setting values "af-site" = "purdue" := by
            by_cases hempty : setting values "af-site" = ""
            · exact .inl hempty
            · rw [if_neg hempty] at hnamed
              exact .inr (hnamed.trans hpurdue)
          exact ⟨htoken, ⟨token, rfl, hwho⟩, hunknown, hset, hmade⟩
      · rw [if_pos hunknown] at h
        cases h
  · rintro ⟨htoken, ⟨token, hbearer, huser⟩, hunknown, hsite, hshape⟩
    have hpurdue : shape.site = "purdue" := (purdueShape_eq_ok.mp hshape).2.2.2.2.2.2
    refine ⟨?_, hpurdue⟩
    have hnamed : (if setting values "af-site" = "" then "purdue" else setting values "af-site") =
        "purdue" := by
      rcases hsite with h | h <;> simp [h]
    simp only [caller, htoken, hbearer, hunknown, hnamed, huser, hshape, ok_bind]
    simp
    rfl

/-- The metadata of the call that is printed for a cluster: its settings, and the token of the
session it is made in. -/
def connecting (authorization : String) (view : ClusterView) : Dict String String :=
  ("authorization", authorization) :: connectSettings view

theorem clusterShape_annotate (shape : Shape) (h : shape.site = "purdue") :
    clusterShape (annotate shape) = shape := by
  cases shape
  simp only at h
  subst h
  rfl

section Connecting
variable (authorization : String) (view : ClusterView)

theorem unknownSettings_connecting : unknownSettings (connecting authorization view) = [] := by
  unfold connecting connectSettings
  split_ifs <;> simp [unknownSettings] <;> decide +kernel

theorem setting_connecting_maxWorkers :
    setting (connecting authorization view) "af-max-workers" = toString view.workers := rfl

theorem setting_connecting_perWorker :
    setting (connecting authorization view) "af-gpus-per-worker" =
      if view.gpusPerWorker = 1 then "" else toString view.gpusPerWorker := by
  unfold connecting connectSettings
  split_ifs <;> first | rfl | contradiction

theorem setting_connecting_env :
    setting (connecting authorization view) "af-env" = view.environment := by
  unfold connecting connectSettings
  split_ifs <;> simp_all [setting, Dict.get?, List.lookup_cons]

theorem key_connecting {e : String × String} (h : e ∈ connecting authorization view) :
    e.1 ∈ ["authorization", "af-max-workers", "af-gpus-per-worker", "af-env"] := by
  simp only [connecting, connectSettings, List.mem_cons, List.mem_append, List.mem_ite_nil_right,
    List.not_mem_nil, or_false] at h
  rcases h with rfl | (rfl | ⟨-, rfl⟩) | ⟨-, rfl⟩ <;> simp

/-- No other setting is printed. -/
theorem setting_connecting_other (name : String) (h : name ∉ ["authorization", "af-max-workers",
    "af-gpus-per-worker", "af-env"]) : setting (connecting authorization view) name = "" := by
  have hnone : (connecting authorization view).get? name = none := by
    rw [Dict.get?, List.lookup_eq_none_iff]
    intro e he
    have hne : ¬name = e.1 := by
      rintro rfl
      exact h (key_connecting authorization view he)
    simpa using hne
  rw [setting, hnone]
  rfl

end Connecting

/-- The calls whose cluster the printed settings describe: they ask for no more memory than the
smallest GPU has, for the template's CPU cores and memory, for no exact number of workers above
one, and for an environment that can be asked for. -/
structure Described (user : User) (values : Dict String String) : Prop where
  memory : ∀ wanted, gpuMemory (setting values "af-min-gpu-memory-gb") = .ok wanted → wanted ≤ 5
  cpus : setting values "af-cpus-per-worker" = "" ∨ setting values "af-cpus-per-worker" = "8"
  ram : setting values "af-ram-per-worker-gb" = "" ∨ setting values "af-ram-per-worker-gb" = "32"
  workers : setting values "af-n-workers" = "" ∨ setting values "af-n-workers" = "1"
  env : setting values "af-env" ≠ "" ∨ mountedEnv defaultEnv user = .ok defaultEnv

theorem requestedMemory_again {value memory : String} (h : requestedMemory value = .ok memory) :
    requestedMemory "" = .ok memory ↔ ∀ wanted, gpuMemory value = .ok wanted → wanted ≤ 5 := by
  obtain ⟨wanted, hwanted, hm⟩ := requestedMemory_eq_ok h
  rw [requestedMemory_empty, hwanted]
  rcases hm with ⟨hle, rfl⟩ | ⟨hlt, rfl⟩
  · simpa using hle
  · simpa using hlt

theorem requestedSize_again {name value default size : String} {least most : ℕ}
    (h : requestedSize name value default least most = .ok size) :
    requestedSize name "" default least most = .ok size ↔ value = "" ∨ value = default := by
  rw [← requestedSize_eq_default_iff h]
  simp [requestedSize, eq_comm]

theorem requestedEnv_again {value env : String} {user : User}
    (h : requestedEnv value user = .ok env) :
    requestedEnv env user = .ok env ↔
      value ≠ "" ∨ mountedEnv defaultEnv user = .ok defaultEnv := by
  unfold requestedEnv at h
  split_ifs at h with hempty
  · obtain rfl := Except.ok.inj h
    have hne : ¬defaultEnv = "" := by decide
    simp [requestedEnv, hempty, hne]
  · have hagain := mountedEnv_idem h
    simp only [requestedEnv, hagain, hempty, ne_eq, not_false_eq_true, true_or, iff_true]
    split_ifs with hnone
    · rw [hnone] at hagain
      exact absurd hagain (by simp [mountedEnv])
    · rfl

theorem requestedPerWorker_again {value memory perWorker : String}
    (h : requestedPerWorker value memory = .ok perWorker) :
    requestedPerWorker (if perWorker = "1" then "" else perWorker) memory = .ok perWorker := by
  split_ifs with hone
  · simp [requestedPerWorker, hone]
  · unfold requestedPerWorker at h
    dsimp only at h
    split_ifs at h with hempty hwhole <;> obtain rfl := Except.ok.inj h
    · exact absurd rfl hone
    · simp [requestedPerWorker, hempty, hwhole]

/-- What `ownCluster` answers for a cluster of a shape that `caller` made. -/
theorem ownCluster_eq_some {user : User} {values : Dict String String} {cluster : LiveCluster}
    (h : purdueShape user values = .ok (clusterShape cluster.annotations)) :
    ∃ view, ownCluster user cluster = some view ∧
      toString view.workers = (clusterShape cluster.annotations).workers ∧
      (if view.gpusPerWorker = 1 then "" else toString view.gpusPerWorker) =
        (if (clusterShape cluster.annotations).perWorker = "1" then ""
          else (clusterShape cluster.annotations).perWorker) ∧
      view.environment = (clusterShape cluster.annotations).env := by
  generalize hshape : clusterShape cluster.annotations = shape at h
  obtain ⟨hmemory, -, -, -, hper, hworkers, -⟩ := purdueShape_eq_ok.mp h
  obtain ⟨wanted, -, hm⟩ := requestedMemory_eq_ok hmemory
  have hm : shape.memory = "5" ∨ shape.memory = "16" := hm.imp And.right And.right
  have hp := requestedPerWorker_eq_ok hm hper
  obtain ⟨hplain, -, -⟩ := requestedWorkers_eq_ok (mostWorkers_pos hm hp) hworkers
  obtain ⟨n, hn, htext⟩ := toString_int?_of_plain hplain
  have hne : shape.workers ≠ "" := by
    rintro hempty
    simp [hempty, plain] at hplain
  have hfloat : ∃ q, float? shape.memory = some q := by
    rcases hm with hm | hm <;> rw [hm]
    · exact ⟨5, float?_five⟩
    · exact ⟨16, float?_sixteen⟩
  obtain ⟨q, hq⟩ := hfloat
  obtain ⟨g, hg, hgtext⟩ : ∃ g, int? shape.perWorker = some g ∧
      (if g = 1 then "" else toString g) = if shape.perWorker = "1" then "" else shape.perWorker := by
    rcases hp with hp | hp <;> rw [hp]
    · exact ⟨1, rfl, rfl⟩
    · exact ⟨2, rfl, rfl⟩
  refine ⟨⟨user.cluster, cluster.headReady, cluster.busy, n, cluster.readyWorkerReplicas, q, g,
    shape.cpus, shape.ram, shape.env⟩, ?_, htext, hgtext, rfl⟩
  simp only [ownCluster, hshape, hne, if_false, hn, hq, hg]
  rfl

/-- Two workers of the smallest GPUs, in the global environment, for a Hub user. -/
def twoWorkers : Dict String String :=
  [("authorization", "Bearer t"), ("af-max-workers", "2")]

def somebody : User := ⟨"user", "user", 1000, 1000, false, false⟩

end PurdueAF.Ray
