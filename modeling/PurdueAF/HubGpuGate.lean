import PurdueAF.Coroutine
import PurdueAF.Dict

/-!
# The GPU gate of the Hub

`refuse_gpu_spawn_if_unavailable`, the reservations and the cache of
`jupyterhub/extraFiles/gpu-availability.py`, as coroutines that await `get_free_gpus`.
The form's `free_gpus` runs among them, since it shares the cache and prunes the
reservations. Times are in nanoseconds.
-/
namespace PurdueAF.HubGpuGate

open Coroutine

def nanoseconds (seconds : ℕ) : ℕ := seconds * 1000000000

def cacheTtl : ℕ := nanoseconds 30

def grantTtl : ℕ := nanoseconds 120

def gpuFlavors : List (String × String) :=
  [("nvidia.com/mig-1g.5gb", "A100 GPU slices (5GB)"),
    ("nvidia.com/mig-7g.40gb", "full A100 GPUs (40GB)"),
    ("nvidia.com/gpu", "NVIDIA T4 GPUs (16GB)")]

/-- One user's one named server. The Hub refuses server names that contain a slash. -/
structure Spawner where
  user : String
  name : String
  plain : '/' ∉ name.toList
  deriving DecidableEq

def spawnerKey (sp : Spawner) : String := sp.user ++ "/" ++ sp.name

/-- An entry of `_recent_grants`. -/
structure Grant where
  time : ℕ
  resource : String
  owner : String
  deriving DecidableEq

abbrev Free := Dict String ℕ

structure Memory where
  recentGrants : List Grant
  cacheExpires : ℕ
  cacheFree : Option Free
  deriving DecidableEq

/-- `_release_grants`. -/
def releaseGrants (owner : String) (gs : List Grant) : List Grant :=
  gs.filter fun g => g.owner ≠ owner

def alive (now : ℕ) (g : Grant) : Bool := now - g.time < grantTtl

/-- `_grants_in_flight`: the list it leaves, and the count. -/
def grantsInFlight (now : ℕ) (resource : String) (gs : List Grant) : List Grant × ℕ :=
  let gs := gs.filter (alive now)
  (gs, gs.countP fun g => g.resource = resource)

/-- The limits of the containers, each amount as `int` reads it, or not. -/
abbrev Pod := List (List (String × Option ℤ))

abbrev Requested := List (String × ℕ)

/-- `requested[resource] = requested.get(resource, 0) + amount`. -/
def addRequest (resource : String) (amount : ℕ) : Requested → Requested
  | [] => [(resource, amount)]
  | (r, n) :: rest =>
    if r = resource then (r, n + amount) :: rest else (r, n) :: addRequest resource amount rest

/-- One round of the loop over the limits; nothing where `int(amount)` raises. -/
def readLimit (found : Bool × Requested) (limit : String × Option ℤ) : Option (Bool × Requested) :=
  let (resource, amount) := limit
  let any := if "nvidia.com/".toList.isPrefixOf resource.toList
    then amount.map fun n => found.1 || decide (0 < n) else some found.1
  any.bind fun anyGpu =>
    if (gpuFlavors.map Prod.fst).contains resource then
      amount.map fun n =>
        (anyGpu, if 0 < n then addRequest resource n.toNat found.2 else found.2)
    else some (anyGpu, found.2)

def requests (pod : Pod) : Option (Bool × Requested) :=
  pod.flatten.foldlM readLimit (false, [])

structure Refusal where
  resource : String
  reason : String
  message : String
  deriving DecidableEq

/-- The text of `GPUsUnavailableError`. -/
def unavailable (resource : String) : String :=
  "All " ++ (gpuFlavors.lookup resource).getD "" ++ " are currently in use by other sessions. " ++
    "Please start a session without a GPU, or try again later."

/-- The loop over the requested resources: the list it leaves, and whether it raises. -/
def checkRequested (now : ℕ) (observed : Free) : List Grant → Requested → List Grant × Option Refusal
  | gs, [] => (gs, none)
  | gs, (resource, amount) :: rest =>
    let (gs, inFlight) := grantsInFlight now resource gs
    let count := (observed.get? resource).getD 0
    if amount ≤ count - inFlight then checkRequested now observed gs rest
    else
      let reason := if count < amount then "exhausted" else "reserved"
      (gs, some ⟨resource, reason, unavailable resource⟩)

/-- What an admitted call adds. -/
def reservations (now : ℕ) (owner : String) (requested : Requested) : List Grant :=
  requested.flatMap fun (resource, amount) => List.replicate amount ⟨now, resource, owner⟩

inductive Event
  /-- released its own reservations and awaits the counts -/
  | asked (sp : Spawner)
  | admitted (sp : Spawner) (requested : Requested)
  | refused (sp : Spawner) (refusal : Refusal)
  /-- Prometheus gave no counts: allowed, nothing reserved -/
  | unknown (sp : Spawner)
  /-- an error or a cancellation came out of the await -/
  | failed (sp : Spawner)
  /-- `int(amount)` raised -/
  | malformed (sp : Spawner)
  /-- asks for no GPU of `GPU_FLAVORS` -/
  | passed (sp : Spawner)
  | shown (free : Option Free)
  deriving DecidableEq

/-- The await of `get_free_gpus`, in the gate or for the form, since when. -/
inductive Await
  | gate (sp : Spawner) (requested : Requested) (since : ℕ)
  | form (since : ℕ)
  deriving DecidableEq

inductive Answer
  | counts (free : Option Free)
  | raised
  deriving DecidableEq

inductive Call
  | gate (sp : Spawner) (pod : Pod)
  | form

inductive Move
  | tick (duration : ℕ)
  /-- `release_gpu_grants_on_stop` -/
  | stop (sp : Spawner)

/-- `free_gpus` with what Prometheus reported. -/
def freeGpus (now : ℕ) (observed : Option Free) (mem : Memory) : Ran Memory Await Event :=
  match observed with
  | none => ⟨mem, none, [.shown none]⟩
  | some [] => ⟨mem, none, [.shown (some [])]⟩
  | some observed =>
    let gs := mem.recentGrants.filter (alive now)
    ⟨{ mem with recentGrants := gs }, none, [.shown (some (observed.map fun e =>
      (e.1, e.2 - (grantsInFlight now e.1 gs).2)))]⟩

def start (now : ℕ) (mem : Memory) : Call → Option (Ran Memory Await Event)
  | .gate sp pod =>
    match requests pod with
    | none => some ⟨mem, none, [.malformed sp]⟩
    -- hide_gpus_from_pod
    | some (false, _) => some ⟨mem, none, [.passed sp]⟩
    | some (true, []) => some ⟨mem, none, [.passed sp]⟩
    | some (true, requested) =>
      some ⟨{ mem with recentGrants := releaseGrants (spawnerKey sp) mem.recentGrants },
        some (.gate sp requested now), [.asked sp]⟩
  | .form =>
    if mem.cacheFree = none ∨ mem.cacheExpires ≤ now then some ⟨mem, some (.form now), []⟩
    else some (freeGpus now mem.cacheFree mem)

/-- The gate after `observed_free_gpus(use_cache=False)`. -/
def decideSpawn (now : ℕ) (sp : Spawner) (requested : Requested) (mem : Memory) :
    Option Free → Ran Memory Await Event
  | none => ⟨mem, none, [.unknown sp]⟩
  | some observed =>
    match checkRequested now observed mem.recentGrants requested with
    | (gs, some refusal) => ⟨{ mem with recentGrants := gs }, none, [.refused sp refusal]⟩
    | (gs, none) =>
      ⟨{ mem with recentGrants := gs ++ reservations now (spawnerKey sp) requested }, none,
        [.admitted sp requested]⟩

/-- `observed_free_gpus` stores what it got, with the expiry counted from before the await. -/
def Memory.cached (mem : Memory) (free : Option Free) (since : ℕ) : Memory :=
  { mem with cacheFree := free, cacheExpires := since + cacheTtl }

def resume (now : ℕ) (mem : Memory) : Await → Answer → Option (Ran Memory Await Event)
  | .gate sp requested since, .counts free =>
    some (decideSpawn now sp requested (mem.cached free since) free)
  | .gate sp _ _, .raised => some ⟨mem, none, [.failed sp]⟩
  | .form since, .counts free => some (freeGpus now free (mem.cached free since))
  | .form _, .raised => some ⟨mem, none, []⟩

def env (now : ℕ) (mem : Memory) : Move → Option (ℕ × Memory)
  | .tick d => some (now + d, mem)
  | .stop sp =>
    some (now, { mem with recentGrants := releaseGrants (spawnerKey sp) mem.recentGrants })

def program : Program ℕ Memory Await Answer Call Event Answer Move where
  start := start
  serve now _ answer := some (now, answer)
  resume := resume
  env := env

abbrev GateState := State ℕ Memory Await Answer

abbrev GateAction := Action Call Answer Move

def initial : GateState := ⟨0, ⟨[], 0, none⟩, []⟩

/-- Prometheus answers the free counts `F`, unless the await ends in an error. -/
def Answers (F : Free) (_ : GateState) : GateAction → Prop
  | .serve _ answer => answer = .raised ∨ answer = .counts (some F)
  | _ => True

/-- Whose call of the gate awaits there. -/
def Await.caller : Await → Option Spawner
  | .gate sp _ _ => some sp
  | .form _ => none

/-- No call of the spawner begins while another of its calls awaits. -/
def Alone (sp : Spawner) (s : GateState) : GateAction → Prop
  | .call (.gate sp' _) => sp' = sp → ∀ th ∈ s.suspended, th.pc.caller ≠ some sp
  | _ => True

instance (F : Free) (s : GateState) (a : GateAction) : Decidable (Answers F s a) :=
  match a with
  | .serve _ _ => inferInstanceAs (Decidable (_ ∨ _))
  | .call _ | .resume _ | .env _ => .isTrue trivial

instance (sp : Spawner) (s : GateState) (a : GateAction) : Decidable (Alone sp s a) :=
  match a with
  | .call (.gate _ _) => inferInstanceAs (Decidable (_ → ∀ th ∈ s.suspended, _))
  | .call .form | .serve _ _ | .resume _ | .env _ => .isTrue trivial

/-- A limit's part in what is asked for of a resource of `GPU_FLAVORS`. -/
def limitFor (resource : String) (limit : String × Option ℤ) : ℕ :=
  if limit.1 = resource ∧ (gpuFlavors.map Prod.fst).contains resource = true then
    (limit.2.getD 0).toNat
  else 0

/-- What a pod asks for of a resource: the sum of its containers' limits. -/
def asksFor (pod : Pod) (resource : String) : ℕ := (pod.flatten.map (limitFor resource)).sum

/-- The live reservations of a resource. -/
def reserved (s : GateState) (resource : String) : ℕ :=
  s.mem.recentGrants.countP fun g => alive s.world g && g.resource = resource

/-- The live reservations of a spawner. -/
def held (s : GateState) (sp : Spawner) : List Grant :=
  s.mem.recentGrants.filter fun g => alive s.world g && g.owner = spawnerKey sp

def Event.spawner : Event → Option Spawner
  | .asked sp | .admitted sp _ | .refused sp _ | .unknown sp | .failed sp | .malformed sp
  | .passed sp => some sp
  | .shown _ => none

def Event.raises : Event → Bool
  | .refused _ _ | .failed _ | .malformed _ => true
  | _ => false

/-- The event is one of a call that asked for GPUs of `GPU_FLAVORS`. -/
def Event.asks : Event → Bool
  | .asked _ | .admitted _ _ | .refused _ _ | .unknown _ | .failed _ => true
  | _ => false

/-- What becomes of a spawner's reservations: an event of a call that asked for GPUs, with
its time, or the stop of its server. -/
inductive Deed
  | call (event : Event) (time : ℕ)
  | stopped

def deeds (sp : Spawner) (e : GateState × GateAction) : List Deed :=
  match e.2 with
  | .env (.stop sp') => if sp' = sp then [.stopped] else []
  | a => ((program.emits e.1 a).filter fun ev => ev.asks && ev.spawner = some sp).map
      fun ev => .call ev e.1.world

/-- What the latest deed leaves the spawner with, as far as it has not expired. -/
def entitled (sp : Spawner) (now : ℕ) : Option Deed → List Grant
  | some (.call (.admitted _ requested) time) =>
    (reservations time (spawnerKey sp) requested).filter (alive now)
  | _ => []

/-- The step leaves the reservations of all spawners but one as they were and reserves
nothing. -/
def Harmless (sp : Spawner) (e : GateState × GateAction) : Prop :=
  ∀ s', program.step e.1 e.2 = some s' → (∀ other, other ≠ sp → held s' other = held e.1 other) ∧
    ∀ g ∈ s'.mem.recentGrants, g ∈ e.1.mem.recentGrants

end PurdueAF.HubGpuGate
