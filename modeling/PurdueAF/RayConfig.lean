import Mathlib.Data.Rat.Defs
import Mathlib.Tactic.Common
import PurdueAF.Dict
import PurdueAF.RayNaming

/-!
# Settings, shapes and users of the Ray gateway

The values of `config.yaml` as `gateway.py` reads them, with times in seconds, and the
records every call carries.
-/
namespace PurdueAF.Ray
open RayNaming

def idleTimeoutS : ℤ := 900
def jobRecordS : ℤ := 604800
def startTimeoutS : ℤ := 600
def provisionTimeoutS : ℤ := 600
def goneS : ℤ := 300
def grantS : ℤ := 120
def nrpStartTimeoutS : ℤ := 1800
def nrpUtilizationWindowS : ℤ := 1800

/-- A kind of GPU a worker may hold. -/
structure Flavor where
  resource : String
  memory : ℚ
  budget : ℕ
  perWorker : ℕ
  deriving DecidableEq, Repr

def flavors : List Flavor :=
  [⟨"nvidia.com/mig-1g.5gb", 5, 14, 1⟩, ⟨"nvidia.com/gpu", 16, 8, 2⟩]

theorem flavors_nodup : (flavors.map Flavor.resource).Nodup := by decide

theorem resource_inj : ∀ f ∈ flavors, ∀ g ∈ flavors, f.resource = g.resource → f = g := by
  decide +kernel

inductive StatusCode
  | invalidArgument | unauthenticated | permissionDenied | notFound
  | failedPrecondition | aborted | resourceExhausted | unavailable
  deriving DecidableEq, Repr

/-- A call the gateway answers itself. -/
structure Refused where
  code : StatusCode
  text : String
  deriving DecidableEq, Repr

/-- What a user's cluster runs. Its numbers are text, written plainly (`whole`), and
compared as text. -/
structure Shape where
  env : String
  workers : String
  memory : String
  cpus : String
  ram : String
  perWorker : String
  least : String
  site : String := "purdue"
  deriving DecidableEq, Repr

/-- `int` on plain decimal digits, all that a Shape holds. -/
def int? (text : String) : Option ℕ :=
  match text.toList with
  | [] => none
  | cs => if cs.all isDigit then some (cs.foldl (fun n c => 10 * n + (c.toNat - 48)) 0) else none

/-- `float` on plain decimals, as `:g` prints a flavor's memory. -/
def float? (text : String) : Option ℚ :=
  match text.toList.span isDigit with
  | (_, []) => (int? text).map fun n => (n : ℚ)
  | (w, _ :: f) =>
    match int? (String.ofList w), int? (String.ofList f) with
    | some a, some b => some (a + b / 10 ^ f.length)
    | _, _ => none

/-- What admission reads of a shape: how many workers it asks for and at least needs, the
GPUs of each, and the flavors that have them. A call asks for one worker or more, of one
GPU or more. -/
structure Ask where
  wanted : ℕ
  least : ℕ
  perWorker : ℕ
  flavors : List Flavor
  wanted_pos : 0 < wanted
  perWorker_pos : 0 < perWorker
  known : ∀ f ∈ flavors, f ∈ Ray.flavors
  nodup : (flavors.map Flavor.resource).Nodup

def Shape.flavors (memory : ℚ) (perWorker : ℕ) : List Flavor :=
  Ray.flavors.filter fun f => memory ≤ f.memory && perWorker ≤ f.perWorker

theorem Shape.flavors_nodup (memory : ℚ) (perWorker : ℕ) :
    ((Shape.flavors memory perWorker).map Flavor.resource).Nodup :=
  List.Nodup.sublist (List.filter_sublist.map Flavor.resource) Ray.flavors_nodup

def Shape.ask (s : Shape) : Option Ask :=
  match int? s.workers, int? s.least, int? s.perWorker, float? s.memory with
  | some w, some l, some p, some m =>
    if h : 0 < w ∧ 0 < p then
      some ⟨w, l, p, Shape.flavors m p, h.1, h.2, fun _ hf => (List.mem_filter.mp hf).1,
        Shape.flavors_nodup m p⟩
    else none
  | _, _, _, _ => none

structure User where
  name : String
  account : String
  uid : ℕ
  gid : ℕ
  sessionGpu : Bool := false
  workload : Bool := false
  deriving DecidableEq, Repr

def User.cluster (u : User) : String := clusterName u.name

/-- The workload account their cluster is of, or the empty name for a Hub user's. -/
def User.owner (u : User) : String := if u.workload then u.name else ""

end PurdueAF.Ray
