import PurdueAF.RayConfig
import PurdueAF.Machine

/-!
# The code a Ray job takes along

The submissions of one user to one site, each made as Ray's client makes one: for each
package of its runtime environment a GET and a PUT if that answered 404, then the POST.
`Gateway.submission` and `Gateway.nrp_submission` tie these calls together by the RayJob
that waits for the user's next submission. A step is what a call does from one `await` to
the next; what it awaits may fail.
-/
namespace PurdueAF.RayPackages
open Ray Machine

inductive Site
  | purdue | nrp
  deriving DecidableEq

/-- What Ray's client uploads of a runtime environment: URIs. -/
structure RuntimeEnv where
  workingDir : Option String
  pyModules : Option (List String)
  deriving DecidableEq

def RuntimeEnv.uris (env : RuntimeEnv) : List String :=
  env.workingDir.toList ++ env.pyModules.getD []

/-- `gcs://`. -/
def packageScheme : String := "gcs://"

/-- The package a URI of the scheme names. -/
def packageOf (uri : String) : Option String :=
  if packageScheme.toList.isPrefixOf uri.toList then
    some (String.ofList (uri.toList.drop packageScheme.toList.length))
  else none

def RuntimeEnv.packages (env : RuntimeEnv) : List String := env.uris.filterMap packageOf

def codePrefix (job : String) : String := "ray-nrp/jobs/" ++ job

/-- `moved` of `to_s3`. -/
def moved (bucket job uri : String) : String :=
  match packageOf uri with
  | some package => "s3://" ++ bucket ++ "/" ++ codePrefix job ++ "/" ++ package
  | none => uri

def toS3 (env : RuntimeEnv) (bucket job : String) : RuntimeEnv :=
  ⟨env.workingDir.map (moved bucket job), env.pyModules.map (List.map (moved bucket job))⟩

/-- The path of a client's GET and PUT of a package. -/
def packagePath (package : String) : String := "/api/packages/gcs" ++ "/" ++ package

/-- `request.path.rpartition("/")[2]`. -/
def lastPart (path : String) : String :=
  String.ofList (path.toList.reverse.takeWhile (· ≠ '/')).reverse

inductive Call
  | get | put | post
  deriving DecidableEq

/-- Where a client's call is; those with a name have their RayJob. -/
inductive Pc
  | ready (call : Call)
  /-- at Purdue, holding the user's lock: `submitted_before`, `start_job`, the PATCH -/
  | checking
  | starting (call : Call) (name : String)
  | patching (name : String)
  /-- at Purdue, the call passed on to the RayJob's head -/
  | relaying (call : Call) (name : String)
  /-- on NRP, holding the lock: the bucket, the body, and all after the name is popped -/
  | storing (call : Call) (name : String)
  | reading (name : String)
  | creating (name : String)
  | accepted (name : String)
  | ended
  deriving DecidableEq

/-- `rest` are the packages still to check, and `got` those found present or uploaded, each
with the RayJob its call had. -/
structure Client where
  shape : Shape
  env : RuntimeEnv
  rest : List String
  pc : Pc
  got : List (String × String)
  deriving DecidableEq

/-- The RayJob that waits for the user's submission. -/
structure Slot where
  name : String
  shape : Shape
  since : ℤ
  deriving DecidableEq

/-- A package on the head of a RayJob, or an object under its prefix in the bucket. -/
structure Stored where
  job : String
  package : String
  written : ℤ
  deriving DecidableEq

structure State where
  now : ℤ
  slot : Option Slot
  lock : Option ℕ
  drawn : List String
  gone : List String
  stored : List Stored
  clients : List Client
  deriving DecidableEq

def initial : State := ⟨0, none, none, [], [], [], []⟩

inductive Action
  /-- a client begins to submit -/
  | submit (shape : Shape) (env : RuntimeEnv)
  /-- the client's call goes on; `ok` says how its await ended, and `key` is the name drawn
  for a RayJob if it needs one -/
  | go (client : ℕ) (ok : Bool) (key : String)
  | tick (seconds : ℕ)
  /-- the head of a RayJob goes away -/
  | gone (name : String)
  /-- `advance_nrp`'s pass deletes the code of a RayJob that no submission took -/
  | sweep (name : String)

namespace State
variable (site : Site) (s : State)

def present (job package : String) : Bool :=
  s.stored.any fun e => e.job = job && e.package = package

/-- The waiting RayJob, unless it is too old or, at Purdue, of another shape. -/
def fitting (shape : Shape) : Option Slot :=
  s.slot.filter fun w =>
    (site = .nrp || w.shape = shape) && decide (s.now - w.since ≤ startTimeoutS)

def put (c : ℕ) (cl : Client) : State := { s with clients := s.clients.set c cl }

def goto (c : ℕ) (cl : Client) (pc : Pc) : State := s.put c { cl with pc := pc }

/-- The call ends and so does its client, which gives up the lock it may hold. -/
def quit (c : ℕ) (cl : Client) : State :=
  { s.goto c cl .ended with lock := if s.lock = some c then none else s.lock }

def unlock : State := { s with lock := none }

/-- The client got its package and goes on to the next. -/
def gotIt (c : ℕ) (cl : Client) (package name : String) : State :=
  s.put c { cl with
    rest := cl.rest.tail
    pc := .ready (if cl.rest.tail = [] then .post else .get)
    got := (package, name) :: cl.got }

/-- What the package's store answers, and what the client does next. -/
def answer (c : ℕ) (cl : Client) (call : Call) (name : String) : Option State :=
  match call, cl.rest with
  | .get, package :: _ =>
    if s.present name (lastPart (packagePath package)) then some (s.gotIt c cl package name)
    else some (s.goto c cl (.ready .put))
  | .put, package :: _ =>
    some { s.gotIt c cl package name with
      stored := ⟨name, lastPart (packagePath package), s.now⟩ :: s.stored }
  | .post, _ => some (s.goto c cl (.accepted name))
  | _, [] => none

/-- A name is drawn once. -/
def draw (key : String) : Option State :=
  if key ∈ s.drawn then none else some { s with drawn := key :: s.drawn }

/-- `submission` from `self.waiting.pop` on. -/
def take (c : ℕ) (cl : Client) (call : Call) (key : String) : Option State :=
  match s.fitting site cl.shape with
  | some w =>
    if call = .post then some ({ s with slot := none, lock := some c }.goto c cl (.patching w.name))
    else some ((s.unlock).goto c cl (.relaying call w.name))
  | none =>
    (s.draw key).map fun s =>
      { s with slot := none, lock := some c }.goto c cl (.starting call key)

/-- `nrp_submission` up to its first await. -/
def takeNrp (c : ℕ) (cl : Client) (call : Call) (key : String) : Option State :=
  let named := match s.fitting site cl.shape with
    | some w => some (s, w.name)
    | none => (s.draw key).map fun s => (s, key)
  named.map fun (s, name) =>
    if call = .post then { s with lock := some c }.goto c cl (.reading name)
    else { s with slot := some ⟨name, cl.shape, s.now⟩, lock := some c }.goto c cl (.storing call name)

def enter (c : ℕ) (cl : Client) (call : Call) (key : String) : Option State :=
  if s.lock.isSome then none
  else
    match site, call with
    | .purdue, .post => some ({ s with lock := some c }.goto c cl .checking)
    | .purdue, call => s.take site c cl call key
    | .nrp, call => s.takeNrp site c cl call key

def go (c : ℕ) (cl : Client) (key : String) : Option State :=
  match cl.pc with
  | .ready call => s.enter site c cl call key
  | .checking => s.take site c cl .post key
  | .starting .post name => some (s.goto c cl (.patching name))
  | .starting call name =>
    some ({ s with slot := some ⟨name, cl.shape, s.now⟩, lock := none }.goto c cl
      (.relaying call name))
  | .patching name => some (s.unlock.goto c cl (.relaying .post name))
  | .relaying call name => if name ∈ s.gone then none else s.answer c cl call name
  | .storing call name => s.unlock.answer c cl call name
  | .reading name => some ({ s with slot := none }.goto c cl (.creating name))
  | .creating name => some (s.unlock.goto c cl (.accepted name))
  | .accepted _ | .ended => none

end State

/-- A client's first call. -/
def begin (shape : Shape) (env : RuntimeEnv) : Client :=
  ⟨shape, env, env.packages, .ready (if env.packages = [] then .post else .get), []⟩

def step (site : Site) (s : State) : Action → Option State
  | .submit shape env =>
    -- Ray names a package by a hash
    if env.packages.all (fun package => '/' ∉ package.toList) then
      some { s with clients := s.clients ++ [begin shape env] }
    else none
  | .go c ok key =>
    match s.clients[c]? with
    | some cl =>
      if ok then s.go site c cl key
      else if cl.pc = .ended ∨ cl.pc matches .accepted _ then none
      else some (s.quit c cl)
    | none => none
  | .tick seconds => some { s with now := s.now + seconds }
  | .gone name => if site = .purdue then some { s with gone := name :: s.gone } else none
  | .sweep name =>
    if site = .nrp ∧ (s.slot.all fun w => w.name ≠ name) ∧
        (s.stored.all fun e => e.job ≠ name || decide (2 * startTimeoutS ≤ s.now - e.written)) then
      some { s with stored := s.stored.filter fun e => e.job ≠ name }
    else none

/-- The call at which a POST is given its RayJob. -/
def Pc.settles (site : Site) : Pc → Bool
  | .checking => site = .purdue
  | .ready .post => site = .nrp
  | _ => false

/-- A POST that is given its RayJob finds waiting the one that all its client's package
calls had, and no code is deleted under a POST. -/
def Careful (site : Site) (s : State) : Action → Prop
  | .go c ok _ => ∀ cl ∈ s.clients[c]?, ok → cl.pc.settles site → cl.got ≠ [] →
      (s.fitting site cl.shape).any fun w => cl.got.all fun e => e.2 = w.name
  | .sweep name => ∀ cl ∈ s.clients, cl.pc ≠ .reading name ∧ cl.pc ≠ .creating name
  | _ => True

instance (site : Site) (s : State) (a : Action) : Decidable (Careful site s a) :=
  match a with
  | .go c ok _ =>
    match h : s.clients[c]? with
    | some cl => decidable_of_iff (ok → cl.pc.settles site → cl.got ≠ [] →
        (s.fitting site cl.shape).any fun w => cl.got.all fun e => e.2 = w.name) (by simp [Careful, h])
    | none => .isTrue (by simp [Careful, h])
  | .sweep _ => inferInstanceAs (Decidable (∀ cl ∈ s.clients, _))
  | .submit _ _ | .tick _ | .gone _ => .isTrue trivial

/-- A package the environment names, stored where the job of RayJob `name` looks for it. -/
def Reached (site : Site) (s : State) (env : RuntimeEnv) (name package : String) : Prop :=
  match site with
  | .purdue => s.present name package = true
  | .nrp => ∀ bucket, moved bucket name (packageScheme ++ package) =
        "s3://" ++ bucket ++ "/" ++ codePrefix name ++ "/" ++ package ∧
      moved bucket name (packageScheme ++ package) ∈ (toS3 env bucket name).uris ∧
      s.present name package = true

/-- The step accepts the POST of client `c`, whose RayJob is `name`. -/
def Accepts (s s' : State) (c : ℕ) (name : String) (env : RuntimeEnv) : Prop :=
  ∃ cl cl', s.clients[c]? = some cl ∧ s'.clients[c]? = some cl' ∧ cl.pc ≠ .accepted name ∧
    cl'.pc = .accepted name ∧ cl'.env = env

theorem lastPart_slash (base : String) {package : String} (h : '/' ∉ package.toList) :
    lastPart (base ++ "/" ++ package) = package := by
  have hpath : (base ++ "/" ++ package).toList = base.toList ++ '/' :: package.toList := by simp
  have hall (c : Char) (hc : c ∈ package.toList.reverse) : (decide (c ≠ '/')) = true := by
    have hmem : c ∈ package.toList := List.mem_reverse.mp hc
    simp only [decide_eq_true_eq]
    rintro rfl
    exact h hmem
  unfold lastPart
  rw [hpath, List.reverse_append, List.reverse_cons, List.append_assoc,
    List.takeWhile_append_of_pos hall]
  simp

theorem lastPart_packagePath {package : String} (h : '/' ∉ package.toList) :
    lastPart (packagePath package) = package :=
  lastPart_slash _ h

theorem packageOf_append (scheme package : String) (hs : scheme = packageScheme) :
    packageOf (scheme ++ package) = some package := by
  have hlist : (scheme ++ package).toList = scheme.toList ++ package.toList := by simp
  have hpre : scheme.toList.isPrefixOf (scheme ++ package).toList = true := by
    rw [hlist, List.isPrefixOf_iff_prefix]
    exact List.prefix_append _ _
  have hdrop : (scheme ++ package).toList.drop scheme.toList.length = package.toList := by
    rw [hlist, List.drop_left]
  unfold packageOf
  rw [← hs, if_pos hpre, hdrop]
  simp

/-- A URI of the scheme is the scheme and its package. -/
theorem eq_of_packageOf {uri package : String} (h : packageOf uri = some package) :
    uri = packageScheme ++ package := by
  unfold packageOf at h
  split_ifs at h with hpre
  obtain ⟨rest, hrest⟩ := List.isPrefixOf_iff_prefix.mp hpre
  have hdrop : uri.toList.drop packageScheme.toList.length = rest := by
    rw [← hrest, List.drop_left]
  have hpackage : package.toList = rest := by
    rw [← Option.some.inj h, hdrop]
    simp
  apply String.toList_injective
  rw [← hrest]
  simp [hpackage]

theorem moved_mem_toS3 {env : RuntimeEnv} {package : String} (bucket name : String)
    (h : package ∈ env.packages) :
    moved bucket name (packageScheme ++ package) ∈ (toS3 env bucket name).uris := by
  obtain ⟨uri, huri, hpackage⟩ := List.mem_filterMap.mp h
  rw [← eq_of_packageOf hpackage]
  have hmap : (toS3 env bucket name).uris = env.uris.map (moved bucket name) := by
    obtain ⟨workingDir, pyModules⟩ := env
    cases workingDir <;> cases pyModules <;> simp [toS3, RuntimeEnv.uris]
  rw [hmap]
  exact List.mem_map_of_mem huri

end PurdueAF.RayPackages
