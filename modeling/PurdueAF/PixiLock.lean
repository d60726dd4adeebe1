import Mathlib.Data.Rat.Defs
import PurdueAF.Dict
import PurdueAF.Machine

/-!
# The lock of the environment sync

`acquire_lock`, `write_heartbeat`, `release_lock` and `FrozenHeartbeatObserver` of
`pixi-global-sync/sync-global-env.py`, run by any number of processes over one shared
directory. A step is one file-system operation of one process, the passing of time, or
the death of a process. Times are in nanoseconds.
-/
namespace PurdueAF.PixiLock

open Machine

def lockFrozenSeconds : ℕ := 90

def nanoseconds (seconds : ℕ) : ℕ := seconds * 1000000000

/-- The files of the lock directory: `heartbeat.json` and `.hb-<pid>.tmp`. -/
inductive FileName
  | heartbeat
  | tmp (pid : ℕ)
  deriving DecidableEq

/-- The payload of `write_heartbeat`. -/
structure Payload where
  holder : String
  pid : ℕ
  ts : ℚ
  deriving DecidableEq

/-- The directory `.sync-lock`. The last two fields are not on disk and no step reads
them: who made the directory or last took it over, and when its heartbeat was last
written or removed. -/
structure LockDir where
  inode : ℕ
  files : Dict FileName Payload
  owner : ℕ
  changed : ℕ
  deriving DecidableEq

/-- `FrozenHeartbeatObserver._seen`: the last timestamp and when it was first seen. -/
abbrev Seen := Option (Option ℚ × ℕ)

/-- `FrozenHeartbeatObserver.frozen`, with what it remembers afterwards. -/
def frozen (threshold : ℕ) (seen : Seen) (heartbeatTs : Option ℚ) (nowMonotonic : ℕ) :
    Seen × Bool :=
  match seen with
  | none => (some (heartbeatTs, nowMonotonic), false)
  | some (ts, first) =>
    if ts ≠ heartbeatTs then (some (heartbeatTs, nowMonotonic), false)
    else (seen, threshold < nowMonotonic - first)

/-- The next operation of a process in `acquire_lock` or `release_lock`. -/
inductive Pc
  /-- `LOCK_DIR.mkdir(parents=True)` -/
  | mkdir (seen : Seen)
  /-- `write_heartbeat()` after the `mkdir`: the file, then the rename -/
  | first
  | firstTmp
  /-- `heartbeat_path().read_text()` after `FileExistsError` -/
  | read (seen : Seen)
  | asleep (seen : Seen) (till : ℕ)
  /-- `write_heartbeat()` after the observer said frozen -/
  | take
  | takeTmp
  /-- `acquire_lock` has returned and `release_lock` has not been called -/
  | holding
  /-- `shutil.rmtree`: open the directory, list it, unlink each name, `rmdir` the path -/
  | rmtree
  | listing (inode : ℕ)
  | unlinking (inode : ℕ) (names : List FileName)
  | released
  /-- an error left `acquire_lock` -/
  | raised
  deriving DecidableEq

/-- `pending` counts the heartbeats its threads have written and not yet renamed; `beat`
is when it last made the directory or renamed a heartbeat, and is read by no step. -/
structure Proc where
  host : String
  pid : ℕ
  live : Bool
  pc : Pc
  pending : ℕ
  beat : ℕ
  deriving DecidableEq

structure State where
  now : ℕ
  lock : Option LockDir
  /-- how many directories were ever made -/
  dirs : ℕ
  procs : List Proc
  deriving DecidableEq

def initial : State := ⟨0, none, 0, []⟩

/-- One operation. `write` and `rename` are the two of `write_heartbeat`, in
`acquire_lock` or in the loop and the `_beat` thread of a holder. -/
inductive Op
  | mkdir
  | read (readable : Bool)
  | wake
  | write (ts : ℚ)
  | rename
  | release
  | openDir
  | list (names : List FileName)
  | unlink
  | rmdir
  /-- the next operation raises an `OSError` and does nothing -/
  | fail

inductive Action
  | start (host : String) (pid : ℕ)
  | op (proc : ℕ) (op : Op)
  | crash (proc : ℕ)
  | tick (duration : ℕ)

namespace State

def live (s : State) (t : ℕ) : Option Proc := (s.procs[t]?).filter Proc.live

def put (s : State) (t : ℕ) (p : Proc) : State := { s with procs := s.procs.set t p }

def goto (s : State) (t : ℕ) (p : Proc) (pc : Pc) : State := s.put t { p with pc := pc }

/-- What a look at the heartbeat gives: nothing if it is missing or unreadable. -/
def heartbeatTs (s : State) (readable : Bool) : Option ℚ :=
  if readable then (s.lock.bind fun l => l.files.get? .heartbeat).map Payload.ts else none

def writeTmp (s : State) (p : Proc) (ts : ℚ) : Option LockDir :=
  s.lock.map fun l => { l with files := l.files.set (.tmp p.pid) ⟨p.host, p.pid, ts⟩ }

/-- `tmp.replace(heartbeat_path())`, if there is such a file. -/
def renameTmp (s : State) (p : Proc) : Option LockDir :=
  s.lock.bind fun l => (l.files.get? (.tmp p.pid)).map fun payload =>
    { l with files := (l.files.pop (.tmp p.pid)).set .heartbeat payload, changed := s.now }

/-- `os.unlink(name, dir_fd=…)`: of a directory that is gone nothing is left to unlink. -/
def unlinkIn (s : State) (inode : ℕ) (name : FileName) : Option LockDir :=
  s.lock.map fun l =>
    if l.inode = inode then
      { l with files := l.files.pop name, changed := if name = .heartbeat then s.now else l.changed }
    else l

end State

/-- After the first file of `write_heartbeat` in `acquire_lock`. -/
def Pc.written : Pc → Option Pc
  | .first => some .firstTmp
  | .take => some .takeTmp
  | _ => none

/-- The `_beat` thread is a daemon: it may still write while the lock is being removed. -/
def Pc.beats : Pc → Bool
  | .holding | .rmtree | .listing _ | .unlinking _ _ | .released => true
  | _ => false

namespace State

def write (s : State) (t : ℕ) (p : Proc) (ts : ℚ) : Option State :=
  match p.pc.written with
  | some pc =>
    match s.writeTmp p ts with
    | some l => some { s.goto t p pc with lock := some l }
    | none => some (s.goto t p .raised)
  | none =>
    if p.pc.beats then
      match s.writeTmp p ts with
      | some l => some { s.put t { p with pending := p.pending + 1 } with lock := some l }
      | none => some (s.put t p)
    else none

def rename (s : State) (t : ℕ) (p : Proc) : Option State :=
  if p.pc = .firstTmp ∨ p.pc = .takeTmp then
    match s.renameTmp p with
    | some l => some { s.put t { p with pc := .holding, beat := s.now } with
        lock := some { l with owner := t } }
    | none => some (s.goto t p .raised)
  else if p.pc.beats ∧ 0 < p.pending then
    match s.renameTmp p with
    | some l => some { s.put t { p with pending := p.pending - 1, beat := s.now } with
        lock := some l }
    | none => some (s.put t { p with pending := p.pending - 1 })
  else none

def list (s : State) (t : ℕ) (p : Proc) (inode : ℕ) (names : List FileName) : Option State :=
  let found := (s.lock.filter fun l => l.inode = inode).elim [] fun l => l.files.map Prod.fst
  if names.Perm found then some (s.goto t p (.unlinking inode names)) else none

/-- `os.rmdir(path)` of the directory that stands there now, if it is empty. -/
def rmdir (s : State) (t : ℕ) (p : Proc) : State :=
  { s.goto t p .released with lock := s.lock.filter fun l => l.files ≠ [] }

/-- An error leaves `acquire_lock`; `ignore_errors` and the loop pass over theirs. -/
def fail (s : State) (t : ℕ) (p : Proc) : Option State :=
  match p.pc with
  | .mkdir _ | .first | .firstTmp | .take | .takeTmp => some (s.goto t p .raised)
  | .holding => some (s.put t { p with pending := p.pending - 1 })
  | .rmtree => some (s.goto t p .released)
  | .listing inode => some (s.goto t p (.unlinking inode []))
  | .unlinking inode (_ :: names) => some (s.goto t p (.unlinking inode names))
  | .unlinking _ [] => some (s.goto t p .released)
  | _ => none

def perform (s : State) (t : ℕ) (p : Proc) : Op → Option State
  | .mkdir =>
    match p.pc, s.lock with
    | .mkdir _, none => some { s.put t { p with pc := .first, beat := s.now } with
        lock := some ⟨s.dirs, [], t, s.now⟩, dirs := s.dirs + 1 }
    | .mkdir seen, some _ => some (s.goto t p (.read seen))
    | _, _ => none
  | .read readable =>
    match p.pc with
    | .read seen =>
      match frozen (nanoseconds lockFrozenSeconds) seen (s.heartbeatTs readable) s.now with
      | (_, true) => some (s.goto t p .take)
      | (seen', false) => some (s.goto t p (.asleep seen' (s.now + nanoseconds 30)))
    | _ => none
  | .wake =>
    match p.pc with
    | .asleep seen till => if till ≤ s.now then some (s.goto t p (.mkdir seen)) else none
    | _ => none
  | .write ts => s.write t p ts
  | .rename => s.rename t p
  | .release => if p.pc = .holding then some (s.goto t p .rmtree) else none
  | .openDir =>
    match p.pc, s.lock with
    | .rmtree, some l => some (s.goto t p (.listing l.inode))
    | .rmtree, none => some (s.goto t p .released)
    | _, _ => none
  | .list names =>
    match p.pc with
    | .listing inode => s.list t p inode names
    | _ => none
  | .unlink =>
    match p.pc with
    | .unlinking inode (name :: names) =>
      some { s.goto t p (.unlinking inode names) with lock := s.unlinkIn inode name }
    | _ => none
  | .rmdir =>
    match p.pc with
    | .unlinking _ [] => some (s.rmdir t p)
    | _ => none
  | .fail => s.fail t p

end State

def step (s : State) : Action → Option State
  | .start host pid =>
    some { s with procs := s.procs ++ [⟨host, pid, true, .mkdir none, 0, s.now⟩] }
  | .op t o => (s.live t).bind fun p => s.perform t p o
  | .crash t => (s.live t).map fun p => s.put t { p with live := false }
  | .tick d => some { s with now := s.now + d }

/-- From the `mkdir` or the takeover to the end of `release_lock`. -/
def Pc.owning : Pc → Bool
  | .first | .firstTmp | .holding | .rmtree | .listing _ | .unlinking _ _ => true
  | _ => false

/-- From the look that found the heartbeat frozen to the takeover. -/
def Pc.taking : Pc → Bool
  | .take | .takeTmp => true
  | _ => false

/-- From the return of `acquire_lock` to the end of `release_lock`. -/
def Pc.inside : Pc → Bool
  | .holding | .rmtree | .listing _ | .unlinking _ _ => true
  | _ => false

/-- The last heartbeat of the process, or its `mkdir`, is not older than the threshold. -/
def State.fresh (s : State) (p : Proc) : Bool :=
  s.now ≤ p.beat + nanoseconds lockFrozenSeconds

/-- Every live holder has refreshed its heartbeat in time. -/
def Refreshed (s : State) (_ : Action) : Prop :=
  ∀ p ∈ s.procs, p.live → p.pc = .holding → s.fresh p

/-- The look of process `t` finds the heartbeat frozen. -/
def State.finds (s : State) (t : ℕ) (readable : Bool) : Bool :=
  match s.live t with
  | some p =>
    match p.pc with
    | .read seen =>
      (frozen (nanoseconds lockFrozenSeconds) seen (s.heartbeatTs readable) s.now).2
    | _ => false
  | none => false

/-- A look that finds the heartbeat frozen is made while the heartbeat is one that really
has not changed for the threshold, no live process is stuck that long between its `mkdir`
and its first heartbeat or in `release_lock`, and no other live process has found it
frozen and not yet taken it over. -/
def Careful (s : State) : Action → Prop
  | .op t (.read readable) => s.finds t readable →
    (∃ l ∈ s.lock, l.changed + nanoseconds lockFrozenSeconds < s.now) ∧
    ∀ p ∈ s.procs, p.live → p.pc.taking = false ∧
      (p.pc.owning → p.pc = .holding ∨ s.fresh p)
  | _ => True

instance (s : State) (a : Action) : Decidable (Refreshed s a) :=
  inferInstanceAs (Decidable (∀ p ∈ s.procs, _ → _ → _))

instance (s : State) (a : Action) : Decidable (Careful s a) :=
  match a with
  | .op t (.read readable) =>
    haveI : Decidable (∃ l ∈ s.lock, l.changed + nanoseconds lockFrozenSeconds < s.now) :=
      match s.lock with
      | none => .isFalse (by simp)
      | some l => decidable_of_iff (l.changed + nanoseconds lockFrozenSeconds < s.now) (by simp)
    inferInstanceAs (Decidable (_ → _ ∧ _))
  | .op _ .mkdir | .op _ .wake | .op _ (.write _) | .op _ .rename | .op _ .release
  | .op _ .openDir | .op _ (.list _) | .op _ .unlink | .op _ .rmdir | .op _ .fail
  | .start _ _ | .crash _ | .tick _ => .isTrue trivial

/-- A look of process `proc` at the heartbeat. -/
structure Look where
  proc : ℕ
  time : ℕ
  ts : Option ℚ
  deriving DecidableEq

def looks (s : State) : Action → List Look
  | .op t (.read readable) =>
    match s.live t with
    | some p =>
      match p.pc with
      | .read _ => [⟨t, s.now, s.heartbeatTs readable⟩]
      | _ => []
    | none => []
  | _ => []

/-- All looks of a process from some one on gave the same, over more than the threshold. -/
def Watched (J : List Look) (t : ℕ) : Prop :=
  ∃ (before : List Look) (first last : Look) (between : List Look),
    J.filter (fun k => k.proc = t) = before ++ first :: (between ++ [last]) ∧
    (∀ k ∈ between ++ [last], k.ts = first.ts) ∧
    first.time + nanoseconds lockFrozenSeconds < last.time

/-- At most one live process is inside, and `release_lock` removes nothing of a lock that
its caller has not made or taken over last. -/
structure Exclusive (s : State) : Prop where
  one : ∀ t t' p p', s.live t = some p → s.live t' = some p' → p.pc.inside → p'.pc.inside →
    t = t'
  own : ∀ t o s', (o = .unlink ∨ o = .rmdir) → step s (.op t o) = some s' → s'.lock ≠ s.lock →
    ∃ l, s.lock = some l ∧ l.owner = t

end PurdueAF.PixiLock
