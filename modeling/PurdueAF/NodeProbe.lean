import PurdueAF.Dict
import PurdueAF.Machine
import PurdueAF.PyJson

/-!
# The probe of a mount on a node

Every cycle the supervisor starts a check of the mount in a process of its own, which writes its
verdict to a file of the cycle; the supervisor promotes the file to the result, and serves it. A
check past its deadline is abandoned and may write later, and the container may end at any point
and leave its files to the next one. Times and rates are exact.
-/
namespace PurdueAF.NodeProbe
open Machine

structure Settings where
  checksum : String
  metadataDir : String
  fioFile : String
  enableFio : Bool
  fioIntervalS : ℚ
  fioIntervalToleranceS : ℚ
  nodeName : String

/-- The object a check writes and the exporter reads. -/
structure Verdict where
  timestamp : ℚ
  ok : Bool
  timeout : Bool
  pingMs : Option ℚ
  metadataMs : Option ℚ
  throughputGbps : Option ℚ
  lastFioTs : Option ℚ
  node : String
  deriving DecidableEq, Repr

/-- What becomes of a command that a check starts. -/
inductive Command
  | missing
  | overdue
  | broken
  | exited (code : ℤ) (out : String)
  deriving DecidableEq, Repr

structure Bounded where
  ok : Bool
  timeout : Bool
  out : String
  deriving DecidableEq, Repr

/-- `_run_bounded`; a command that is not there raises. -/
def runBounded : Command → Option Bounded
  | .missing => none
  | .overdue => some ⟨false, true, ""⟩
  | .broken => some ⟨false, false, ""⟩
  | .exited code out => some ⟨code = 0, false, out⟩

/-- `out.strip().split()[0]`, where there is one. -/
def firstWord (out : String) : Option String :=
  let word := (out.toList.dropWhile Py.isSpace).takeWhile fun c => !Py.isSpace c
  if word = [] then none else some (String.ofList word)

/-- What one check meets: the times it reads, and its commands. `spread` is the random part of
an interval, `bwBytes` what the report of fio says, where it can be read. -/
structure Check where
  startedAt : ℚ
  spread : ℚ
  ping : Command
  pingMs : ℚ
  metadata : Command
  metadataMs : ℚ
  now : ℚ
  fioAt : ℚ
  fio : Command
  bwBytes : Option ℚ
  deriving DecidableEq, Repr

/-- `_check_ping` -/
def checkPing (cfg : Settings) (check : Check) : Option (Bool × Bool × Option ℚ) :=
  (runBounded check.ping).map fun ran =>
    if !ran.ok || ran.timeout then (false, ran.timeout, some check.pingMs)
    else if cfg.checksum ≠ "" ∧ firstWord ran.out ≠ some cfg.checksum then
      (false, false, some check.pingMs)
    else (true, false, some check.pingMs)

/-- `_check_metadata` -/
def checkMetadata (cfg : Settings) (check : Check) : Option (Bool × Bool × Option ℚ) :=
  if cfg.metadataDir = "" then some (true, false, none)
  else (runBounded check.metadata).map fun ran => (ran.ok, ran.timeout, some check.metadataMs)

def Settings.fio (cfg : Settings) : Bool := cfg.enableFio && cfg.fioFile ≠ ""

/-- `_fio_due` -/
def fioDue (cfg : Settings) (lastFioTs : Option ℚ) (now : ℚ) : Bool :=
  if !cfg.fio then false
  else
    match lastFioTs with
    | none => true
    | some last => cfg.fioIntervalS - cfg.fioIntervalToleranceS ≤ now - last

structure Throughput where
  ok : Bool
  timeout : Bool
  gbps : Option ℚ
  lastFioTs : Option ℚ
  deriving DecidableEq, Repr

def gbpsOf (bwBytes : ℚ) : ℚ := bwBytes * 8 / 1000000000

/-- `_check_throughput` -/
def checkThroughput (cfg : Settings) (lastFioTs : Option ℚ) (check : Check) : Option Throughput :=
  if !fioDue cfg lastFioTs check.fioAt then some ⟨true, false, none, lastFioTs⟩
  else
    (runBounded check.fio).map fun ran =>
      if ran.timeout then ⟨false, true, some 0, lastFioTs⟩
      else if !ran.ok then ⟨false, false, some 0, lastFioTs⟩
      else
        match check.bwBytes with
        | none => ⟨false, false, some 0, lastFioTs⟩
        | some bwBytes => ⟨true, false, some (gbpsOf bwBytes), some check.fioAt⟩

/-- Without a history, the first run of fio falls somewhere in the interval. -/
def lastFio (cfg : Settings) (prev : Option Verdict) (check : Check) : Option ℚ :=
  match prev.bind (·.lastFioTs) with
  | some last => some last
  | none => if cfg.fio then some (check.startedAt - check.spread) else none

/-- `main` of the check: the verdict it writes, or none where it raises. -/
def runChecks (cfg : Settings) (prev : Option Verdict) (check : Check) : Option Verdict := do
  let last := lastFio cfg prev check
  let (pingOk, pingTimeout, pingMs) ← checkPing cfg check
  let (metaOk, metaTimeout, metaMs) ← checkMetadata cfg check
  let rate := prev.bind (·.throughputGbps)
  if !(pingOk && metaOk && !(pingTimeout || metaTimeout)) then
    -- Any failure to respond is reported as a timeout.
    return ⟨check.now, false, true, pingMs, metaMs, rate, last, cfg.nodeName⟩
  let fio ← checkThroughput cfg last check
  return {
    timestamp := check.now
    ok := fio.ok && !fio.timeout
    timeout := fio.timeout
    pingMs := pingMs
    metadataMs := metaMs
    throughputGbps := fio.gbps.or rate
    lastFioTs := fio.lastFioTs.or last
    node := cfg.nodeName }

/-- The rate that a run of fio measured. -/
def measured (cfg : Settings) (prev : Option Verdict) (check : Check) : Option ℚ :=
  if fioDue cfg (lastFio cfg prev check) check.fioAt then
    (checkThroughput cfg (lastFio cfg prev check) check).bind fun fio =>
      if fio.ok then fio.gbps else none
  else none

/-- What a verdict can say: the mount did not respond, or fio was not due, or it measured, or it
failed. -/
theorem runChecks_cases {cfg : Settings} {prev : Option Verdict} {check : Check} {v : Verdict}
    (h : runChecks cfg prev check = some v) :
    (v.ok = false ∧ v.throughputGbps = prev.bind (·.throughputGbps) ∧
      v.lastFioTs = lastFio cfg prev check) ∨
    (fioDue cfg (lastFio cfg prev check) check.fioAt = false ∧
      v.throughputGbps = prev.bind (·.throughputGbps) ∧ v.lastFioTs = lastFio cfg prev check) ∨
    (fioDue cfg (lastFio cfg prev check) check.fioAt = true ∧
      ∃ gbps, measured cfg prev check = some gbps ∧
        v.throughputGbps = some gbps ∧ v.lastFioTs = some check.fioAt) ∨
    (fioDue cfg (lastFio cfg prev check) check.fioAt = true ∧ v.ok = false ∧
      v.throughputGbps = some 0 ∧ v.lastFioTs = lastFio cfg prev check) := by
  simp only [runChecks, Option.bind_eq_bind, Option.pure_def] at h
  obtain ⟨⟨pingOk, pingTimeout, pingMs⟩, -, h⟩ := Option.bind_eq_some_iff.mp h
  obtain ⟨⟨metaOk, metaTimeout, metaMs⟩, -, h⟩ := Option.bind_eq_some_iff.mp h
  split at h
  · obtain rfl := Option.some.inj h
    exact .inl ⟨rfl, rfl, rfl⟩
  obtain ⟨fio, hfio, h⟩ := Option.bind_eq_some_iff.mp h
  obtain rfl := Option.some.inj h
  have hkept : (lastFio cfg prev check).or (lastFio cfg prev check) = lastFio cfg prev check := by
    cases lastFio cfg prev check <;> rfl
  have hsame := hfio
  simp only [checkThroughput] at hfio
  cases hdue : fioDue cfg (lastFio cfg prev check) check.fioAt with
  | false =>
    simp only [hdue, Bool.not_false, if_true] at hfio
    obtain rfl := Option.some.inj hfio
    exact .inr (.inl ⟨rfl, rfl, hkept⟩)
  | true =>
    simp only [hdue, Bool.not_true, Bool.false_eq_true, if_false] at hfio
    obtain ⟨ran, -, hran⟩ := Option.map_eq_some_iff.mp hfio
    split at hran
    · subst hran
      exact .inr (.inr (.inr ⟨rfl, rfl, rfl, hkept⟩))
    split at hran
    · subst hran
      exact .inr (.inr (.inr ⟨rfl, rfl, rfl, hkept⟩))
    cases hbw : check.bwBytes with
    | none =>
      simp only [hbw] at hran
      subst hran
      exact .inr (.inr (.inr ⟨rfl, rfl, rfl, hkept⟩))
    | some bwBytes =>
      simp only [hbw] at hran
      subst hran
      refine .inr (.inr (.inl ⟨rfl, gbpsOf bwBytes, ?_, rfl, rfl⟩))
      simp only [measured, hsame, hdue, if_true, Option.bind_some]

/-- `attempt_path`: the process that is the supervisor, and the number of its cycle. -/
abbrev Attempt := ℕ × ℕ

/-- How far the current cycle has come. -/
inductive Phase
  | stopped
  | idle
  | failed
  | overdue
  | exited
  | recorded (v : Verdict)
  deriving DecidableEq, Repr

structure State where
  pid : ℕ
  seq : ℕ
  phase : Phase
  attempts : Dict Attempt Verdict
  result : Option Verdict
  published : Option Verdict
  ready : Bool
  deriving DecidableEq, Repr

/-- A new pod: its volume is empty. -/
def fresh : State := ⟨0, 0, .stopped, [], none, none, false⟩

def State.current (s : State) : Attempt := (s.pid, s.seq)

/-- How the process of a check goes: `written` says whether it could write its verdict. -/
inductive Child
  | unstarted
  | overdue
  | ran (check : Check) (written : Bool)
  deriving DecidableEq, Repr

/-- Each part of a cycle is one step, and the container may end between any two. `readable`,
`writable` and `marker` say whether the file in question could be read or written, and
`undeletable` which attempts could not be removed. -/
inductive Action
  | start (pid : ℕ) (readable marker : Bool)
  | attempt (child : Child) (readable : Bool) (undeletable : List Attempt)
  | record (now : ℚ) (readable writable marker : Bool)
  | publish (marker : Bool)
  | late (attempt : Attempt) (v : Verdict)
  deriving DecidableEq, Repr

/-- `sweep_attempts` -/
def sweep (undeletable : List Attempt) (keep : Attempt) (attempts : Dict Attempt Verdict) :
    Dict Attempt Verdict :=
  List.filter (fun e => e.1 = keep || e.1 ∈ undeletable) attempts

/-- `timeout_result` -/
def timeoutResult (cfg : Settings) (now : ℚ) (prev : Option Verdict) : Verdict where
  timestamp := now
  ok := false
  timeout := true
  pingMs := none
  metadataMs := none
  throughputGbps := prev.bind (·.throughputGbps)
  lastFioTs := prev.bind (·.lastFioTs)
  node := cfg.nodeName

/-- `load_json` of the result: unreadable is as absent. -/
def loadResult (readable : Bool) (result : Option Verdict) : Option Verdict :=
  if readable then result else none

/-- A cycle that ends without a verdict: nothing is published, and the pod is no longer ready. -/
def State.fail (s : State) (marker : Bool) : State :=
  { s with phase := .idle, seq := s.seq + 1, ready := if marker then false else s.ready }

def step (cfg : Settings) (s : State) : Action → Option State
  | .start pid readable marker =>
    some { s with
      pid := pid
      seq := 0
      phase := .idle
      published := loadResult readable s.result
      ready := if marker then false else s.ready }
  | .attempt child readable undeletable =>
    match s.phase with
    | .idle =>
      let swept := { s with attempts := sweep undeletable s.current s.attempts }
      match child with
      | .unstarted => some { swept with phase := .failed }
      | .overdue => some { swept with phase := .overdue }
      | .ran check written =>
        match if written then runChecks cfg (loadResult readable s.result) check else none with
        | some v => some { swept with
            phase := .exited
            attempts := swept.attempts.set s.current v }
        | none => some { swept with phase := .failed }
    | _ => none
  | .record now readable writable marker =>
    match s.phase with
    | .failed => some (s.fail marker)
    | .overdue =>
      if writable then
        let v := timeoutResult cfg now (loadResult readable s.result)
        some { s with result := some v, phase := .recorded v }
      else some (s.fail marker)
    | .exited =>
      match s.attempts.get? s.current with
      | some v =>
        if readable && writable then
          some { s with
            attempts := s.attempts.pop s.current
            result := some v
            phase := .recorded v }
        else some (s.fail marker)
      | none => some (s.fail marker)
    | _ => none
  | .publish marker =>
    match s.phase with
    | .recorded v => some { s with
        published := some v
        ready := s.ready || marker
        phase := .idle
        seq := s.seq + 1 }
    | _ => none
  | .late attempt v =>
    -- A check that was abandoned, in this cycle or an earlier one of this container.
    if attempt.1 = s.pid ∧
        (attempt.2 < s.seq ∨
          attempt.2 = s.seq ∧ (s.phase = .overdue ∨ s.phase = .failed)) then
      some { s with attempts := s.attempts.set attempt v }
    else none

/-- What a cycle has come to, of a probe that has its verdict at once. -/
inductive Stage
  | stopped
  | idle
  | failed
  | overdue
  | judged (v : Verdict)
  | recorded (v : Verdict)
  deriving DecidableEq, Repr

structure Probe where
  stage : Stage
  result : Option Verdict
  published : Option Verdict
  ready : Bool
  deriving DecidableEq, Repr

inductive Move
  | start (readable marker : Bool)
  | attempt (child : Child) (readable : Bool)
  | record (now : ℚ) (readable writable marker : Bool)
  | publish (marker : Bool)
  deriving DecidableEq, Repr

def Probe.fail (p : Probe) (marker : Bool) : Probe :=
  { p with stage := .idle, ready := if marker then false else p.ready }

def move (cfg : Settings) (p : Probe) : Move → Option Probe
  | .start readable marker =>
    some ⟨.idle, p.result, loadResult readable p.result, if marker then false else p.ready⟩
  | .attempt child readable =>
    match p.stage, child with
    | .idle, .unstarted => some { p with stage := .failed }
    | .idle, .overdue => some { p with stage := .overdue }
    | .idle, .ran check written =>
      match if written then runChecks cfg (loadResult readable p.result) check else none with
      | some v => some { p with stage := .judged v }
      | none => some { p with stage := .failed }
    | _, _ => none
  | .record now readable writable marker =>
    match p.stage with
    | .failed => some (p.fail marker)
    | .overdue =>
      if writable then
        let v := timeoutResult cfg now (loadResult readable p.result)
        some { p with result := some v, stage := .recorded v }
      else some (p.fail marker)
    | .judged v =>
      if readable && writable then some { p with result := some v, stage := .recorded v }
      else some (p.fail marker)
    | _ => none
  | .publish marker =>
    match p.stage with
    | .recorded v => some ⟨.idle, p.result, some v, p.ready || marker⟩
    | _ => none

def State.stage (s : State) : Stage :=
  match s.phase with
  | .stopped => .stopped
  | .idle => .idle
  | .failed => .failed
  | .overdue => .overdue
  | .exited => (s.attempts.get? s.current).elim .failed .judged
  | .recorded v => .recorded v

def State.probe (s : State) : Probe := ⟨s.stage, s.result, s.published, s.ready⟩

/-- What a step is without the files: an abandoned check that writes is nothing. -/
def Action.move : Action → Option Move
  | .start _ readable marker => some (.start readable marker)
  | .attempt child readable _ => some (.attempt child readable)
  | .record now readable writable marker => some (.record now readable writable marker)
  | .publish marker => some (.publish marker)
  | .late _ _ => none

theorem probe_fail (s : State) (marker : Bool) : (s.fail marker).probe = s.probe.fail marker := rfl

/-- A check abandoned earlier has no part in the current cycle. -/
theorem probe_late {cfg : Settings} {s s' : State} {attempt : Attempt} {v : Verdict}
    (h : step cfg s (.late attempt v) = some s') : s'.probe = s.probe := by
  simp only [step] at h
  split at h
  · rename_i hlate
    obtain rfl := Option.some.inj h
    have hstage : State.stage { s with attempts := s.attempts.set attempt v } = s.stage := by
      simp only [State.stage]
      cases hphase : s.phase with
      | exited =>
        have hearlier : attempt.2 < s.seq := by
          rcases hlate.2 with hlt | ⟨-, hwrong⟩
          · exact hlt
          · simp [hphase] at hwrong
        have hne : s.current ≠ attempt := fun heq => by
          rw [← heq] at hearlier
          exact Nat.lt_irrefl _ hearlier
        have hget : (s.attempts.set attempt v).get? s.current = s.attempts.get? s.current :=
          Dict.get?_set_ne _ v hne
        exact congrArg (fun o => Option.elim o Stage.failed Stage.judged) hget
      | _ => rfl
    simp only [State.probe, hstage]
  · cases h

/-- Every step of the supervisor is one of the probe without files, or none. -/
theorem refines_move (cfg : Settings) :
    Refines (step cfg) (move cfg) State.probe Action.move := by
  intro s a s' h
  cases a with
  | start pid readable marker =>
    obtain rfl := Option.some.inj h
    rfl
  | attempt child readable undeletable =>
    simp only [step] at h
    split at h
    · rename_i hphase
      have hidle : s.probe.stage = .idle := by simp [State.probe, State.stage, hphase]
      simp only [Action.move, NodeProbe.move]
      rw [hidle]
      cases child with
      | unstarted =>
        obtain rfl := Option.some.inj h
        rfl
      | overdue =>
        obtain rfl := Option.some.inj h
        rfl
      | ran check written =>
        have hresult : s.probe.result = s.result := rfl
        dsimp only at h ⊢
        rw [hresult]
        split at h <;> rename_i hv
        · rename_i v
          obtain rfl := Option.some.inj h
          have hget := Dict.get?_set_self (sweep undeletable s.current s.attempts) s.current v
          simp only [State.current] at hget
          simp [State.probe, State.stage, State.current, hget]
        · obtain rfl := Option.some.inj h
          rfl
    · cases h
  | record now readable writable marker =>
    simp only [step] at h
    simp only [Action.move, NodeProbe.move]
    cases hphase : s.phase with
    | stopped => simp [hphase] at h
    | idle => simp [hphase] at h
    | recorded v => simp [hphase] at h
    | failed =>
      simp only [hphase] at h
      obtain rfl := Option.some.inj h
      have hstage : s.probe.stage = .failed := by simp [State.probe, State.stage, hphase]
      rw [hstage, probe_fail]
    | overdue =>
      simp only [hphase] at h
      have hstage : s.probe.stage = .overdue := by simp [State.probe, State.stage, hphase]
      rw [hstage]
      cases writable with
      | true =>
        obtain rfl := Option.some.inj h
        rfl
      | false =>
        obtain rfl := Option.some.inj h
        rfl
    | exited =>
      simp only [hphase] at h
      cases hget : s.attempts.get? s.current with
      | none =>
        simp only [hget] at h
        obtain rfl := Option.some.inj h
        have hstage : s.probe.stage = .failed := by simp [State.probe, State.stage, hphase, hget]
        rw [hstage, probe_fail]
      | some v =>
        simp only [hget] at h
        have hstage : s.probe.stage = .judged v := by
          simp [State.probe, State.stage, hphase, hget]
        rw [hstage]
        split at h <;> rename_i hmoved
        · obtain rfl := Option.some.inj h
          simp only [hmoved]
          rfl
        · obtain rfl := Option.some.inj h
          simp only [hmoved]
          rfl
  | publish marker =>
    simp only [step] at h
    split at h
    · rename_i v hphase
      obtain rfl := Option.some.inj h
      have hstage : s.probe.stage = .recorded v := by simp [State.probe, State.stage, hphase]
      simp only [Action.move, NodeProbe.move]
      rw [hstage]
      rfl
    · cases h
  | late attempt v => exact probe_late h

/-- Whatever files earlier cycles and containers left, and whatever abandoned checks write: a
run shows what the probe without files shows. -/
theorem probe_run {cfg : Settings} {s s' : State} {acts : List Action}
    (h : run (step cfg) s acts = some s') :
    run (move cfg) s.probe (acts.filterMap Action.move) = some s'.probe :=
  (refines_move cfg).run h

/-- The probe of a mount, as it is deployed. -/
def depot : Settings :=
  ⟨"13dede34ee8dc7e5b70c9cd06ac15467", "/depot/cms/", "/depot/cms/.storage-monitoring-probe-1gb",
    true, 1800, 60, "node-a"⟩

/-- A check that finds the mount good, and fio at two gigabits a second. -/
def goodCheck (startedAt spread : ℚ) : Check where
  startedAt := startedAt
  spread := spread
  ping := .exited 0 "13dede34ee8dc7e5b70c9cd06ac15467  /depot/cms/validate-mount.txt"
  pingMs := 5
  metadata := .exited 0 ""
  metadataMs := 7
  now := startedAt + 1
  fioAt := startedAt + 1
  fio := .exited 0 ""
  bwBytes := some 250000000

def staleVerdict : Verdict := ⟨3, true, false, some 5, some 7, some 9, some 3, "node-a"⟩

/-- A check is abandoned and writes a success after all; the container ends before it records,
and the next one, whose first cycle has the name of that file, finds the mount good. -/
def recovered : List Action :=
  [.start 1 true true, .attempt .overdue true [], .late (1, 0) staleVerdict,
    .start 1 true true, .attempt (.ran (goodCheck 1000 1790) true) true [(1, 0)],
    .record 1002 true true true, .publish true]

theorem probe_run_recovered :
    ∃ s, run (step depot) fresh recovered = some s ∧
      run (move depot) fresh.probe (recovered.filterMap Action.move) = some s.probe := by
  obtain ⟨s, hs⟩ := Option.isSome_iff_exists.mp
    (show (run (step depot) fresh recovered).isSome = true by decide +kernel)
  exact ⟨s, hs, probe_run hs⟩

end PurdueAF.NodeProbe
