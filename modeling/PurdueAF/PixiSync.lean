import Mathlib.Data.Rat.Defs
import Mathlib.Algebra.Order.Ring.Unbundled.Rat
import PurdueAF.Machine

/-!
# The main loop of the environment sync

`reconcile`, `deep_verify` and the loop that calls them, of
`pixi-global-sync/sync-global-env.py`. What a subprocess or a file operation does is an
input of the step that runs it. Manifests, pause file and environment are changed by
others between the cycles.
-/
namespace PurdueAF.PixiSync

open Machine

def verifySeconds : ℚ := 6 * 3600

def failCooldown : ℚ := 30 * 60

abbrev Bytes := List UInt8

/-- The two files of `read_desired`. -/
structure Manifests where
  toml : Bytes
  lock : Bytes
  deriving DecidableEq

/-- The files of `LIVE_DIR` that the daemon reads. -/
structure Live where
  toml : Option Bytes
  lock : Option Bytes
  pause : Bool
  deriving DecidableEq

/-- A live file that is missing or cannot be read counts as drift. -/
def isInSync (readable : Bool) (live : Live) (desired : Manifests) : Bool :=
  readable && live.toml = some desired.toml && live.lock = some desired.lock

/-- Which of the steps of `stage_manifests` return: the `mkdir`, and for each file the
write and the rename. -/
structure Staging where
  mkdir : Bool
  toml : Bool
  lock : Bool

def stageManifests (o : Staging) (live : Live) (files : Manifests) : Live × Bool :=
  if o.mkdir then
    if o.toml then
      if o.lock then ({ live with toml := some files.toml, lock := some files.lock }, true)
      else ({ live with toml := some files.toml }, false)
    else (live, false)
  else (live, false)

/-- `run_with_heartbeat`. -/
inductive Run
  | raised
  | exited (returncode : ℤ)
  deriving DecidableEq

/-- What the attempts of `pixi_install` do, and whether the daemon is stopped while it
waits after one. -/
structure Installing where
  run : ℕ → Run
  stopped : ℕ → Bool

/-- The loop of `pixi_install` with `left` attempts to make: whether it returns. -/
def installFrom (o : Installing) (attempt : ℕ) : ℕ → Bool
  | 0 => false
  | left + 1 =>
    match o.run attempt with
    | .raised => false
    | .exited code =>
      if code = 0 then true
      else if 0 < left ∧ o.stopped attempt then false
      else installFrom o (attempt + 1) left

def pixiInstall (o : Installing) : Bool := installFrom o 1 3

/-- The interpreter of the environment is missing, or `check-env.py` ran on it. -/
inductive Checking
  | missing
  | ran (run : Run)
  deriving DecidableEq

/-- `validate_env`; nothing where it raises. -/
def validateEnv : Checking → Option Bool
  | .missing => some false
  | .ran .raised => none
  | .ran (.exited code) => some (code = 0)

structure Build where
  install : Installing
  purge : Bool
  check : Checking

/-- `pixi_install`, `purge_incomplete_dist_infos` and `validate_env`. -/
def build (o : Build) : Option Bool :=
  if pixiInstall o.install && o.purge then validateEnv o.check else none

/-- What the operations of one attempt do. -/
structure Attempt where
  staging : Staging
  wipe : Bool
  first : Build
  rewipe : Bool
  second : Build

/-- How the `try` of `reconcile` ends; `invalid` where it set `env_healthy` to 0 first. -/
inductive Ended
  | installed
  | raised (invalid : Bool)
  deriving DecidableEq

def buildLive (healthy : Bool) (a : Attempt) : Ended :=
  if healthy || a.wipe then
    match build a.first with
    | none => .raised false
    | some true => .installed
    | some false =>
      if a.rewipe then
        match build a.second with
        | none => .raised false
        | some true => .installed
        | some false => .raised true
      else .raised false
  else .raised false

def sync (healthy : Bool) (a : Attempt) (live : Live) (desired : Manifests) : Live × Ended :=
  let staged := stageManifests a.staging live desired
  if staged.2 then (staged.1, buildLive healthy a) else (staged.1, .raised false)

inductive Phase
  /-- others changed something since the last cycle -/
  | between
  /-- `reconcile` returned and `deep_verify` is due -/
  | verifying
  /-- the cycle is over -/
  | over
  deriving DecidableEq

/-- `METRICS`, `_installed` and `_last_failure`, the local `last_verify`, the files, and
what the cycle read as desired. -/
structure State where
  config : Manifests
  live : Live
  inSync : ℚ
  paused : ℚ
  envHealthy : ℚ
  installed : Option Manifests
  lastFailure : ℚ
  lastVerify : ℚ
  phase : Phase
  read : Option Manifests
  deriving DecidableEq

def initial (config : Manifests) (live : Live) : State :=
  ⟨config, live, 0, 0, 1, none, 0, 0, .between, none⟩

def State.healthy (s : State) : Bool := 1 / 2 ≤ s.envHealthy

/-- An attempt that was made: the manifests it was for, whether the environment was held
healthy, so that it was not wiped first, and what its operations did. -/
structure Tried where
  manifests : Manifests
  healthy : Bool
  attempt : Attempt

/-- What a call leaves behind: it returned a value or raised. -/
structure Passed where
  state : State
  result : Option Bool
  tried : List Tried

/-- What one call of `reconcile` meets: whether `read_desired` returns and the live
manifests can be read, the clock, and the attempt if it makes one. -/
structure Pass where
  reads : Bool
  readable : Bool
  now : ℚ
  attempt : Attempt
  failedAt : ℚ

def gauge (b : Bool) : ℚ := if b then 1 else 0

/-- The manifests are live, and they are the ones last installed. -/
def State.current (s : State) (readable : Bool) : Bool :=
  isInSync readable s.live s.config && s.installed = some s.config

def install (p : Pass) (s : State) : Passed :=
  let out := sync s.healthy p.attempt s.live s.config
  match out.2 with
  | .installed =>
    ⟨{ s with live := out.1, installed := some s.config, inSync := 1, envHealthy := 1 }, some true,
      [⟨s.config, s.healthy, p.attempt⟩]⟩
  | .raised invalid =>
    ⟨{ s with
        live := out.1
        installed := none
        lastFailure := p.failedAt
        envHealthy := if invalid then 0 else s.envHealthy }, some false, [⟨s.config, s.healthy, p.attempt⟩]⟩

def reconcile (force : Bool) (p : Pass) (s : State) : Passed :=
  if !p.reads then ⟨s, none, []⟩
  else if s.live.pause then
    ⟨{ s with
        read := some s.config
        installed := none
        paused := 1
        inSync := gauge (isInSync p.readable s.live s.config) }, some true, []⟩
  else
    let current := s.current p.readable
    let s' := { s with read := some s.config, paused := 0, inSync := gauge current }
    if current && !force && s.healthy then ⟨s', some true, []⟩
    else if !force && p.now - s.lastFailure < failCooldown then ⟨s', some false, []⟩
    else install p s'

def deepVerify (check : Checking) (p : Pass) (s : State) : Passed :=
  if s.live.pause || s.live.toml.isNone then ⟨s, some true, []⟩
  else
    match validateEnv check with
    | none => ⟨s, none, []⟩
    | some true => ⟨{ s with envHealthy := 1 }, some true, []⟩
    | some false => reconcile true p { s with envHealthy := 0 }

inductive Action
  | change (config : Manifests) (live : Live)
  /-- The first half of a cycle; `checked` and `noted` are what the clock says where the
  loop decides on `deep_verify`. -/
  | reconcile (p : Pass) (checked noted : ℚ)
  | deepVerify (check : Checking) (p : Pass)

/-- What the first half of a cycle calls. -/
def firstHalf (s : State) (p : Pass) : Passed := reconcile false p { s with read := none }

def step (s : State) : Action → Option State
  | .change config live =>
    if s.phase = .verifying then none
    else some { s with config := config, live := live, phase := .between, read := none }
  | .reconcile p checked noted =>
    if s.phase = .verifying then none
    else
      let out := firstHalf s p
      -- an error that leaves `reconcile` skips the rest of the cycle
      if out.result.isSome ∧ verifySeconds < checked - s.lastVerify then
        some { out.state with lastVerify := noted, phase := .verifying }
      else some { out.state with phase := .over }
  | .deepVerify check p =>
    if s.phase = .verifying then some { (deepVerify check p s).state with phase := .over }
    else none

def tried (s : State) : Action → List Tried
  | .change _ _ => []
  | .reconcile p _ _ => (firstHalf s p).tried
  | .deepVerify check p => (deepVerify check p s).tried

/-- A run of `pixi install` exited with 0, and those before it did not keep the daemon from it. -/
def Installing.Succeeds (o : Installing) : Prop :=
  ∃ k ∈ [1, 2, 3], o.run k = .exited 0 ∧
    ∀ j ∈ [1, 2, 3], j < k → o.run j ≠ .raised ∧ o.stopped j = false

def Build.Valid (o : Build) : Prop :=
  o.install.Succeeds ∧ o.purge = true ∧ o.check = .ran (.exited 0)

/-- It was installed, and `check-env.py` found fault with it or had no interpreter to run on. -/
def Build.Invalid (o : Build) : Prop :=
  o.install.Succeeds ∧ o.purge = true ∧ o.check ≠ .ran .raised ∧ o.check ≠ .ran (.exited 0)

/-- The manifests were staged, and what was then built, or built again from nothing after it
was found invalid, is installed and valid. -/
def Attempt.Succeeds (healthy : Bool) (a : Attempt) : Prop :=
  (a.staging.mkdir = true ∧ a.staging.toml = true ∧ a.staging.lock = true) ∧
    (healthy || a.wipe) = true ∧
    (a.first.Valid ∨ (a.first.Invalid ∧ a.rewipe = true ∧ a.second.Valid))

instance (o : Installing) : Decidable o.Succeeds :=
  inferInstanceAs (Decidable (∃ k ∈ [1, 2, 3], o.run k = .exited 0 ∧
    ∀ j ∈ [1, 2, 3], j < k → o.run j ≠ .raised ∧ o.stopped j = false))

instance (o : Build) : Decidable o.Valid := inferInstanceAs (Decidable (_ ∧ _ ∧ _))

instance (o : Build) : Decidable o.Invalid := inferInstanceAs (Decidable (_ ∧ _ ∧ _ ∧ _))

instance (healthy : Bool) (a : Attempt) : Decidable (a.Succeeds healthy) :=
  inferInstanceAs (Decidable ((_ ∧ _ ∧ _) ∧ _ ∧ (_ ∨ (_ ∧ _ ∧ _))))

/-- What in_sync = 1 and paused = 0 must mean after a cycle, where `J` are the attempts
made so far. -/
def Honest (J : List Tried) (s : State) : Prop :=
  s.inSync = 1 → s.paused = 0 → ∀ d, s.read = some d →
    s.live.toml = some d.toml ∧ s.live.lock = some d.lock ∧
    ∃ t, J.getLast? = some t ∧ t.manifests = d ∧ t.attempt.Succeeds t.healthy

/-- Where the manifests are live and installed already, a new attempt for them, because
the environment is unhealthy, succeeds. -/
def Careful (s : State) : Action → Prop
  | .change _ _ => True
  | .reconcile p _ _ => p.reads → s.live.pause = false → s.current p.readable →
      s.healthy = false → failCooldown ≤ p.now - s.lastFailure → p.attempt.Succeeds false
  | .deepVerify check p => p.reads → s.live.pause = false → s.current p.readable →
      validateEnv check = some false → p.attempt.Succeeds false

instance (s : State) (a : Action) : Decidable (Careful s a) :=
  match a with
  | .change _ _ => .isTrue trivial
  | .reconcile _ _ _ => inferInstanceAs (Decidable (_ → _ → _ → _ → _ → _))
  | .deepVerify _ _ => inferInstanceAs (Decidable (_ → _ → _ → _ → _))

theorem pixiInstall_iff {o : Installing} : pixiInstall o = true ↔ o.Succeeds := by
  unfold Installing.Succeeds pixiInstall installFrom installFrom installFrom installFrom
  cases h1 : o.run 1 with
  | raised => simp [h1]
  | exited first =>
    cases h2 : o.run 2 with
    | raised => simp [h1, h2]
    | exited second => cases h3 : o.run 3 <;> grind

theorem build_eq_true {o : Build} : build o = some true ↔ o.Valid := by
  unfold build Build.Valid
  rw [← pixiInstall_iff]
  split_ifs with h
  · rw [Bool.and_eq_true] at h
    simp only [h, true_and]
    rcases o.check with _ | _ | code <;> simp [validateEnv]
  · simp only [Bool.and_eq_true, not_and] at h
    simp only [false_iff]
    exact fun hv => h hv.1 hv.2.1

theorem build_eq_false {o : Build} : build o = some false ↔ o.Invalid := by
  unfold build Build.Invalid
  rw [← pixiInstall_iff]
  split_ifs with h
  · rw [Bool.and_eq_true] at h
    simp only [h, true_and]
    rcases o.check with _ | _ | code <;> simp [validateEnv]
  · simp only [Bool.and_eq_true, not_and] at h
    simp only [false_iff]
    exact fun hv => h hv.1 hv.2.1

theorem buildLive_eq_installed {healthy : Bool} {a : Attempt} :
    buildLive healthy a = .installed ↔ (healthy || a.wipe) = true ∧
      (a.first.Valid ∨ (a.first.Invalid ∧ a.rewipe = true ∧ a.second.Valid)) := by
  simp only [← build_eq_true, ← build_eq_false]
  unfold buildLive
  by_cases hwipe : (healthy || a.wipe) = true
  · rw [if_pos hwipe]
    rcases hfirst : build a.first with _ | ⟨_ | _⟩
    · simp [hwipe]
    · by_cases hrewipe : a.rewipe = true
      · rcases hsecond : build a.second with _ | ⟨_ | _⟩ <;> simp [hwipe, hrewipe]
      · simp [hwipe, hrewipe]
    · simp [hwipe]
  · rw [if_neg hwipe]
    simp [hwipe]

theorem stageManifests_ok {o : Staging} {live : Live} {files : Manifests} :
    (stageManifests o live files).2 = true ↔ o.mkdir = true ∧ o.toml = true ∧ o.lock = true := by
  unfold stageManifests
  split_ifs <;> simp_all

theorem stageManifests_live {o : Staging} {live : Live} {files : Manifests}
    (h : (stageManifests o live files).2 = true) :
    (stageManifests o live files).1.toml = some files.toml ∧
    (stageManifests o live files).1.lock = some files.lock := by
  obtain ⟨hmkdir, htoml, hlock⟩ := stageManifests_ok.mp h
  simp [stageManifests, hmkdir, htoml, hlock]

/-- `sync` ends well exactly when what it ran did. -/
theorem sync_eq_installed {healthy : Bool} {a : Attempt} {live : Live} {desired : Manifests} :
    (sync healthy a live desired).2 = .installed ↔ a.Succeeds healthy := by
  unfold sync Attempt.Succeeds
  by_cases hstaged : (stageManifests a.staging live desired).2 = true
  · rw [if_pos hstaged, buildLive_eq_installed]
    exact ⟨fun h => ⟨stageManifests_ok.mp hstaged, h⟩, fun h => h.2⟩
  · rw [if_neg hstaged]
    constructor
    · intro h
      cases h
    · intro h
      exact absurd (stageManifests_ok.mpr h.1) hstaged

/-- A successful attempt leaves the desired manifests live. -/
theorem sync_live {healthy : Bool} {a : Attempt} {live : Live} {desired : Manifests}
    (h : (sync healthy a live desired).2 = .installed) :
    (sync healthy a live desired).1.toml = some desired.toml ∧
    (sync healthy a live desired).1.lock = some desired.lock := by
  unfold sync at h ⊢
  by_cases hstaged : (stageManifests a.staging live desired).2 = true
  · simp only [hstaged, if_true]
    exact stageManifests_live hstaged
  · simp [hstaged] at h

/-- The remembered manifests are those of the last attempt, which succeeded, and where the
gauges say so they are live and the ones the cycle read. -/
structure Sound (J : List Tried) (s : State) : Prop where
  last : ∀ m, s.installed = some m →
    ∃ t, J.getLast? = some t ∧ t.manifests = m ∧ t.attempt.Succeeds t.healthy
  gauges : s.inSync = 1 → s.paused = 0 → ∀ d, s.read = some d →
    s.live.toml = some d.toml ∧ s.live.lock = some d.lock ∧ s.installed = some d

theorem gauge_eq_one {b : Bool} : gauge b = 1 ↔ b = true := by
  cases b <;> simp [gauge]

theorem current_iff {s : State} {readable : Bool} : s.current readable = true ↔
    readable = true ∧ s.live.toml = some s.config.toml ∧ s.live.lock = some s.config.lock ∧
      s.installed = some s.config := by
  simp [State.current, isInSync, and_assoc]

/-- A failed attempt is one that the gauge did not promise. -/
theorem install_sound {J : List Tried} {p : Pass} {s : State} (hread : s.read = some s.config)
    (hpromise : s.inSync = 1 → p.attempt.Succeeds s.healthy) :
    Sound (J ++ (install p s).tried) (install p s).state := by
  unfold install
  cases hend : (sync s.healthy p.attempt s.live s.config).2 with
  | installed =>
    obtain ⟨htoml, hlock⟩ := sync_live hend
    simp only [hend]
    constructor
    · intro m hm
      obtain rfl := Option.some.inj hm
      exact ⟨⟨s.config, s.healthy, p.attempt⟩, by simp, rfl, sync_eq_installed.mp hend⟩
    · intro _ _ d hd
      obtain rfl : s.config = d := Option.some.inj (hread.symm.trans hd)
      exact ⟨htoml, hlock, rfl⟩
  | raised invalid =>
    simp only [hend]
    constructor
    · intro m hm
      cases hm
    · intro hone
      rw [sync_eq_installed.mpr (hpromise hone)] at hend
      cases hend

theorem reconcile_sound {J : List Tried} {force : Bool} {p : Pass} {s : State} (h : Sound J s)
    (hcare : p.reads → s.live.pause = false → s.current p.readable →
      (force = true ∨ s.healthy = false) → (force = true ∨ failCooldown ≤ p.now - s.lastFailure) →
      p.attempt.Succeeds s.healthy) :
    Sound (J ++ (reconcile force p s).tried) (reconcile force p s).state := by
  unfold reconcile
  by_cases hreads : p.reads = true
  · by_cases hpause : s.live.pause = true
    · simp only [hreads, hpause, Bool.not_true, Bool.false_eq_true, if_false, if_true,
        List.append_nil]
      constructor
      · intro m hm
        cases hm
      · intro _ hpaused
        simp at hpaused
    · simp only [hreads, hpause, Bool.not_true, Bool.false_eq_true, if_false]
      have hsound : Sound (J ++ []) { s with
          read := some s.config
          paused := 0
          inSync := gauge (s.current p.readable) } := by
        rw [List.append_nil]
        constructor
        · exact h.last
        · intro hone _ d hd
          obtain rfl : s.config = d := Option.some.inj hd
          obtain ⟨_, htoml, hlock, hinst⟩ := current_iff.mp (gauge_eq_one.mp hone)
          exact ⟨htoml, hlock, hinst⟩
      split_ifs with hquiet hcool
      · exact hsound
      · exact hsound
      · apply install_sound rfl
        intro hone
        have hcur := gauge_eq_one.mp hone
        apply hcare hreads (by simpa using hpause) hcur
        · simp only [hcur, Bool.true_and, Bool.and_eq_true, Bool.not_eq_true', not_and] at hquiet
          cases force with
          | true => exact .inl rfl
          | false => exact .inr (by simpa using hquiet rfl)
        · cases force with
          | true => exact .inl rfl
          | false => exact .inr (by simpa using hcool)
  · simp only [hreads, Bool.not_false, if_true, List.append_nil]
    exact h

theorem healthy_zero (s : State) : State.healthy { s with envHealthy := 0 } = false := by
  have hlow : ¬(1 / 2 : ℚ) ≤ 0 := by decide +kernel
  exact decide_eq_false hlow

theorem deepVerify_sound {J : List Tried} {check : Checking} {p : Pass} {s : State}
    (h : Sound J s) (hcare : Careful s (.deepVerify check p)) :
    Sound (J ++ (deepVerify check p s).tried) (deepVerify check p s).state := by
  unfold deepVerify
  by_cases hskip : (s.live.pause || s.live.toml.isNone) = true
  · rw [if_pos hskip, List.append_nil]
    exact h
  · rw [if_neg hskip]
    cases hcheck : validateEnv check with
    | none =>
      rw [List.append_nil]
      exact h
    | some healthy =>
      cases healthy with
      | true =>
        rw [List.append_nil]
        exact ⟨h.last, h.gauges⟩
      | false =>
        have hsame : Sound J { s with envHealthy := 0 } := ⟨h.last, h.gauges⟩
        apply reconcile_sound hsame
        intro hreads hpause hcur _ _
        rw [healthy_zero]
        exact hcare hreads hpause hcur hcheck

theorem firstHalf_sound {J : List Tried} {p : Pass} {s : State} {checked noted : ℚ}
    (h : Sound J s) (hcare : Careful s (.reconcile p checked noted)) :
    Sound (J ++ (firstHalf s p).tried) (firstHalf s p).state := by
  have hsame : Sound J { s with read := none } := ⟨h.last, fun _ _ d hd => by cases hd⟩
  apply reconcile_sound hsame
  intro hreads hpause hcur hhealthy hcool
  have hbad : s.healthy = false := hhealthy.resolve_left Bool.false_ne_true
  have hok := hcare hreads hpause hcur hbad (hcool.resolve_left Bool.false_ne_true)
  exact hbad ▸ hok

theorem sound_step {J : List Tried} {s s' : State} {a : Action} (h : Sound J s)
    (hcare : Careful s a) (hs : step s a = some s') : Sound (J ++ tried s a) s' := by
  cases a with
  | change config live =>
    simp only [step] at hs
    split_ifs at hs
    obtain rfl := Option.some.inj hs
    rw [show tried s (.change config live) = [] from rfl, List.append_nil]
    exact ⟨h.last, fun _ _ d hd => by cases hd⟩
  | reconcile p checked noted =>
    have hnext := firstHalf_sound h hcare
    simp only [step] at hs
    split_ifs at hs
    all_goals
      obtain rfl := Option.some.inj hs
      exact ⟨hnext.last, hnext.gauges⟩
  | deepVerify check p =>
    have hnext := deepVerify_sound h hcare
    simp only [step] at hs
    split_ifs at hs
    obtain rfl := Option.some.inj hs
    exact ⟨hnext.last, hnext.gauges⟩

theorem sound_initial (config : Manifests) (live : Live) : Sound [] (initial config live) := by
  constructor
  · intro m hm
    cases hm
  · intro hone
    simp [initial] at hone

theorem Sound.honest {J : List Tried} {s : State} (h : Sound J s) : Honest J s := by
  intro hone hpaused d hd
  obtain ⟨htoml, hlock, hinst⟩ := h.gauges hone hpaused d hd
  exact ⟨htoml, hlock, h.last d hinst⟩

theorem honest_of_run {config : Manifests} {live : Live} {acts : List Action} {s : State}
    (hr : run step (initial config live) acts = some s)
    (hc : Along step Careful (initial config live) acts) :
    Honest (journal step tried (initial config live) acts) s := by
  have hsound : Sound ([] ++ journal step tried (initial config live) acts) s :=
    run_journal (sound_initial config live) (fun J m a m' h hcare hs => sound_step h hcare hs) hc hr
  exact hsound.honest

def returns : Installing := ⟨fun _ => .exited 0, fun _ => false⟩

/-- All operations of an attempt succeed. -/
def smooth : Attempt :=
  ⟨⟨true, true, true⟩, true, ⟨returns, true, .ran (.exited 0)⟩, true,
    ⟨returns, true, .ran (.exited 0)⟩⟩

/-- The three installs of an attempt exit with an error. -/
def unbuildable : Attempt :=
  { smooth with first := ⟨⟨fun _ => .exited 1, fun _ => false⟩, true, .ran (.exited 0)⟩ }

def manifestsOne : Manifests := ⟨[91], [118]⟩

/-- A first cycle installs; later one verifies, and the environment has broken. -/
def breaks (again : Attempt) : List Action :=
  [.reconcile ⟨true, true, 100000, smooth, 100001⟩ 100002 100003,
    .deepVerify (.ran (.exited 0)) ⟨true, true, 100004, smooth, 100005⟩,
    .reconcile ⟨true, true, 130000, smooth, 130001⟩ 130002 130003,
    .deepVerify .missing ⟨true, true, 130004, again, 130005⟩]

theorem honest_of_run_healed :
    ∃ s, run step (initial manifestsOne ⟨none, none, false⟩) (breaks smooth) = some s ∧
      s.phase = .over ∧ s.inSync = 1 ∧ s.paused = 0 ∧ s.read = some manifestsOne ∧
      Honest (journal step tried (initial manifestsOne ⟨none, none, false⟩) (breaks smooth)) s := by
  have hrun : (run step (initial manifestsOne ⟨none, none, false⟩) (breaks smooth)).any (fun s =>
      s.phase = .over ∧ s.inSync = 1 ∧ s.paused = 0 ∧ s.read = some manifestsOne) = true := by
    decide +kernel
  obtain ⟨s, hs, hgauges⟩ := Option.any_eq_true _ _ |>.mp hrun
  obtain ⟨hover, hone, hpaused, hread⟩ := of_decide_eq_true hgauges
  exact ⟨s, hs, hover, hone, hpaused, hread, honest_of_run hs (by decide +kernel)⟩

theorem not_honest_failed_resync :
    ¬∀ config live acts s, run step (initial config live) acts = some s → s.phase = .over →
      Honest (journal step tried (initial config live) acts) s := by
  intro h
  have hrun : (run step (initial manifestsOne ⟨none, none, false⟩) (breaks unbuildable)).any (fun s =>
      s.phase = .over ∧ s.inSync = 1 ∧ s.paused = 0 ∧ s.read = some manifestsOne) = true := by
    decide +kernel
  obtain ⟨s, hs, hgauges⟩ := Option.any_eq_true _ _ |>.mp hrun
  obtain ⟨hover, hone, hpaused, hread⟩ := of_decide_eq_true hgauges
  obtain ⟨_, _, t, hlast, _, hok⟩ := h _ _ _ s hs hover hone hpaused manifestsOne hread
  have hfailed : (journal step tried (initial manifestsOne ⟨none, none, false⟩)
      (breaks unbuildable)).getLast?.map (fun t => decide (t.attempt.Succeeds t.healthy)) =
        some false := by
    decide +kernel
  rw [hlast, Option.map_some] at hfailed
  exact of_decide_eq_false (Option.some.inj hfailed) hok

end PurdueAF.PixiSync
