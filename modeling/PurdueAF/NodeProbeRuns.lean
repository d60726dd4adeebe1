import PurdueAF.NodeProbe
import Mathlib.Tactic.Linarith

/-!
# What a probe serves, over its runs

The rate beside a good verdict is one that fio measured, at the time the verdict gives; between
two such times lies an interval of fio. The marker of readiness is there from a verdict of its
container until a cycle without one. Each is a fact about the probe without files, and so about
the supervisor.
-/
namespace PurdueAF.NodeProbe
open Machine

variable {cfg : Settings} {p p' : Probe} {v : Verdict}

/-- The verdict is the one recorded, or a check has come to it. -/
def Probe.Has (p : Probe) (v : Verdict) : Prop :=
  p.result = some v ∨ p.stage = .judged v ∨ p.stage = .recorded v

/-- What a check that runs makes of the previous result. -/
theorem judged_of_attempt {child : Child} {readable : Bool} (h : p'.stage = .judged v)
    (hm : move cfg p (.attempt child readable) = some p') :
    p.stage = .idle ∧ ∃ check, child = .ran check true ∧
      runChecks cfg (loadResult readable p.result) check = some v := by
  simp only [move] at hm
  split at hm
  · obtain rfl := Option.some.inj hm
    cases h
  · obtain rfl := Option.some.inj hm
    cases h
  · rename_i check written hidle
    split at hm <;> rename_i hv
    · rename_i w
      obtain rfl := Option.some.inj hm
      obtain rfl := Stage.judged.inj h
      cases written with
      | true => exact ⟨hidle, check, rfl, hv⟩
      | false => cases hv
    · obtain rfl := Option.some.inj hm
      cases h
  · cases hm

theorem has_fail {marker : Bool} (h : (p.fail marker).Has v) : p.Has v := by
  rcases h with h | h | h
  · exact .inl h
  · cases h
  · cases h

/-- A step keeps the verdicts the probe has, judges one, or gives one up for lost. -/
theorem has_move {m : Move} (hm : move cfg p m = some p') (h : p'.Has v) :
    p.Has v ∨
    (∃ check readable, p.stage = .idle ∧ m = .attempt (.ran check true) readable ∧
      runChecks cfg (loadResult readable p.result) check = some v) ∨
    (∃ now readable writable marker, p.stage = .overdue ∧
      m = .record now readable writable marker ∧
      v = timeoutResult cfg now (loadResult readable p.result)) := by
  cases m with
  | start readable marker =>
    obtain rfl := Option.some.inj hm
    rcases h with h | h | h
    · exact .inl (.inl h)
    · cases h
    · cases h
  | attempt child readable =>
    have hkept : p'.result = p.result ∧ p'.stage ≠ .recorded v := by
      simp only [move] at hm
      split at hm
      · obtain rfl := Option.some.inj hm
        exact ⟨rfl, fun h => by cases h⟩
      · obtain rfl := Option.some.inj hm
        exact ⟨rfl, fun h => by cases h⟩
      · split at hm <;> obtain rfl := Option.some.inj hm <;> exact ⟨rfl, fun h => by cases h⟩
      · cases hm
    rcases h with h | h | h
    · exact .inl (.inl (hkept.1 ▸ h))
    · obtain ⟨hidle, check, rfl, hv⟩ := judged_of_attempt h hm
      exact .inr (.inl ⟨check, readable, hidle, rfl, hv⟩)
    · exact absurd h hkept.2
  | record now readable writable marker =>
    simp only [move] at hm
    split at hm
    · obtain rfl := Option.some.inj hm
      exact .inl (has_fail h)
    · rename_i hoverdue
      split at hm <;> obtain rfl := Option.some.inj hm
      · refine .inr (.inr ⟨now, readable, writable, marker, hoverdue, rfl, ?_⟩)
        rcases h with h | h | h
        · exact (Option.some.inj h).symm
        · cases h
        · exact (Stage.recorded.inj h).symm
      · exact .inl (has_fail h)
    · rename_i w hjudged
      split at hm <;> obtain rfl := Option.some.inj hm
      · refine .inl (.inr (.inl ?_))
        rcases h with h | h | h
        · rw [hjudged, Option.some.inj h]
        · cases h
        · rw [hjudged, Stage.recorded.inj h]
      · exact .inl (has_fail h)
    · cases hm
  | publish marker =>
    simp only [move] at hm
    split at hm
    · obtain rfl := Option.some.inj hm
      rcases h with h | h | h
      · exact .inl (.inl h)
      · cases h
      · cases h
    · cases hm

/-- What is served was served before, or is a verdict the probe has. -/
theorem published_move {m : Move} (hm : move cfg p m = some p') (h : p'.published = some v) :
    p.published = some v ∨ p.Has v := by
  cases m with
  | start readable marker =>
    obtain rfl := Option.some.inj hm
    cases readable with
    | true => exact .inr (.inl h)
    | false => cases h
  | attempt child readable =>
    refine .inl ?_
    simp only [move] at hm
    split at hm
    · obtain rfl := Option.some.inj hm
      exact h
    · obtain rfl := Option.some.inj hm
      exact h
    · split at hm <;> obtain rfl := Option.some.inj hm <;> exact h
    · cases hm
  | record now readable writable marker =>
    refine .inl ?_
    simp only [move] at hm
    split at hm
    · obtain rfl := Option.some.inj hm
      exact h
    · split at hm <;> obtain rfl := Option.some.inj hm <;> exact h
    · split at hm <;> obtain rfl := Option.some.inj hm <;> exact h
    · cases hm
  | publish marker =>
    simp only [move] at hm
    split at hm
    · rename_i hrecorded
      obtain rfl := Option.some.inj hm
      exact .inr (.inr (.inr (hrecorded.trans (congrArg _ (Option.some.inj h)))))
    · cases hm

/-- A check that ran: when it came to fio, and the rate fio measured then. -/
abbrev Reading := ℚ × Option ℚ

def readings (cfg : Settings) (p : Probe) : Move → List Reading
  | .attempt (.ran check _) readable =>
    [(check.fioAt, measured cfg (loadResult readable p.result) check)]
  | _ => []

/-- The clock does not go back from one check to the next. -/
def Ordered (read : List Reading) : Prop := read.Pairwise fun a b => a.1 ≤ b.1

/-- A rate in the verdict is what fio measured when it last ran, or the verdict is bad and stays
so: fio failed, and was due at some reading, as it is from then on. -/
def Truthful (cfg : Settings) (read : List Reading) (v : Verdict) : Prop :=
  ∀ gbps, v.throughputGbps = some gbps →
    (∃ last, v.lastFioTs = some last ∧ (last, some gbps) ∈ read) ∨
    (v.ok = false ∧ ∃ last now rate, v.lastFioTs = some last ∧ (now, rate) ∈ read ∧
      fioDue cfg (some last) now = true)

theorem Truthful.append {read : List Reading} (h : Truthful cfg read v) (more : List Reading) :
    Truthful cfg (read ++ more) v := by
  intro gbps hgbps
  rcases h gbps hgbps with ⟨last, hlast, hmem⟩ | ⟨hok, last, now, rate, hlast, hmem, hdue⟩
  · exact .inl ⟨last, hlast, List.mem_append_left _ hmem⟩
  · exact .inr ⟨hok, last, now, rate, hlast, List.mem_append_left _ hmem, hdue⟩

theorem fioDue_mono {last now later : ℚ} (hle : now ≤ later)
    (h : fioDue cfg (some last) now = true) : fioDue cfg (some last) later = true := by
  by_cases hfio : cfg.fio = true
  · simp only [fioDue, hfio, Bool.not_true, Bool.false_eq_true, if_false, decide_eq_true_eq] at h ⊢
    linarith
  · simp [fioDue, hfio] at h

theorem lastFio_of_prev {prev : Verdict} {check : Check} {last : ℚ}
    (h : prev.lastFioTs = some last) : lastFio cfg (some prev) check = some last := by
  simp [lastFio, h]

theorem fio_of_due {last : Option ℚ} {now : ℚ} (h : fioDue cfg last now = true) :
    cfg.fio = true := by
  by_contra hfio
  simp [fioDue, hfio] at h

theorem lastFio_isSome (h : cfg.fio = true) (prev : Option Verdict) (check : Check) :
    ∃ last, lastFio cfg prev check = some last := by
  rw [lastFio, if_pos h]
  cases prev.bind (·.lastFioTs) with
  | none => exact ⟨_, rfl⟩
  | some last => exact ⟨last, rfl⟩

/-- A bad verdict that keeps what the previous one says of fio. -/
theorem Truthful.kept {read : List Reading} {prev : Option Verdict}
    (hprev : ∀ w, prev = some w → Truthful cfg read w) (hok : v.ok = false)
    (hrate : v.throughputGbps = prev.bind (·.throughputGbps))
    (hlast : ∀ w last, prev = some w → w.lastFioTs = some last → v.lastFioTs = some last) :
    Truthful cfg read v := by
  intro gbps hgbps
  rw [hrate] at hgbps
  obtain ⟨w, rfl, hw⟩ := Option.bind_eq_some_iff.mp hgbps
  rcases hprev w rfl gbps hw with ⟨last, hl, hmem⟩ | ⟨-, last, now, rate, hl, hmem, hdue⟩
  · exact .inl ⟨last, hlast w last rfl hl, hmem⟩
  · exact .inr ⟨hok, last, now, rate, hlast w last rfl hl, hmem, hdue⟩

/-- The verdict of a check that comes to fio no earlier than those before it. -/
theorem truthful_runChecks {read : List Reading} {prev : Option Verdict} {check : Check}
    (hprev : ∀ w, prev = some w → Truthful cfg read w)
    (hlater : ∀ r ∈ read, r.1 ≤ check.fioAt) (h : runChecks cfg prev check = some v) :
    Truthful cfg (read ++ [(check.fioAt, measured cfg prev check)]) v := by
  have hnew : (check.fioAt, measured cfg prev check) ∈
      read ++ [(check.fioAt, measured cfg prev check)] := by simp
  rcases runChecks_cases h with ⟨hok, hrate, hlast⟩ | ⟨hdue, hrate, hlast⟩ |
      ⟨hdue, gbps, hmeasured, hrate, hlast⟩ | ⟨hdue, hok, hrate, hlast⟩
  · refine (Truthful.kept hprev hok hrate fun w last hw hl => ?_).append _
    subst hw
    rw [hlast, lastFio_of_prev hl]
  · intro gbps hgbps
    rw [hrate] at hgbps
    obtain ⟨w, rfl, hw⟩ := Option.bind_eq_some_iff.mp hgbps
    rcases hprev w rfl gbps hw with ⟨last, hl, hmem⟩ | ⟨-, last, now, rate, hl, hmem, hwas⟩
    · refine .inl ⟨last, ?_, List.mem_append_left _ hmem⟩
      rw [hlast, lastFio_of_prev hl]
    · -- fio was due before, so it is due now.
      rw [lastFio_of_prev hl, fioDue_mono (hlater _ hmem) hwas] at hdue
      cases hdue
  · intro gbps' hgbps'
    rw [hrate] at hgbps'
    obtain rfl := Option.some.inj hgbps'
    refine .inl ⟨check.fioAt, hlast, ?_⟩
    rw [← hmeasured]
    exact hnew
  · intro gbps hgbps
    obtain ⟨last, hl⟩ := lastFio_isSome (fio_of_due hdue) prev check
    rw [hl] at hdue
    exact .inr ⟨hok, last, check.fioAt, _, hlast.trans hl, hnew, hdue⟩

theorem truthful_move {m : Move} {read : List Reading}
    (hold : ∀ w, p.Has w → Truthful cfg read w) (hm : move cfg p m = some p')
    (ho : Ordered (read ++ readings cfg p m)) (h : p'.Has v) :
    Truthful cfg (read ++ readings cfg p m) v := by
  have hprev (readable : Bool) (w : Verdict) (hw : loadResult readable p.result = some w) :
      Truthful cfg read w := by
    cases readable with
    | true => exact hold w (.inl hw)
    | false => cases hw
  rcases has_move hm h with h | ⟨check, readable, -, rfl, hv⟩ |
      ⟨now, readable, writable, marker, -, rfl, rfl⟩
  · exact (hold v h).append _
  · refine truthful_runChecks (hprev readable) (fun r hr => ?_) hv
    exact (List.pairwise_append.mp ho).2.2 r hr _ (List.mem_singleton.mpr rfl)
  · refine (Truthful.kept (hprev readable) rfl rfl
      fun w last hw hl => ?_).append _
    simp [timeoutResult, hw, hl]

/-- What the probe has, and what it serves, is truthful as long as the clock did not go back. -/
def AllTruthful (cfg : Settings) (read : List Reading) (p : Probe) : Prop :=
  Ordered read → ∀ v, p.Has v ∨ p.published = some v → Truthful cfg read v

theorem allTruthful_move {m : Move} {read : List Reading} (hi : AllTruthful cfg read p)
    (hm : move cfg p m = some p') : AllTruthful cfg (read ++ readings cfg p m) p' := by
  intro ho v hv
  have hold := hi (List.pairwise_append.mp ho).1
  rcases hv with hv | hv
  · exact truthful_move (fun w hw => hold w (.inl hw)) hm ho hv
  · rcases published_move hm hv with hv | hv
    · exact (hold v (.inr hv)).append _
    · exact (hold v (.inl hv)).append _

/-- The checks of a run, as the supervisor makes them. -/
def readingsOf (cfg : Settings) (acts : List Action) : List Reading :=
  journal (step cfg) (fun s a => a.move.elim [] (readings cfg s.probe)) fresh acts

/-- In every run, of any containers, with any checks abandoned, crashed or unwritten and any
files unreadable: a rate beside a good verdict is the one that fio measured at the time the
verdict gives. -/
theorem rate_measured {acts : List Action} {s : State} (ho : Ordered (readingsOf cfg acts))
    (hr : run (step cfg) fresh acts = some s) {gbps : ℚ} (hserved : s.published = some v)
    (hok : v.ok = true) (hgbps : v.throughputGbps = some gbps) :
    ∃ last, v.lastFioTs = some last ∧ (last, some gbps) ∈ readingsOf cfg acts := by
  have href := refines_move cfg
  have hjournal : readingsOf cfg acts = journal (move cfg) (readings cfg) fresh.probe _ :=
    href.journal hr
  have hstart : AllTruthful cfg [] fresh.probe :=
    fun _ w hw => by rcases hw with (h | h | h) | h <;> cases h
  have hinv := run_journal hstart (fun _ _ _ _ hi _ hm => allTruthful_move hi hm)
    (along_true _ _ _) (href.run hr)
  rw [List.nil_append, ← hjournal] at hinv
  rcases hinv ho v (.inr hserved) gbps hgbps with h | ⟨hbad, -⟩
  · exact h
  · rw [hok] at hbad
    cases hbad

theorem rate_measured_recovered :
    Ordered (readingsOf depot recovered) ∧
      ∃ s v last, run (step depot) fresh recovered = some s ∧ s.published = some v ∧
        v.ok = true ∧ v.lastFioTs = some last ∧ (last, some 2) ∈ readingsOf depot recovered := by
  have hordered : Ordered (readingsOf depot recovered) := by
    unfold Ordered
    decide +kernel
  have hserved : (run (step depot) fresh recovered).any (fun s => s.published.any fun v =>
      v.ok && v.throughputGbps = some 2) = true := by decide +kernel
  obtain ⟨s, hs, hv⟩ := (Option.any_eq_true _ _).mp hserved
  obtain ⟨v, hpublished, hgood⟩ := (Option.any_eq_true _ _).mp hv
  obtain ⟨hok, hrate⟩ := Bool.and_eq_true_iff.mp hgood
  obtain ⟨last, hlast, hmem⟩ :=
    rate_measured hordered hs hpublished hok (of_decide_eq_true hrate)
  exact ⟨hordered, s, v, last, hs, hpublished, hok, hlast, hmem⟩

/-- The later of two times is the same, or an interval of fio after it. -/
def Spaced (cfg : Settings) (earlier later : ℚ) : Prop :=
  later = earlier ∨ earlier + (cfg.fioIntervalS - cfg.fioIntervalToleranceS) ≤ later

theorem Spaced.trans {a b c : ℚ} (hgap : cfg.fioIntervalToleranceS ≤ cfg.fioIntervalS)
    (hab : Spaced cfg a b) (hbc : Spaced cfg b c) : Spaced cfg a c := by
  rcases hab with rfl | hab
  · exact hbc
  · rcases hbc with rfl | hbc
    · exact .inr hab
    · refine .inr ?_
      linarith

/-- The verdict goes back to a run of fio that is spaced from the given one. -/
def Since (cfg : Settings) (last : ℚ) (v : Verdict) : Prop :=
  ∃ later, v.lastFioTs = some later ∧ Spaced cfg last later

theorem spaced_of_due {last now : ℚ} (h : fioDue cfg (some last) now = true) :
    Spaced cfg last now := by
  have hfio := fio_of_due h
  simp only [fioDue, hfio, Bool.not_true, Bool.false_eq_true, if_false, decide_eq_true_eq] at h
  refine .inr ?_
  linarith

theorem since_runChecks {prev : Verdict} {check : Check} {last : ℚ}
    (hgap : cfg.fioIntervalToleranceS ≤ cfg.fioIntervalS) (hprev : Since cfg last prev)
    (h : runChecks cfg (some prev) check = some v) : Since cfg last v := by
  obtain ⟨later, hlater, hspaced⟩ := hprev
  have hkept : lastFio cfg (some prev) check = some later := lastFio_of_prev hlater
  rcases runChecks_cases h with ⟨-, -, hlast⟩ | ⟨-, -, hlast⟩ | ⟨hdue, _, -, -, hlast⟩ |
      ⟨-, -, -, hlast⟩
  · exact ⟨later, hlast.trans hkept, hspaced⟩
  · exact ⟨later, hlast.trans hkept, hspaced⟩
  · rw [hkept] at hdue
    exact ⟨check.fioAt, hlast, hspaced.trans hgap (spaced_of_due hdue)⟩
  · exact ⟨later, hlast.trans hkept, hspaced⟩

/-- The previous result could be read where a step asks for it. -/
def Move.readsResult : Move → Bool
  | .attempt _ readable => readable
  | .record _ readable _ _ => readable
  | _ => true

/-- There is a recorded verdict, and every verdict the probe has is spaced from the given run. -/
def AllSince (cfg : Settings) (last : ℚ) (p : Probe) : Prop :=
  p.result.isSome ∧ ∀ v, p.Has v → Since cfg last v

theorem result_isSome_move {m : Move} (hm : move cfg p m = some p') (h : p.result.isSome) :
    p'.result.isSome := by
  cases m with
  | start readable marker =>
    obtain rfl := Option.some.inj hm
    exact h
  | attempt child readable =>
    simp only [move] at hm
    split at hm
    · obtain rfl := Option.some.inj hm
      exact h
    · obtain rfl := Option.some.inj hm
      exact h
    · split at hm <;> obtain rfl := Option.some.inj hm <;> exact h
    · cases hm
  | record now readable writable marker =>
    simp only [move] at hm
    split at hm
    · obtain rfl := Option.some.inj hm
      exact h
    · split at hm <;> obtain rfl := Option.some.inj hm
      · rfl
      · exact h
    · split at hm <;> obtain rfl := Option.some.inj hm
      · rfl
      · exact h
    · cases hm
  | publish marker =>
    simp only [move] at hm
    split at hm
    · obtain rfl := Option.some.inj hm
      exact h
    · cases hm

theorem allSince_move {m : Move} {last : ℚ} (hgap : cfg.fioIntervalToleranceS ≤ cfg.fioIntervalS)
    (hi : AllSince cfg last p) (hread : m.readsResult = true) (hm : move cfg p m = some p') :
    AllSince cfg last p' := by
  refine ⟨result_isSome_move hm hi.1, fun v hv => ?_⟩
  obtain ⟨prev, hprev⟩ := Option.isSome_iff_exists.mp hi.1
  have hsince := hi.2 prev (.inl hprev)
  rcases has_move hm hv with hv | ⟨check, readable, -, rfl, hv⟩ |
      ⟨now, readable, writable, marker, -, rfl, rfl⟩
  · exact hi.2 v hv
  · obtain rfl : readable = true := hread
    rw [loadResult, if_pos rfl, hprev] at hv
    exact since_runChecks hgap hsince hv
  · obtain rfl : readable = true := hread
    obtain ⟨later, hlater, hspaced⟩ := hsince
    refine ⟨later, ?_, hspaced⟩
    simp [timeoutResult, loadResult, hprev, hlater]

/-- From a moment between two cycles on, through abandoned checks, restarts and failed mounts:
the run of fio that a recorded verdict goes back to is the same one, or one that came an interval
of fio later. -/
theorem fio_spaced {acts : List Action} {s s' : State} {v v' : Verdict} {last : ℚ}
    (hgap : cfg.fioIntervalToleranceS ≤ cfg.fioIntervalS) (hidle : s.phase = .idle)
    (hv : s.result = some v) (hlast : v.lastFioTs = some last)
    (hread : ∀ m ∈ acts.filterMap Action.move, m.readsResult = true)
    (hr : run (step cfg) s acts = some s') (hv' : s'.result = some v') :
    ∃ later, v'.lastFioTs = some later ∧ Spaced cfg last later := by
  have hstage : s.probe.stage = .idle := by simp [State.probe, State.stage, hidle]
  have hstart : AllSince cfg last s.probe := by
    refine ⟨by simp [State.probe, hv], fun w hw => ?_⟩
    rcases hw with hw | hw | hw
    · obtain rfl := Option.some.inj (hv.symm.trans hw)
      exact ⟨last, hlast, .inl rfl⟩
    · rw [hstage] at hw
      cases hw
    · rw [hstage] at hw
      cases hw
  have hinv := run_invariant (C := fun _ m => m.readsResult = true) hstart
    (fun _ _ _ hi hc hm => allSince_move hgap hi hc hm) (along_of_forall_mem hread)
    ((refines_move cfg).run hr)
  exact hinv.2 v' (.inl hv')

/-- A verdict with a run of fio at 1001, a check too early for the next one, a restart in the
middle of a cycle, and a check at which fio is due. -/
def onSchedule : List Action :=
  [.attempt (.ran (goodCheck 1600 0) true) true [], .record 1602 true true true, .publish true,
    .attempt .overdue true [], .start 1 true true,
    .attempt (.ran (goodCheck 2800 0) true) true [], .record 2802 true true true]

def afterFio : State :=
  ⟨1, 1, .idle, [], some ⟨1001, true, false, some 5, some 7, some 2, some 1001, "node-a"⟩, none, true⟩

theorem fio_spaced_onSchedule :
    ∃ s v later, run (step depot) afterFio onSchedule = some s ∧ s.result = some v ∧
      v.lastFioTs = some later ∧ Spaced depot 1001 later := by
  have hresult : (run (step depot) afterFio onSchedule).any (fun s => s.result.isSome) = true := by
    decide +kernel
  obtain ⟨s, hs, hv⟩ := (Option.any_eq_true _ _).mp hresult
  obtain ⟨v, hv⟩ := Option.isSome_iff_exists.mp hv
  obtain ⟨later, hlater, hspaced⟩ := fio_spaced (by norm_num [depot]) rfl rfl rfl
    (List.all_eq_true.mp (show (onSchedule.filterMap Action.move).all Move.readsResult = true by
      decide +kernel)) hs hv
  exact ⟨s, v, later, hs, hv, hlater, hspaced⟩

/-- What a step does to the readiness of the container: it takes over, or its cycle ends, with a
verdict or without. -/
inductive Turn
  | tookOver
  | ended (verdict : Bool)
  deriving DecidableEq, Repr

def turns (cfg : Settings) (p : Probe) : Move → List Turn
  | .start _ _ => [.tookOver]
  | .publish _ => [.ended true]
  | m => if (move cfg p m).any (·.stage = .idle) then [.ended false] else []

/-- The marker of a ready pod could be written or removed where a step does so. -/
def Move.marks : Move → Bool
  | .start _ marker => marker
  | .record _ _ _ marker => marker
  | .publish marker => marker
  | _ => true

/-- The result could be read by a container that takes over. -/
def Move.takesOver : Move → Bool
  | .start readable _ => readable
  | _ => true

/-- Ready since a cycle that ended with a verdict; and what is served is what is recorded, unless
a verdict was recorded a moment ago or no container runs. -/
structure Shown (turns : List Turn) (p : Probe) : Prop where
  ready : p.ready = decide (turns.getLast? = some (.ended true))
  recorded : ∀ v, p.stage = .recorded v → p.result = some v
  served : (∀ v, p.stage ≠ .recorded v) → p.stage ≠ .stopped → p.published = p.result

theorem shown_fail {J : List Turn} {marker : Bool} (hi : Shown J p) (hmark : marker = true)
    (hstage : (∀ v, p.stage ≠ .recorded v) ∧ p.stage ≠ .stopped) :
    Shown (J ++ [.ended false]) (p.fail marker) := by
  subst hmark
  refine ⟨?_, fun v h => (by cases h), fun _ _ => hi.served hstage.1 hstage.2⟩
  simp [Probe.fail]

theorem shown_move {m : Move} {J : List Turn} (hi : Shown J p)
    (hc : (m.marks && m.takesOver) = true) (hm : move cfg p m = some p') :
    Shown (J ++ turns cfg p m) p' := by
  rw [Bool.and_eq_true] at hc
  obtain ⟨hmark, hover⟩ := hc
  cases m with
  | start readable marker =>
    obtain rfl := Option.some.inj hm
    obtain rfl : marker = true := hmark
    obtain rfl : readable = true := hover
    refine ⟨?_, fun v h => (by cases h), fun _ _ => rfl⟩
    simp [turns]
  | attempt child readable =>
    have hkept : p'.result = p.result ∧ p'.published = p.published ∧ p'.ready = p.ready ∧
        p.stage = .idle ∧ p'.stage ≠ .idle ∧ ∀ v, p'.stage ≠ .recorded v := by
      simp only [move] at hm
      split at hm
      · rename_i hidle
        obtain rfl := Option.some.inj hm
        exact ⟨rfl, rfl, rfl, hidle, (fun h => by cases h), fun v h => by cases h⟩
      · rename_i hidle
        obtain rfl := Option.some.inj hm
        exact ⟨rfl, rfl, rfl, hidle, (fun h => by cases h), fun v h => by cases h⟩
      · rename_i hidle
        split at hm <;> obtain rfl := Option.some.inj hm <;>
          exact ⟨rfl, rfl, rfl, hidle, (fun h => by cases h), fun v h => by cases h⟩
      · cases hm
    obtain ⟨hresult, hpublished, hready, hidle, hleft, hnot⟩ := hkept
    have hnone : turns cfg p (.attempt child readable) = [] := by
      simp [turns, hm, hleft]
    rw [hnone, List.append_nil]
    refine ⟨hready.trans hi.ready, fun v h => absurd h (hnot v), fun _ _ => ?_⟩
    rw [hpublished, hresult]
    exact hi.served (fun v => by simp [hidle]) (by simp [hidle])
  | record now readable writable marker =>
    have hended (hp : p' = p.fail marker) :
        turns cfg p (.record now readable writable marker) = [.ended false] := by
      have hidle : p'.stage = .idle := by rw [hp]; rfl
      simp [turns, hm, hidle]
    have hgoes (hne : p'.stage ≠ .idle) :
        turns cfg p (.record now readable writable marker) = [] := by
      simp [turns, hm, hne]
    have hm' := hm
    simp only [move] at hm'
    split at hm'
    · rename_i hfailed
      obtain rfl := Option.some.inj hm'
      rw [hended rfl]
      exact shown_fail hi hmark ⟨fun v => by simp [hfailed], by simp [hfailed]⟩
    · rename_i hoverdue
      split at hm' <;> obtain rfl := Option.some.inj hm'
      · rw [hgoes (fun h => by cases h), List.append_nil]
        exact ⟨hi.ready, fun v h => congrArg some (Stage.recorded.inj h),
          fun hne => absurd rfl (hne _)⟩
      · rw [hended rfl]
        exact shown_fail hi hmark ⟨fun v => by simp [hoverdue], by simp [hoverdue]⟩
    · rename_i hjudged
      split at hm' <;> obtain rfl := Option.some.inj hm'
      · rw [hgoes (fun h => by cases h), List.append_nil]
        exact ⟨hi.ready, fun v h => congrArg some (Stage.recorded.inj h),
          fun hne => absurd rfl (hne _)⟩
      · rw [hended rfl]
        exact shown_fail hi hmark ⟨fun v => by simp [hjudged], by simp [hjudged]⟩
    · cases hm'
  | publish marker =>
    obtain rfl : marker = true := hmark
    simp only [move] at hm
    split at hm
    · rename_i w hrecorded
      obtain rfl := Option.some.inj hm
      refine ⟨by simp [turns], fun v h => (by cases h), fun _ _ => ?_⟩
      exact (hi.recorded w hrecorded).symm
    · cases hm

/-- What the cycles of a run end in, and the containers that take over. -/
def turnsOf (cfg : Settings) (acts : List Action) : List Turn :=
  journal (step cfg) (fun s a => a.move.elim [] (turns cfg s.probe)) fresh acts

/-- Where the marker of readiness and the recorded result can be had, the marker is there exactly
since a cycle of its container that ended with a verdict, and the probe serves what is recorded. -/
theorem shown_of_run {acts : List Action} {s : State}
    (hc : ∀ m ∈ acts.filterMap Action.move, (m.marks && m.takesOver) = true)
    (hr : run (step cfg) fresh acts = some s) :
    (s.ready = true ↔ (turnsOf cfg acts).getLast? = some (.ended true)) ∧
      ((∀ v, s.phase ≠ .recorded v) → s.phase ≠ .stopped → s.published = s.result) := by
  have href := refines_move cfg
  have hjournal : turnsOf cfg acts = journal (move cfg) (turns cfg) fresh.probe _ :=
    href.journal hr
  have hstart : Shown [] fresh.probe := ⟨rfl, fun v h => (by cases h), fun _ h => absurd rfl h⟩
  have hinv := run_journal (C := fun _ m => (m.marks && m.takesOver) = true) hstart
    (fun _ _ _ _ hi hc hm => shown_move hi hc hm) (along_of_forall_mem hc) (href.run hr)
  rw [List.nil_append, ← hjournal] at hinv
  refine ⟨?_, fun hrecorded hstopped => hinv.served (fun v hv => ?_) fun hv => ?_⟩
  · have hready : s.ready = _ := hinv.ready
    rw [hready, decide_eq_true_iff]
  · cases hphase : s.phase with
    | recorded w => exact hrecorded w hphase
    | exited =>
      simp only [State.probe, State.stage, hphase] at hv
      cases hget : s.attempts.get? s.current <;> simp [hget] at hv
    | _ => simp [State.probe, State.stage, hphase] at hv
  · cases hphase : s.phase with
    | stopped => exact hstopped hphase
    | exited =>
      simp only [State.probe, State.stage, hphase] at hv
      cases hget : s.attempts.get? s.current <;> simp [hget] at hv
    | _ => simp [State.probe, State.stage, hphase] at hv

theorem shown_of_run_recovered :
    ∃ s, run (step depot) fresh recovered = some s ∧
      (s.ready = true ↔ (turnsOf depot recovered).getLast? = some (.ended true)) ∧
      ((∀ v, s.phase ≠ .recorded v) → s.phase ≠ .stopped → s.published = s.result) := by
  obtain ⟨s, hs⟩ := Option.isSome_iff_exists.mp
    (show (run (step depot) fresh recovered).isSome = true by decide +kernel)
  have hmarks : (recovered.filterMap Action.move).all (fun m => m.marks && m.takesOver) = true := by
    decide +kernel
  exact ⟨s, hs, shown_of_run (List.all_eq_true.mp hmarks) hs⟩

end PurdueAF.NodeProbe
