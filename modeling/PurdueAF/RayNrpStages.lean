import PurdueAF.RayNrpCopies

/-!
# The stages of a job on NRP

A job's stage goes forward, and a stopped job stays stopped, as long as every PATCH of a
stage finds the RayJob where its copy was, or where the PATCH puts it. The gateway does not
see to that: it decides from a copy and patches without a condition.
-/
namespace PurdueAF.RayNrp
open Ray RayNaming Coroutine

/-- A PATCH that takes effect: the copy it was decided from, and the RayJob it changes. -/
structure Patching where
  copy : RayJob
  patch : Patch
  record : Record

def patched (s : St) : Act → Option Patching
  | .serve t c =>
    match s.at t with
    | some ⟨.patch job p _ _, none⟩ =>
      if c = .ok ∨ c = .lost then (s.world.live job.name).map (Patching.mk job p) else none
    | _ => none
  | _ => none

/-- The stage annotation of no RayJob goes backwards. -/
def Forward (s s' : St) : Prop :=
  ∀ name r r', s.world.records.get? name = some r → s'.world.records.get? name = some r' →
    r.job.at.rank ≤ r'.job.at.rank

/-- No stopped RayJob is patched to run again. -/
def StaysStopped (s : St) (act : Act) : Prop :=
  ∀ x ∈ patched s act, x.record.job.stopped.isSome = true →
    x.patch.suspend ≠ some false ∧ x.patch.stage ≠ some .running

/-- A PATCH of a stage finds the RayJob at the stage of its copy, or at the one it sets;
`done` may come at any stage. -/
def Current (s : St) (act : Act) : Prop :=
  ∀ x ∈ patched s act, ∀ stage ∈ x.patch.stage,
    stage = .done ∨ x.record.job.at = x.copy.at ∨ x.record.job.at = stage

instance (s : St) (act : Act) : Decidable (Current s act) :=
  inferInstanceAs (Decidable (∀ x ∈ patched s act, ∀ stage ∈ x.patch.stage, _ ∨ _ ∨ _))

/-- What was stopped is past its run. -/
def StoppedLate (w : World) : Prop :=
  ∀ name r, w.records.get? name = some r → r.job.stopped.isSome = true → r.job.at.late = true

variable {w w' : World} {s s' : St}

theorem Patches.rank_le {job : RayJob} {p : Patch} {next : Next} (h : Patches job p next)
    {stage : Stage} (hs : p.stage = some stage) : job.at.rank ≤ stage.rank := by
  cases h with
  | resume h =>
    cases hs
    omega
  | ended h he after ha =>
    cases hs
    rw [h, ha]
    split <;> decide
  | output h =>
    cases hs
    rw [h]
    decide
  | suspend => cases hs
  | stop h =>
    cases hs
    have hge : 2 ≤ (if job.output = .asked && job.status.startTime.isSome then Stage.outputs
        else .done).rank := by split <;> decide
    exact h.trans (Nat.le_of_succ_le hge)

theorem late_of_rank_le {a b : Stage} (ha : a.late = true) (h : a.rank ≤ b.rank) :
    b.late = true := by
  simp only [Stage.late, decide_eq_true_eq] at ha ⊢
  omega

/-- Where the PATCH's stage is current, the RayJob does not go backwards. -/
theorem Patches.forward {job : RayJob} {p : Patch} {next : Next} (h : Patches job p next)
    {j : RayJob} (hc : ∀ stage ∈ p.stage, stage = .done ∨ j.at = job.at ∨ j.at = stage) :
    j.at.rank ≤ (p.apply j).at.rank := by
  rw [Patch.apply_at]
  cases hs : p.stage with
  | none => exact le_rfl
  | some stage =>
    rcases hc stage hs with rfl | hcopy | hset
    · cases j.at <;> decide
    · rw [hcopy]
      exact h.rank_le hs
    · rw [hset]
      exact le_rfl

theorem Patches.stopped_late {job : RayJob} {p : Patch} {next : Next} (h : Patches job p next)
    {j : RayJob} (hf : j.at.rank ≤ (p.apply j).at.rank)
    (hj : j.stopped.isSome = true → j.at.late = true)
    (hs : (p.apply j).stopped.isSome = true) : (p.apply j).at.late = true := by
  cases h with
  | stop =>
    rw [Patch.apply_at]
    simp only [stopPatch, stagePatch]
    split <;> rfl
  | resume | ended | output | suspend => exact late_of_rank_le (hj hs) hf

theorem Patches.stays_stopped {job : RayJob} {p : Patch} {next : Next} (h : Patches job p next)
    {j : RayJob} (hl : j.at.late = true) (hf : j.at.rank ≤ (p.apply j).at.rank) :
    p.suspend ≠ some false ∧ p.stage ≠ some .running := by
  cases h with
  | resume =>
    have hlate := late_of_rank_le hl hf
    simp [Patch.apply_at, resumePatch, Stage.late, Stage.rank] at hlate
  | ended h he after ha =>
    refine ⟨by simp [stagePatch], ?_⟩
    simp only [stagePatch, ha]
    split <;> simp
  | output => simp [outputPatch, stagePatch]
  | suspend => simp
  | stop =>
    simp only [stopPatch, stagePatch]
    split <;> simp

theorem Happens.stages (h : Happens w w') {name : String} {r' : Record}
    (hr : w'.records.get? name = some r') :
    ∃ r, w.records.get? name = some r ∧ r'.job.stage = r.job.stage ∧
      r'.job.stopped = r.job.stopped := by
  have hput {n : String} {q q' : Record} (hq : w.records.get? n = some q)
      (hst : q'.job.stage = q.job.stage) (hsp : q'.job.stopped = q.job.stopped)
      (hr : (w.put n q').records.get? name = some r') :
      ∃ r, w.records.get? name = some r ∧ r'.job.stage = r.job.stage ∧
        r'.job.stopped = r.job.stopped := by
    rw [get?_put] at hr
    split_ifs at hr with heq
    · cases hr
      exact ⟨q, heq ▸ hq, hst, hsp⟩
    · exact ⟨r', hr, rfl, rfl⟩
  cases h with
  | report n q q' st hq hrep =>
    obtain ⟨heq, -⟩ := Record.report_eq hrep
    exact hput hq (by rw [heq]) (by rw [heq]) hr
  | copyEnds n d ok =>
    rcases copyEnds_records w n d ok with ⟨hsame, -⟩ | ⟨q, hq, -, -, hset⟩
    · exact ⟨r', hsame ▸ hr, rfl, rfl⟩
    · rw [hset] at hr
      have hback : (w.put n { q with back := true }).records.get? name = some r' := hr
      exact hput hq (by rfl) (by rfl) hback
  | tick | copyGone | write => exact ⟨r', hr, rfl, rfl⟩

theorem serve_patch {job : RayJob} {p : Patch} {next : Next} {k : After} {c : Choice}
    {a : Answer} (h : serve w (.patch job p next k) c = some (w', a)) :
    w' = w ∨ (c = .ok ∨ c = .lost) ∧ ∃ r, w.live job.name = some r ∧
      w' = w.put job.name (r.patch p) := by
  simp only [serve] at h
  split at h
  · rename_i hl
    obtain ⟨r, hr⟩ := Option.isSome_iff_exists.mp hl
    have hw : w.patch job.name p = w.put job.name (r.patch p) := by simp [World.patch, hr]
    rw [hw] at h
    cases c with
    | ok | lost =>
      cases h
      exact .inr ⟨by simp, r, hr, rfl⟩
    | fail | error =>
      cases h
      exact .inl rfl
    | bool | samples => cases h
  · exact .inl (reading_eq h).1

/-- What a step does to the RayJobs there are: a PATCH, or nothing to stage and stop. -/
inductive Staged (s : St) (act : Act) (s' : St) : Prop
  | patch (t : ℕ) (job : RayJob) (p : Patch) (next : Next) (k : After) (r : Record)
      (ht : s.at t = some ⟨.patch job p next k, none⟩)
      (hp : patched s act = some ⟨job, p, r⟩) (hr : s.world.records.get? job.name = some r)
      (hw : s'.world = s.world.put job.name (r.patch p))
  | other (hw : ∀ name r', s'.world.records.get? name = some r' →
      (s.world.records.get? name = none ∧ r'.job.stopped = none) ∨
      ∃ r, s.world.records.get? name = some r ∧ r'.job.stage = r.job.stage ∧
        r'.job.stopped = r.job.stopped)

theorem staged_of_step {act : Act} (h : Copies s) (hs : program.step s act = some s') :
    Staged s act s' := by
  have hsame (hw : s'.world.records = s.world.records) : Staged s act s' :=
    .other fun name r' hr => .inr ⟨r', hw ▸ hr, rfl, rfl⟩
  cases act with
  | call i =>
    obtain ⟨r, hr, rfl⟩ := Program.step_call hs
    exact hsame rfl
  | resume t =>
    obtain ⟨pc, a, r, ht, hr, rfl⟩ := Program.step_resume hs
    exact hsame rfl
  | env e =>
    obtain ⟨w, g, he, rfl⟩ := Program.step_env hs
    exact .other fun name r' hr => .inr ((env_happens he).2.stages hr)
  | serve t c =>
    obtain ⟨pc, w, a, ht, hv, rfl⟩ := Program.step_serve hs
    have he := h.each t _ ht
    cases (serve_writes hv).1 with
    | same | write | erase | copies => exact hsame rfl
    | post cluster job copies =>
      have hcl := he.claims cluster job.name rfl
      refine .other fun name r' hr => ?_
      simp only [World.post, get?_put] at hr
      split_ifs at hr with heq
      · cases hr
        exact .inl ⟨heq ▸ hcl.unposted, (show Fresh job from he.formed).stopped⟩
      · exact .inr ⟨r', hr, rfl, rfl⟩
    | remove name k r hl =>
      refine .other fun n r' hr => .inr ?_
      simp only [get?_put] at hr
      split_ifs at hr with heq
      · cases hr
        exact ⟨r, heq ▸ (World.live_eq hl).1, rfl, rfl⟩
      · exact ⟨r', hr, rfl, rfl⟩
    | patch job p next k =>
      rcases serve_patch (show serve s.world (.patch job p next k) c = _ from hv) with
        heq | ⟨hc, q, hq, heq⟩
      · exact hsame (by rw [heq])
      · refine .patch t job p next k q ht ?_ (World.live_eq hq).1 heq
        simp [patched, ht, hc, hq]

theorem patched_eq {act : Act} {x : Patching} (h : patched s act = some x) :
    ∃ t next k, s.at t = some ⟨.patch x.copy x.patch next k, none⟩ ∧
      s.world.live x.copy.name = some x.record := by
  cases act with
  | serve t c =>
    simp only [patched] at h
    split at h
    · rename_i job p next k ht
      split_ifs at h
      obtain ⟨r, hr, rfl⟩ := Option.map_eq_some_iff.mp h
      exact ⟨t, next, k, ht, hr⟩
    · cases h
  | call | resume | env => cases h

theorem staysStopped_of_current {act : Act} (h : Copies s) (hl : StoppedLate s.world)
    (hc : Current s act) : StaysStopped s act := by
  intro x hx hst
  obtain ⟨t, next, k, ht, hlive⟩ := patched_eq hx
  have hform : Patches x.copy x.patch next := (h.each t _ ht).formed
  exact hform.stays_stopped (hl _ _ (World.live_eq hlive).1 hst) (hform.forward (hc x hx))

theorem forward_of_current {act : Act} (h : Copies s) (hc : Current s act)
    (hs : program.step s act = some s') : Forward s s' := by
  intro name r r' hr hr'
  cases staged_of_step h hs with
  | patch t job p next k q ht hp hq hw =>
    have hform : Patches job p next := (h.each t _ ht).formed
    rw [hw, get?_put] at hr'
    split_ifs at hr' with heq
    · cases hr'
      obtain rfl : q = r := Option.some.inj (hq.symm.trans (heq ▸ hr))
      exact hform.forward (hc _ hp)
    · rw [Option.some.inj (hr.symm.trans hr')]
  | other hw =>
    rcases hw name r' hr' with ⟨hnone, -⟩ | ⟨q, hq, hst, -⟩
    · simp [hnone] at hr
    · obtain rfl : q = r := Option.some.inj (hq.symm.trans hr)
      simp [RayJob.at, hst]

theorem stoppedLate_step {act : Act} (h : Copies s) (hl : StoppedLate s.world)
    (hc : Current s act) (hs : program.step s act = some s') : StoppedLate s'.world := by
  intro name r' hr' hst
  cases staged_of_step h hs with
  | patch t job p next k q ht hp hq hw =>
    have hform : Patches job p next := (h.each t _ ht).formed
    rw [hw, get?_put] at hr'
    split_ifs at hr' with heq
    · cases hr'
      exact hform.stopped_late (hform.forward (hc _ hp)) (hl job.name q hq) hst
    · exact hl name r' hr' hst
  | other hw =>
    rcases hw name r' hr' with ⟨-, hnone⟩ | ⟨q, hq, hstage, hstop⟩
    · simp [hnone] at hst
    · rw [hstop] at hst
      simpa [RayJob.at, hstage] using hl name q hq hst

structure StagesInv (s : St) : Prop where
  locks : Locked s
  copies : Copies s
  stopped : StoppedLate s.world

theorem stagesInv_step (s : St) (act : Act) (s' : St) (h : StagesInv s) (hc : Current s act)
    (hs : program.step s act = some s') : StagesInv s' where
  locks := locked_step h.locks hs
  copies := copies_step h.locks h.copies hs
  stopped := stoppedLate_step h.copies h.stopped hc hs

theorem stagesInv_initial (st : Standing) : StagesInv (initial st) where
  locks := (copies_initial st).1
  copies := (copies_initial st).2
  stopped n r hr hst := by
    obtain ⟨o, -, -, rfl⟩ := old_of_get? hr
    exact decide_eq_true (o.stopped hst)

/-- In a run in which every PATCH of a stage is current, no stage goes backwards and what
was stopped stays so. -/
theorem forward_of_current_run {st : Standing} {acts : List Act} {act : Act} {s s' : St}
    (hc : program.Along Current (initial st) (acts ++ [act]))
    (hr : program.run (initial st) acts = some s)
    (hs : program.step s act = some s') : Forward s s' ∧ StaysStopped s act := by
  obtain ⟨hacts, hlast⟩ := hc.last hr
  have hinv := Program.run_invariant stagesInv_step (stagesInv_initial st) hacts hr
  exact ⟨forward_of_current hinv.copies hlast hs,
    staysStopped_of_current hinv.copies hinv.stopped hlast⟩

/-- A job waits for its inputs, a pass has listed it and hears that they are there. -/
def inputsRun : List Act :=
  submitting 0 "k" ⟨"a", true, false⟩ ++ answers 0 [.ok, .ok] ++ .call .reap :: answers 1 [.ok, .ok] ++
    [.env (.copyEnds (hubJob "k") .into true), .serve 1 .ok]

/-- Its user stops it before the pass goes on, which then starts it. -/
def restartedRun : List Act :=
  inputsRun ++ .call (.about hubUser "a" .stop) :: answers 2 [.ok, .ok, .ok] ++ [.resume 1]

theorem not_forward_restarted :
    ¬∀ st acts act s s', program.run (initial st) acts = some s →
      program.step s act = some s' → Forward s s' ∧ StaysStopped s act := by
  intro h
  have hany : (program.run (initial nothing) restartedRun).any (fun s =>
      (program.step s (.serve 1 .ok)).any fun s' =>
        (s.world.records.get? (hubJob "k")).any (fun r =>
          r.job.at = .done && r.job.stopped = some stoppedByUser && r.job.suspend) &&
        (s'.world.records.get? (hubJob "k")).any fun r =>
          r.job.at = .running && r.job.stopped = some stoppedByUser && !r.job.suspend) = true := by
    decide +kernel
  obtain ⟨s, hs, hstep⟩ := (Option.any_eq_true _ _).mp hany
  obtain ⟨s', hs', hrec⟩ := (Option.any_eq_true _ _).mp hstep
  rw [Bool.and_eq_true] at hrec
  obtain ⟨r, hr, hdone⟩ := (Option.any_eq_true _ _).mp hrec.1
  obtain ⟨r', hr', hrun⟩ := (Option.any_eq_true _ _).mp hrec.2
  simp only [Bool.and_eq_true, decide_eq_true_eq] at hdone hrun
  have hle := (h nothing _ _ s s' hs hs').1 _ r r' hr hr'
  rw [hdone.1.1, hrun.1.1] at hle
  exact absurd hle (by decide)

/-- Stopped after the pass has started it, the job is done and stays suspended. -/
theorem forward_of_current_stopped :
    let acts := inputsRun ++ .resume 1 :: answers 1 [.ok, .ok] ++
      .call (.about hubUser "a" .stop) :: answers 2 [.ok, .ok]
    program.Along Current (initial nothing) (acts ++ [.serve 2 .ok]) ∧
      ∃ s s', program.run (initial nothing) acts = some s ∧
        program.step s (.serve 2 .ok) = some s' ∧
        (s'.world.records.get? (hubJob "k")).any (fun r => r.job.at = .done && r.job.suspend) ∧
        Forward s s' ∧ StaysStopped s (.serve 2 .ok) := by
  intro acts
  have hc : program.Along Current (initial nothing) (acts ++ [.serve 2 .ok]) := by decide +kernel
  have hany : (program.run (initial nothing) acts).any (fun s =>
      (program.step s (.serve 2 .ok)).any fun s' =>
        (s'.world.records.get? (hubJob "k")).any fun r => r.job.at = .done && r.job.suspend) = true := by
    decide +kernel
  obtain ⟨s, hs, hstep⟩ := (Option.any_eq_true _ _).mp hany
  obtain ⟨s', hs', hrec⟩ := (Option.any_eq_true _ _).mp hstep
  exact ⟨hc, s, s', hs, hs', hrec, forward_of_current_run hc hs hs'⟩

end PurdueAF.RayNrp
