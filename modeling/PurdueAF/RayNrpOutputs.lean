import PurdueAF.RayNrpStages

/-!
# What a job on NRP wrote

A job's prefix of the bucket holds its code, its inputs and its outputs. Three paths delete
it: `advance_nrp` for a job that is done, `delete_nrp` for a record, and the sweep for code
no job took. Each judges by what it read before; here is when that is still so.
-/
namespace PurdueAF.RayNrp
open Ray RayNaming Coroutine

/-- Nothing the job wrote can be lost: it asked for no output, never began, or it is back. -/
def Returned (r : Record) : Prop := r.job.output = .no ∨ r.ran = false ∨ r.back = true

instance (r : Record) : Decidable (Returned r) := inferInstanceAs (Decidable (_ ∨ _ ∨ _))

/-- Outputs that did not come back may go with the record: once it was kept long enough, or
with its user's DELETE of a job that is done. -/
def GivenUp (now : ℤ) (r : Record) : Cause → Prop
  | .record => ∃ t, r.doneAt = some t ∧ jobRecordS ≤ now - t
  | .byUser => r.job.at = .done
  | _ => False

structure Deletable (now : ℤ) (r : Record) (cause : Cause) : Prop where
  ends : r.job.ended = true ∨ r.job.stopped.isSome = true
  kept : Returned r ∨ r.job.output = .failed ∧ GivenUp now r cause

/-- A name that no RayJob has, and that no submission is under way or expected for. -/
structure Dead (w : World) (g : Gateway) (name : String) : Prop where
  live : w.live name = none
  submitting : ∀ e ∈ g.submitting, e.2 ≠ name
  waiting : ∀ e ∈ g.waiting, e.2.1 ≠ name

/-- When `delete_prefix` may be called for a job's name. -/
def Allowed (s : St) (name : String) (cause : Cause) : Prop :=
  match cause with
  | .orphan => Dead s.world s.mem name
  | _ => ∃ r, s.world.records.get? name = some r ∧ Deletable s.world.now r cause

def KeepsCode (s : St) (act : Act) (s' : St) : Prop :=
  ∀ name cause, .deletes name cause ∈ program.emits s act → Allowed s' name cause

/-- A PATCH of a stage finds the RayJob at the stage of its copy, or already as it makes it;
and a stop that skips the copy back, as its copy has no start time, finds a job that has
not begun. -/
def Matched (s : St) (act : Act) : Prop :=
  ∀ x ∈ patched s act, ∀ stage ∈ x.patch.stage,
    (x.record.job.at = x.copy.at ∧ (x.patch.stopped.isSome = true → stage = .done →
      x.copy.output = .asked → x.record.ran = false)) ∨
    (x.record.job.at = stage ∧ ∀ b ∈ x.patch.suspend, x.record.job.suspend = b)

/-- The RayJob that a user's DELETE has found. -/
def deleting (s : St) : Act → Option RayJob
  | .resume t =>
    match s.at t with
    | some ⟨.find _ jobId .delete, some (.listing jobs)⟩ => jobs.find? fun j => j.jobId = jobId
    | _ => none
  | _ => none

/-- A user's DELETE finds a RayJob with a stage, or one that has ended and has nothing to lose. -/
def Marked (s : St) (act : Act) : Prop :=
  ∀ job ∈ deleting s act, job.stage.isSome = true ∨
    (job.ended = true ∧ ∀ r ∈ s.world.records.get? job.name, Returned r)

/-- The pass that goes on to the bucket: when it began, and the names it takes for taken. -/
def sweeping (s : St) : Act → Option (ℤ × List String)
  | .resume t =>
    match s.at t with
    | some ⟨pc, some a⟩ =>
      match (resume s.world s.mem pc a).bind Ran.next with
      | some (.jobs now taken) => some (now, taken)
      | _ => none
    | _ => none
  | _ => none

/-- When a pass works out which names are taken, the code of a RayJob that its listing
lacks, or of a submission under way, is younger than `2 * START_TIMEOUT_S`. -/
def Young (s : St) (act : Act) : Prop :=
  ∀ x ∈ sweeping s act, ∀ e ∈ s.world.bucket,
    ((s.world.live e.1).isSome = true ∨ e.1 ∈ s.mem.submitting.map Prod.snd) →
      e.1 ∈ x.2 ∨ x.1 - e.2 < 2 * startTimeoutS

def Careful (s : St) (act : Act) : Prop := Matched s act ∧ Marked s act ∧ Young s act

instance (s : St) (act : Act) : Decidable (Matched s act) :=
  inferInstanceAs (Decidable (∀ x ∈ patched s act, ∀ stage ∈ x.patch.stage, _ ∨ _))

instance (s : St) (act : Act) : Decidable (Marked s act) :=
  inferInstanceAs (Decidable (∀ job ∈ deleting s act, _ ∨ _))

instance (s : St) (act : Act) : Decidable (Young s act) :=
  inferInstanceAs (Decidable (∀ x ∈ sweeping s act, ∀ e ∈ s.world.bucket, _ → _))

instance (s : St) (act : Act) : Decidable (Careful s act) :=
  inferInstanceAs (Decidable (_ ∧ _ ∧ _))

theorem Matched.current {s : St} {act : Act} (h : Matched s act) : Current s act := by
  intro x hx stage hs
  rcases h x hx stage hs with hcopy | hset
  · exact .inr (.inl hcopy.1)
  · exact .inr (.inr hset.1)

/-- What holds of every RayJob. -/
structure Held (r : Record) : Prop where
  held : r.job.at.late = true → r.job.suspend = true ∨ r.job.ended = true
  failed : r.job.output = .failed → r.job.at = .done
  wrote : r.job.at = .outputs → r.job.output = .asked
  done : r.job.at = .done → Returned r ∨ r.job.output = .failed
  since : r.job.at = .done → ∃ t u, r.doneAt = some t ∧ r.job.since = some u ∧ t ≤ u

/-- What holds of a copy and the RayJob it is of. -/
structure Older (c : RayJob) (r : Record) : Prop where
  rank : c.at.rank ≤ r.job.at.rank
  output : c.output = .no ↔ r.job.output = .no
  failed : c.output = .failed → r.job.output = .failed ∧ c.at = .done
  wrote : c.at = .outputs → c.output = .asked
  returned : c.at = .done → c.output ≠ .failed → Returned r
  since : c.at = .done → ∃ t u, r.doneAt = some t ∧ c.since = some u ∧ t ≤ u

/-- What a RayJob may become, under the condition. -/
structure Follows (r r' : Record) : Prop where
  rank : r.job.at.rank ≤ r'.job.at.rank
  output : r.job.output = .no ↔ r'.job.output = .no
  failed : r.job.output = .failed → r'.job.output = .failed
  ended : r.job.ended = true → r'.job.ended = true
  stopped : r.job.stopped.isSome = true → r'.job.stopped.isSome = true
  returned : r.job.ended = true ∨ r.job.stopped.isSome = true → Returned r → Returned r'
  since : ∀ t, r.doneAt = some t → ∃ t', r'.doneAt = some t' ∧ t' ≤ t
  back : r.back = true → r'.back = true
  held : r'.job.at.rank ≤ r.job.at.rank → r.job.suspend = true ∨ r.job.ended = true →
    r'.job.suspend = true ∨ r'.job.ended = true

variable {r r' : Record} {c : RayJob}

theorem eq_done_of_rank {s : Stage} (h : Stage.done.rank ≤ s.rank) : s = .done := by
  cases s <;> simp_all [Stage.rank]

theorem Held.older (h : Held r) : Older r.job r where
  rank := le_rfl
  output := .rfl
  failed hf := ⟨hf, h.failed hf⟩
  wrote := h.wrote
  returned hd hf := (h.done hd).resolve_right hf
  since := h.since

theorem Older.follows (h : Older c r)
    (hl : r.job.at.late = true → r.job.ended = true ∨ r.job.stopped.isSome = true)
    (hf : Follows r r') : Older c r' where
  rank := h.rank.trans hf.rank
  output := h.output.trans hf.output
  failed hc := ⟨hf.failed (h.failed hc).1, (h.failed hc).2⟩
  wrote := h.wrote
  returned hd hc := by
    have hdone : r.job.at = .done := eq_done_of_rank (hd ▸ h.rank)
    exact hf.returned (hl (by rw [hdone]; rfl)) (h.returned hd hc)
  since hd := by
    obtain ⟨t, u, ht, hu, hle⟩ := h.since hd
    obtain ⟨t', ht', hle'⟩ := hf.since t ht
    exact ⟨t', u, ht', hu, hle'.trans hle⟩

theorem Deletable.follows {now now' : ℤ} {cause : Cause} (h : Deletable now r cause)
    (hf : Follows r r') (hn : now ≤ now') : Deletable now' r' cause where
  ends := h.ends.imp hf.ended hf.stopped
  kept := by
    rcases h.kept with hret | ⟨hfail, hup⟩
    · exact .inl (hf.returned h.ends hret)
    · refine .inr ⟨hf.failed hfail, ?_⟩
      cases cause with
      | record =>
        obtain ⟨t, ht, hle⟩ := hup
        obtain ⟨t', ht', hle'⟩ := hf.since t ht
        exact ⟨t', ht', by omega⟩
      | byUser =>
        have hdone : r.job.at = .done := hup
        exact eq_done_of_rank (hdone ▸ hf.rank)
      | clean | orphan => exact hup.elim

theorem Follows.refl : Follows r r where
  rank := le_rfl
  output := .rfl
  failed := id
  ended := id
  stopped := id
  returned _ := id
  since t ht := ⟨t, ht, le_rfl⟩
  back := id
  held _ := id

section Patch
variable {job : RayJob} {p : Patch} {next : Next}

/-- What the coroutine that sends a PATCH knows besides its copy: outputs it marks as back
are back, and a job it marks as stopped was suspended or has ended. -/
structure Sure (job : RayJob) (p : Patch) (r : Record) : Prop where
  back : job.at = .outputs → p.stage = some .done → p.output = none → r.back = true
  held : p.stopped.isSome = true → r.job.at.rank ≤ job.at.rank →
    r.job.suspend = true ∨ r.job.ended = true

/-- The condition, of one PATCH. -/
def Meets (job : RayJob) (p : Patch) (r : Record) : Prop :=
  ∀ stage ∈ p.stage,
    (r.job.at = job.at ∧ (p.stopped.isSome = true → stage = .done →
      job.output = .asked → r.ran = false)) ∨
    (r.job.at = stage ∧ ∀ b ∈ p.suspend, r.job.suspend = b)

theorem Meets.current (h : Meets job p r) :
    ∀ stage ∈ p.stage, stage = .done ∨ r.job.at = job.at ∨ r.job.at = stage := by
  intro stage hs
  rcases h stage hs with hcopy | hset
  · exact .inr (.inl hcopy.1)
  · exact .inr (.inr hset.1)

theorem Patches.output_cases (h : Patches job p next) :
    p.output = none ∨ p.output = some .failed ∧ job.at = .outputs ∧ p.stage = some .done := by
  cases h with
  | output h copied =>
    simp only [outputPatch, stagePatch]
    split <;> simp [h]
  | resume | ended | suspend | stop => exact .inl rfl

theorem Patches.suspend_cases (h : Patches job p next) :
    p.suspend = none ∨ p.suspend = some true ∨
      p.suspend = some false ∧ p.stage = some .running ∧ job.at.rank = 0 := by
  cases h with
  | resume h => exact .inr (.inr ⟨rfl, rfl, h⟩)
  | suspend => exact .inr (.inl rfl)
  | ended | output | stop => exact .inl rfl

theorem Record.patch_since (p : Patch) {t : ℤ} (h : r.doneAt = some t) :
    ∃ t', (r.patch p).doneAt = some t' ∧ t' ≤ t := by
  by_cases hs : p.stage = some .done
  · cases hp : p.since with
    | none => exact ⟨t, by simp [Record.patch, hs, h, hp], le_rfl⟩
    | some u => exact ⟨min t u, by simp [Record.patch, hs, h, hp], min_le_left t u⟩
  · exact ⟨t, by simp [Record.patch, hs, h], le_rfl⟩

/-- The output annotation of the RayJob stays, or outputs it asked for are marked as failed. -/
theorem Patches.apply_output (h : Patches job p next) (ho : Older job r) :
    (p.apply r.job).output = r.job.output ∨
      (p.apply r.job).output = .failed ∧ r.job.output ≠ .no := by
  rcases h.output_cases with hp | ⟨hp, hat, -⟩
  · exact .inl (by simp [Patch.apply, hp])
  · refine .inr ⟨by simp [Patch.apply, hp], fun hno => ?_⟩
    have hasked := ho.wrote hat
    rw [ho.output.mpr hno] at hasked
    cases hasked

theorem Patches.follows (h : Patches job p next) (ho : Older job r) (hm : Meets job p r) :
    Follows r (r.patch p) := by
  have hout := h.apply_output ho
  have hno : r.job.output = .no ↔ (p.apply r.job).output = .no := by
    rcases hout with heq | ⟨hfail, hne⟩
    · rw [heq]
    · simp [hfail, hne]
  refine ⟨h.forward hm.current, hno, fun hf => ?_, id, p.apply_stopped r.job, fun _ hret => ?_,
    fun t ht => Record.patch_since p ht, id, fun hrank hheld => ?_⟩
  · rcases hout with heq | ⟨hfail, -⟩
    · exact heq.trans hf
    · exact hfail
  · rcases hret with hret | hret | hret
    · exact .inl (hno.mp hret)
    · exact .inr (.inl hret)
    · exact .inr (.inr hret)
  · rcases h.suspend_cases with hp | hp | ⟨hp, hs, hzero⟩
    · refine hheld.imp_left fun hsus => ?_
      simpa [Record.patch, Patch.apply, hp] using hsus
    · exact .inl (by simp [Record.patch, Patch.apply, hp])
    · rcases hm _ hs with ⟨hat, -⟩ | ⟨-, hsus⟩
      · have hle : ((p.apply r.job).at).rank ≤ r.job.at.rank := hrank
        rw [Patch.apply_at, hs, hat, hzero] at hle
        exact absurd hle (by simp [Stage.rank])
      · have hfalse := hsus false hp
        exact .inr (hheld.resolve_left (by simp [hfalse]))

theorem Record.patch_done {u : ℤ} (r : Record) (j : RayJob) (hs : p.stage = some .done)
    (hu : p.since = some u) :
    ∃ t u', (r.patch p).doneAt = some t ∧ (p.apply j).since = some u' ∧ t ≤ u' := by
  have hsince : (p.apply j).since = some u := by simp [Patch.apply, hu]
  cases ht : r.doneAt with
  | none => exact ⟨u, u, by simp [Record.patch, hs, hu, ht], hsince, le_rfl⟩
  | some t => exact ⟨min t u, u, by simp [Record.patch, hs, hu, ht], hsince, min_le_right t u⟩

theorem outputPatch_failed {copied : Option CopyState} {now : ℤ} {o : Output}
    (h : (outputPatch copied now).output = some o) : o = .failed := by
  simp only [outputPatch, stagePatch] at h
  split at h <;> simp_all

theorem Older.not_failed (h : Older c r) (hd : c.at ≠ .done) : c.output ≠ .failed :=
  fun hf => hd (h.failed hf).2

/-- A job that asked for outputs still asks for them, unless it is done. -/
theorem Older.asked (h : Older c r) (hh : Held r) (hc : c.output = .asked)
    (hd : r.job.at ≠ .done) : r.job.output = .asked := by
  cases ho : r.job.output with
  | asked => rfl
  | no => simp [h.output.mpr ho] at hc
  | failed => exact absurd (hh.failed ho) hd

theorem ne_done_of_rank {s : Stage} (h : s.rank ≤ 1) : s ≠ .done := by
  rintro rfl
  exact absurd h (by decide)

/-- `stop_nrp` sets outputs for a job that asked for them and has a start time, else done. -/
theorem stopPatch_stage (job : RayJob) (why : String) (now : ℤ) :
    (stopPatch job why now).stage = some .outputs ∧ job.output = .asked ∨
      (stopPatch job why now).stage = some .done := by
  simp only [stopPatch, stagePatch]
  split
  · rename_i hw
    simp only [Bool.and_eq_true, decide_eq_true_eq] at hw
    exact .inl ⟨rfl, hw.1⟩
  · exact .inr rfl

theorem Patches.held (h : Patches job p next) (ho : Older job r) (hh : Held r)
    (hk : job.ended = true → r.job.ended = true) (hm : Meets job p r) (hs : Sure job p r) :
    Held (r.patch p) := by
  cases h with
  | resume h now =>
    have hat : r.job.at ≠ .done := by
      rcases hm .running rfl with ⟨hat, -⟩ | ⟨hat, -⟩
      · rw [hat]
        exact ne_done_of_rank (by omega)
      · simp [hat]
    exact ⟨nofun, fun hf => absurd (hh.failed hf) hat, nofun, nofun, nofun⟩
  | ended h he after ha since now now' =>
    have hat : r.job.at = .running ∨ r.job.at = after := by
      rcases hm after rfl with ⟨hat, -⟩ | ⟨hat, -⟩
      · exact .inl (hat.trans h)
      · exact .inr hat
    have hjob : job.output ≠ .failed := ho.not_failed (by simp [h])
    refine ⟨fun _ => .inr (hk he), fun hf => ?_, fun hw => ?_, fun hd => ?_, fun hd => ?_⟩
    · rcases hat with hat | hat
      · simp [hh.failed hf] at hat
      · exact hat.symm.trans (hh.failed hf)
    · obtain rfl : after = .outputs := hw
      have hasked : job.output = .asked := by
        by_contra hno
        simp [hno] at ha
      refine ho.asked hh hasked ?_
      rcases hat with hat | hat <;> simp [hat]
    · obtain rfl : after = .done := hd
      refine .inl (.inl (ho.output.mp ?_))
      cases hout : job.output with
      | no => rfl
      | asked => simp [hout] at ha
      | failed => exact absurd hout hjob
    · obtain rfl : after = .done := hd
      exact Record.patch_done r _ rfl rfl
  | output h copied now now' =>
    have hlate : r.job.at.late = true := by
      rcases hm .done rfl with ⟨hat, -⟩ | ⟨hat, -⟩
      · rw [hat, h]
        rfl
      · rw [hat]
        rfl
    refine ⟨fun _ => hh.held hlate, fun _ => rfl, nofun, fun _ => ?_, fun _ => ?_⟩
    · cases hout : (outputPatch copied now).output with
      | none => exact .inl (.inr (.inr (hs.back h rfl hout)))
      | some o =>
        have hfail : o = .failed := outputPatch_failed hout
        exact .inr (by simp [Record.patch, Patch.apply, hout, hfail])
    · exact Record.patch_done r _ rfl rfl
  | suspend h why =>
    exact ⟨fun _ => .inl rfl, hh.failed, hh.wrote, hh.done, hh.since⟩
  | stop h why now =>
    have hout : (r.patch (stopPatch job why now)).job.output = r.job.output := rfl
    have hjob : job.output ≠ .failed := ho.not_failed (ne_done_of_rank h)
    rcases stopPatch_stage job why now with ⟨hst, hasked⟩ | hst
    · have hat' : (r.patch (stopPatch job why now)).job.at = .outputs := by
        simp [Record.patch, Patch.apply_at, hst]
      have hat : r.job.at ≠ .done := by
        rcases hm .outputs hst with ⟨hat, -⟩ | ⟨hat, -⟩
        · rw [hat]
          exact ne_done_of_rank h
        · simp [hat]
      refine ⟨fun _ => ?_, fun hf => ?_, fun _ => ?_, by simp [hat'], by simp [hat']⟩
      · rcases hm .outputs hst with ⟨hat, -⟩ | ⟨hat, -⟩
        · exact hs.held rfl (by rw [hat])
        · exact hh.held (by rw [hat]; rfl)
      · exact absurd (hh.failed hf) hat
      · exact ho.asked hh hasked hat
    · have hat' : (r.patch (stopPatch job why now)).job.at = .done := by
        simp [Record.patch, Patch.apply_at, hst]
      refine ⟨fun _ => ?_, fun _ => hat', by simp [hat'], fun _ => ?_, fun _ => ?_⟩
      · rcases hm .done hst with ⟨hat, -⟩ | ⟨hat, -⟩
        · exact hs.held rfl (by rw [hat])
        · exact hh.held (by rw [hat]; rfl)
      · rcases hm .done hst with ⟨-, hran⟩ | ⟨hat, -⟩
        · cases hjo : job.output with
          | no => exact .inl (.inl (ho.output.mp hjo))
          | asked => exact .inl (.inr (.inl (hran rfl rfl hjo)))
          | failed => exact absurd hjo hjob
        · exact hh.done hat
      · exact Record.patch_done r _ hst rfl

/-- What `advance_nrp` goes on with is a copy of the patched RayJob. -/
theorem Patches.older {stage : Stage} {since now : ℤ}
    (h : Patches job p (.advance stage since now)) (ho : Older job r) (hs : Sure job p r) :
    Older (p.apply job) (r.patch p) := by
  cases h with
  | ended h he _ ha _ now =>
    have hjob : job.output ≠ .failed := ho.not_failed (by simp [h])
    refine ⟨le_rfl, ho.output, fun hf => absurd hf hjob, fun hw => ?_, fun hd _ => ?_, fun hd => ?_⟩
    · obtain rfl : stage = .outputs := hw
      by_contra hno
      simp [show job.output ≠ .asked from hno] at ha
    · obtain rfl : stage = .done := hd
      refine .inl (ho.output.mp ?_)
      cases hout : job.output with
      | no => rfl
      | asked => simp [hout] at ha
      | failed => exact absurd hout hjob
    · obtain rfl : stage = .done := hd
      exact Record.patch_done r _ rfl rfl
  | output h copied now =>
    have hasked := ho.wrote h
    have hr : r.job.output ≠ .no := fun hno => by simp [ho.output.mpr hno] at hasked
    have hsince := Record.patch_done (p := outputPatch copied now) r job rfl rfl
    cases hout : (outputPatch copied now).output with
    | none =>
      have hback := hs.back h rfl hout
      refine ⟨le_rfl, ?_, fun hf => ?_, nofun, fun _ _ => .inr (.inr hback),
        fun _ => hsince⟩
      · simp [Record.patch, Patch.apply, hout, hasked, hr]
      · simp [Patch.apply, hout, hasked] at hf
    | some o =>
      have hfail : o = .failed := outputPatch_failed hout
      refine ⟨le_rfl, ?_, fun _ => ⟨?_, rfl⟩, nofun, fun _ hf => absurd ?_ hf,
        fun _ => hsince⟩
      · simp [Record.patch, Patch.apply, hout, hfail]
      · simp [Record.patch, Patch.apply, hout, hfail]
      · simp [Patch.apply, hout, hfail]

end Patch

theorem Record.report_follows {st : Status} (h : r.report st = some r') (hh : Held r)
    (hl : r.job.at.late = true → r.job.ended = true ∨ r.job.stopped.isSome = true)
    (hs : r.job.stopped.isSome = true → r.job.at.late = true) : Follows r r' ∧ Held r' := by
  have hend := fun he => Record.report_ended h he
  obtain ⟨rfl, -, -, hbegun⟩ := Record.report_eq h
  -- A job that has ended, or was stopped and so is suspended, does not begin to run.
  have hret (hover : r.job.ended = true ∨ r.job.stopped.isSome = true) (hr : Returned r) :
      Returned { r with job := { r.job with status := st }, ran := r.ran || st.begun } := by
    rcases hr with hno | hran | hback
    · exact .inl hno
    · refine .inr (.inl ?_)
      cases hb : st.begun with
      | false => simp [hran]
      | true =>
        have hheld : r.job.suspend = true ∨ r.job.ended = true := by
          rcases hover with he | hst
          · exact .inr he
          · exact hh.held (hs hst)
        rcases hbegun hb with hran' | ⟨hsus, hne⟩
        · simp [hran] at hran'
        · simp [hsus, hne] at hheld
    · exact .inr (.inr hback)
  refine ⟨⟨le_rfl, .rfl, id, hend, id, hret, fun t ht => ⟨t, ht, le_rfl⟩, id,
    fun _ hheld => hheld.imp_right hend⟩, ⟨fun hlate => (hh.held hlate).imp_right hend, hh.failed,
    hh.wrote, fun hd => ?_, hh.since⟩⟩
  refine (hh.done hd).imp_left (hret (hl ?_))
  have hdone : r.job.at = .done := hd
  rw [hdone]
  rfl

theorem Held.back (hh : Held r) : Follows r { r with back := true } ∧ Held { r with back := true } :=
  ⟨⟨le_rfl, .rfl, id, id, id, fun _ _ => .inr (.inr rfl), fun t ht => ⟨t, ht, le_rfl⟩, fun _ => rfl,
    fun _ => id⟩, ⟨hh.held, hh.failed, hh.wrote, fun _ => .inl (.inr (.inr rfl)), hh.since⟩⟩

theorem Held.removed (hh : Held r) :
    Follows r { r with removed := true } ∧ Held { r with removed := true } :=
  ⟨⟨le_rfl, .rfl, id, id, id, fun _ => id, fun t ht => ⟨t, ht, le_rfl⟩, id, fun _ => id⟩,
    ⟨hh.held, hh.failed, hh.wrote, hh.done, hh.since⟩⟩

theorem Fresh.held {job : RayJob} (h : Fresh job) (now : ℤ) :
    Held ⟨{ job with created := now }, false, false, none, false⟩ := by
  have hrank : job.at.rank ≤ 1 := h.rank
  have hlate : job.at.late = false := by
    simp only [Stage.late, decide_eq_false_iff_not]
    omega
  have hdone : job.at ≠ .done := ne_done_of_rank hrank
  have hout : job.at ≠ .outputs := by
    intro ho
    rw [ho] at hrank
    exact absurd hrank (by decide)
  refine ⟨fun hl => ?_, fun hf => absurd hf h.output, fun ho => absurd ho hout,
    fun hd => absurd hd hdone, fun hd => absurd hd hdone⟩
  have hl' : job.at.late = true := hl
  simp [hlate] at hl'

variable {w w' : World} {g g' : Gateway} {pc pc' : Pc} {a : Answer}

structure Stored (w : World) : Prop where
  held : ∀ name r, w.records.get? name = some r → Held r
  stopped : StoppedLate w
  back : ∀ name, w.copies.get? (name, .out) = some .succeeded →
    ∃ r, w.records.get? name = some r ∧ r.back = true
  copies : ∀ key st, w.copies.get? key = some st → ∃ r, w.records.get? key.1 = some r

def Ensues (w w' : World) : Prop :=
  ∀ name r, w.records.get? name = some r → ∃ r', w'.records.get? name = some r' ∧ Follows r r'

/-- A dead name that was used before: it will not come alive. -/
def Gone (w : World) (g : Gateway) (name : String) : Prop := Dead w g name ∧ name ∈ g.drawn

/-- The name that a coroutine is deleting in `delete_nrp`. -/
def Pc.deletes : Pc → Option (String × After)
  | .delete name k | .deleteCopy name _ k | .deleteCode name k => some (name, k)
  | _ => none

/-- The newest writes that a pass goes by: those it was answered with, else the bucket's. -/
def newest (w : World) : Option Answer → Dict String ℤ
  | some (.newest written) => written
  | _ => w.bucket

structure Judges (w : World) (g : Gateway) (pc : Pc) (reply : Option Answer) : Prop where
  older : ∀ c ∈ pc.copies, ∃ r, w.records.get? c.name = some r ∧ Older c r
  brings : ∀ c ∈ pc.brings reply, ∃ r, w.records.get? c.name = some r ∧ Older c r
  back : ∀ job now k, pc = .copied job .out now k → reply = some (.copy (some .succeeded)) →
    ∃ r, w.records.get? job.name = some r ∧ r.back = true
  sure : ∀ job p next k, pc = .patch job p next k → ∀ r, w.records.get? job.name = some r →
    Sure job p r
  suspended : ∀ job p why k, pc = .patch job p (.stop why) k → reply = some .done →
    ∀ r, w.records.get? job.name = some r → r.job.at.rank ≤ job.at.rank →
      r.job.suspend = true ∨ r.job.ended = true
  deletes : ∀ name k, pc.deletes = some (name, k) →
    ∃ r, w.records.get? name = some r ∧ Deletable w.now r k.cause
  pass : ∀ p, pc.after = some (.pass p) → p.now ≤ w.now
  jobs : ∀ now taken, pc = .jobs now taken → now ≤ w.now ∧ ∀ e ∈ newest w reply, e.1 ∉ taken →
    2 * startTimeoutS ≤ now - e.2 → Gone w g e.1
  sweep : ∀ rest, pc = .sweep rest → ∀ name ∈ rest, Gone w g name

/-- What a coroutine judges by stands while the RayJobs go on as they may. -/
theorem Judges.ensues {reply : Option Answer} (h : Judges w g pc reply) (hs : Shared w g)
    (he : Ensues w w') (hn : w.now ≤ w'.now)
    (hb : ∀ e ∈ w'.bucket, e ∈ w.bucket ∨ w.now ≤ e.2)
    (hg : ∀ name, Gone w g name → Gone w' g' name) : Judges w' g' pc reply := by
  have hold {c : RayJob} (hc : ∃ r, w.records.get? c.name = some r ∧ Older c r) :
      ∃ r, w'.records.get? c.name = some r ∧ Older c r := by
    obtain ⟨r, hr, ho⟩ := hc
    obtain ⟨r', hr', hf⟩ := he _ r hr
    exact ⟨r', hr', ho.follows (hs.late _ r hr) hf⟩
  -- The RayJob of a copy at a PATCH, before and after.
  have hboth {job : RayJob} {r' : Record} (hj : job ∈ pc.copies)
      (hr' : w'.records.get? job.name = some r') :
      ∃ r, w.records.get? job.name = some r ∧ Older job r ∧ Follows r r' := by
    obtain ⟨r, hr, ho⟩ := h.older job hj
    obtain ⟨r'', hr'', hf⟩ := he _ r hr
    obtain rfl : r'' = r' := Option.some.inj (hr''.symm.trans hr')
    exact ⟨r, hr, ho, hf⟩
  have hheld {job : RayJob} {r r' : Record} (ho : Older job r) (hf : Follows r r')
      (hr : r.job.at.rank ≤ job.at.rank → r.job.suspend = true ∨ r.job.ended = true)
      (hle : r'.job.at.rank ≤ job.at.rank) : r'.job.suspend = true ∨ r'.job.ended = true :=
    hf.held (hle.trans ho.rank) (hr (hf.rank.trans hle))
  refine ⟨fun c hc => hold (h.older c hc), fun c hc => hold (h.brings c hc), ?_, ?_, ?_, ?_,
    fun p hp => (h.pass p hp).trans hn, ?_, fun rest hp n hm => hg n (h.sweep rest hp n hm)⟩
  · intro job now k hp hr
    obtain ⟨r, hget, hback⟩ := h.back job now k hp hr
    obtain ⟨r', hr', hf⟩ := he _ r hget
    exact ⟨r', hr', hf.back hback⟩
  · intro job p next k hp r' hr'
    obtain ⟨r, hr, ho, hf⟩ := hboth (by simp [hp, Pc.copies]) hr'
    have hsure := h.sure job p next k hp r hr
    exact ⟨fun ha hst hno => hf.back (hsure.back ha hst hno),
      fun hst => hheld ho hf (hsure.held hst)⟩
  · intro job p why k hp hrep r' hr'
    obtain ⟨r, hr, ho, hf⟩ := hboth (by simp [hp, Pc.copies]) hr'
    exact hheld ho hf (h.suspended job p why k hp hrep r hr)
  · intro name k hp
    obtain ⟨r, hr, hd⟩ := h.deletes name k hp
    obtain ⟨r', hr', hf⟩ := he _ r hr
    exact ⟨r', hr', hd.follows hf hn⟩
  · intro now taken hp
    obtain ⟨hle, hall⟩ := h.jobs now taken hp
    refine ⟨hle.trans hn, fun e hm hnot hage => hg _ ?_⟩
    have hnew : newest w' reply = newest w reply ∨
        newest w' reply = w'.bucket ∧ newest w reply = w.bucket := by
      unfold newest
      split <;> simp
    rcases hnew with hnew | ⟨hnew', hnew⟩
    · exact hall e (hnew ▸ hm) hnot hage
    · rw [hnew'] at hm
      rcases hb e hm with hm | hyoung
      · exact hall e (hnew ▸ hm) hnot hage
      · simp only [startTimeoutS] at hage
        omega

theorem Ensues.of_eq (h : w'.records = w.records) : Ensues w w' :=
  fun _ r hr => ⟨r, h ▸ hr, .refl⟩

theorem Ensues.put {name : String} (hr : w.records.get? name = some r) (hf : Follows r r') :
    Ensues w (w.put name r') := by
  intro n q hq
  rw [get?_put]
  by_cases hn : n = name
  · obtain rfl : q = r := Option.some.inj (hq.symm.trans (hn ▸ hr))
    exact ⟨r', by simp [hn], hf⟩
  · exact ⟨q, by simpa [hn] using hq, .refl⟩

theorem Stored.put (h : Stored w) {name : String} (hr : w.records.get? name = some r)
    (hh : Held r') (hst : r'.job.stopped.isSome = true → r'.job.at.late = true)
    (hb : r.back = true → r'.back = true) : Stored (w.put name r') := by
  constructor
  · intro n q hq
    rw [get?_put] at hq
    split_ifs at hq
    · cases hq
      exact hh
    · exact h.held n q hq
  · intro n q hq
    rw [get?_put] at hq
    split_ifs at hq
    · cases hq
      exact hst
    · exact h.stopped n q hq
  · intro n hc
    obtain ⟨q, hq, hback⟩ := h.back n hc
    rw [get?_put]
    split_ifs with hn
    · obtain rfl : q = r := Option.some.inj (hq.symm.trans (hn ▸ hr))
      exact ⟨r', rfl, hb hback⟩
    · exact ⟨q, hq, hback⟩
  · intro key st hc
    obtain ⟨q, hq⟩ := h.copies key st hc
    rw [get?_put]
    split_ifs
    · exact ⟨r', rfl⟩
    · exact ⟨q, hq⟩

theorem Stored.of_records (h : Stored w) (hr : w'.records = w.records)
    (hc : ∀ key st, w'.copies.get? key = some st → ∃ r, w.records.get? key.1 = some r)
    (hok : ∀ name, w'.copies.get? (name, .out) = some .succeeded →
      ∃ r, w.records.get? name = some r ∧ r.back = true) : Stored w' := by
  refine ⟨?_, ?_, ?_, ?_⟩
  · rw [hr]
    exact h.held
  · intro n q hq
    exact h.stopped n q (hr ▸ hq)
  · rw [hr]
    exact hok
  · rw [hr]
    exact hc

theorem Stored.post (h : Stored w) {job : RayJob} (hf : Fresh job)
    (hn : w.records.get? job.name = none) : Stored (w.post job) := by
  have hne {n : String} {q : Record} (hq : w.records.get? n = some q) : n ≠ job.name := by
    rintro rfl
    simp [hn] at hq
  constructor
  · intro n q hq
    rw [World.post, get?_put] at hq
    split_ifs at hq
    · cases hq
      exact hf.held w.now
    · exact h.held n q hq
  · intro n q hq hst
    rw [World.post, get?_put] at hq
    split_ifs at hq
    · cases hq
      have hnone : job.stopped = none := hf.stopped
      simp [hnone] at hst
    · exact h.stopped n q hq hst
  · intro n hc
    obtain ⟨q, hq, hback⟩ := h.back n hc
    exact ⟨q, by rw [World.post, get?_put, if_neg (hne hq)]; exact hq, hback⟩
  · intro key st hc
    obtain ⟨q, hq⟩ := h.copies key st hc
    exact ⟨q, by rw [World.post, get?_put, if_neg (hne hq)]; exact hq⟩

theorem serve_ensues {c : Choice} (hv : serve w pc c = some (w', a)) (hst : Stored w)
    (he : Each w g pc none) (hj : Judges w g pc none)
    (hm : ∀ job p next k r, pc = .patch job p next k → w.live job.name = some r →
      c = .ok ∨ c = .lost → Meets job p r) : Ensues w w' ∧ Stored w' := by
  cases (serve_writes hv).1 with
  | same => exact ⟨.of_eq rfl, hst⟩
  | write | erase =>
    exact ⟨.of_eq rfl, hst.of_records rfl hst.copies hst.back⟩
  | post cluster job copies =>
    have hn := (he.claims cluster job.name rfl).unposted
    refine ⟨fun n q hq => ⟨q, ?_, .refl⟩, hst.post he.formed hn⟩
    rw [World.post, get?_put, if_neg]
    · exact hq
    · rintro rfl
      simp [hn] at hq
  | remove name k r hl =>
    have hr := (World.live_eq hl).1
    have hrem := (hst.held name r hr).removed
    exact ⟨.put hr hrem.1, hst.put hr hrem.2 (hst.stopped name r hr) id⟩
  | copies _ d hnew hok =>
    refine ⟨.of_eq rfl, hst.of_records rfl (fun key st hk => ?_) fun n hk => hst.back n (hok n hk)⟩
    rcases hnew key st hk with ⟨st', hk'⟩ | ⟨cluster, job, dir, more, rfl, rfl⟩
    · exact hst.copies key st' hk'
    · obtain ⟨r, hr, -⟩ := hj.older job (List.mem_singleton_self _)
      exact ⟨r, hr⟩
  | patch job p next k =>
    rcases serve_patch (show serve w (.patch job p next k) c = _ from hv) with
      heq | ⟨hc, r, hl, heq⟩
    · rw [heq]
      exact ⟨.of_eq rfl, hst⟩
    · rw [heq]
      have hr := (World.live_eq hl).1
      have hform : Patches job p next := he.formed
      have hmeets := hm job p next k r rfl hl hc
      obtain ⟨r', hr', ho⟩ := hj.older job (List.mem_cons_self ..)
      obtain rfl : r = r' := Option.some.inj (hr.symm.trans hr')
      obtain ⟨r', hr', hend, -⟩ := (he.copies job (List.mem_cons_self ..)).record
      obtain rfl : r = r' := Option.some.inj (hr.symm.trans hr')
      have hheld := hform.held ho (hst.held _ r hr) hend hmeets (hj.sure job p next k rfl r hr)
      exact ⟨.put hr (hform.follows ho hmeets), hst.put hr hheld
        (hform.stopped_late (hform.forward hmeets.current) (hst.stopped _ r hr)) id⟩

theorem Happens.ensues (h : Happens w w') (hst : Stored w) (hs : Shared w g) :
    Ensues w w' ∧ Stored w' := by
  cases h with
  | tick | write => exact ⟨.of_eq rfl, hst.of_records rfl hst.copies hst.back⟩
  | copyGone key =>
    refine ⟨.of_eq rfl, hst.of_records rfl (fun key st hk => ?_) fun n hk => ?_⟩
    · rw [Dict.get?_pop] at hk
      split_ifs at hk
      exact hst.copies key st hk
    · rw [Dict.get?_pop] at hk
      split_ifs at hk
      exact hst.back n hk
  | report name r r' st hr hrep =>
    obtain ⟨hf, hh⟩ := Record.report_follows hrep (hst.held name r hr) (hs.late name r hr)
      (hst.stopped name r hr)
    obtain ⟨rfl, -⟩ := Record.report_eq hrep
    exact ⟨.put hr hf, hst.put hr hh (hst.stopped name r hr) id⟩
  | copyEnds name d ok hc =>
    obtain ⟨r, hr⟩ := hst.copies _ _ hc
    have hcopies := (copyEnds_rest w name d ok).2.2
    have hback := (hst.held name r hr).back
    rcases copyEnds_records w name d ok with ⟨hsame, hnot⟩ | ⟨q, hq, -, hout, hset⟩
    · -- The copy that ended is not a copy back that succeeded.
      refine ⟨.of_eq hsame, hst.of_records hsame (fun key st hk => ?_) fun n hk => ?_⟩
      · rw [hcopies, Dict.get?_set] at hk
        split_ifs at hk with hkey
        · exact ⟨r, by rw [hkey]; exact hr⟩
        · exact ⟨r, by rw [hkey]; exact hr⟩
        · exact hst.copies key st hk
      · rw [hcopies, Dict.get?_set] at hk
        split_ifs at hk with hkey hok
        · cases hkey
          simp [hnot hok rfl] at hr
        · cases hk
        · exact hst.back n hk
    · obtain rfl : q = r := Option.some.inj (hq.symm.trans hr)
      have hput := hst.put hr hback.2 (hst.stopped name q hr) fun _ => rfl
      have hself : (w.put name { q with back := true }).records.get? name =
          some { q with back := true } := by simp [get?_put]
      refine ⟨?_, hput.of_records hset (fun key st hk => ?_) fun n hk => ?_⟩
      · intro n x hx
        rw [hset]
        exact Ensues.put hr hback.1 n x hx
      · rw [hcopies, Dict.get?_set] at hk
        split_ifs at hk with hkey
        · exact ⟨_, by rw [hkey]; exact hself⟩
        · exact ⟨_, by rw [hkey]; exact hself⟩
        · exact hput.copies key st hk
      · rw [hcopies, Dict.get?_set] at hk
        split_ifs at hk with hkey
        · cases hkey
          exact ⟨_, hself, rfl⟩
        · cases hk
        · exact hput.back n hk

theorem Gone.writes {name : String} (h : Gone w g name) (hw : Writes w pc w')
    (he : Each w g pc none) : Gone w' g name := by
  refine ⟨⟨?_, h.1.submitting, h.1.waiting⟩, h.2⟩
  have hput {n : String} {q q' : Record} (hl : w.live n = some q) :
      (w.put n q').live name = none := by
    have hne : name ≠ n := by
      rintro rfl
      simp [h.1.live] at hl
    simpa [World.live, get?_put, hne] using h.1.live
  cases hw with
  | post cluster job copies =>
    have hne : name ≠ job.name := by
      rintro rfl
      exact h.1.submitting _ (he.claims cluster job.name rfl).under rfl
    simpa [World.live, World.post, get?_put, hne] using h.1.live
  | patch _ _ _ _ _ hl => exact hput hl
  | remove _ _ _ hl => exact hput hl
  | same | write | erase | copies => exact h.1.live

theorem Gone.happens {name : String} (h : Gone w g name) (hh : Happens w w') :
    Gone w' g name := by
  refine ⟨⟨?_, h.1.submitting, h.1.waiting⟩, h.2⟩
  cases hh with
  | report n r r' st hr hrep =>
    obtain ⟨rfl, hrem, -⟩ := Record.report_eq hrep
    have hne : name ≠ n := by
      rintro rfl
      have hlive := h.1.live
      simp [World.live, hr, hrem] at hlive
    simpa [World.live, get?_put, hne] using h.1.live
  | copyEnds n d ok =>
    rcases copyEnds_records w n d ok with ⟨hsame, -⟩ | ⟨r, hr, -, -, hset⟩
    · simpa [World.live, hsame] using h.1.live
    · by_cases hn : name = n
      · subst hn
        have hlive := h.1.live
        simp only [World.live, hr, hset, Dict.get?_set_self] at hlive ⊢
        simpa using hlive
      · simpa [World.live, hset, Dict.get?_set_ne _ _ hn] using h.1.live
  | tick | copyGone | write => exact h.1.live

theorem Gone.resumes {name : String} {x : Step} (h : Gone w g name) (hx : Resumes w g pc a x) :
    Gone w x.mem name := by
  cases hn : x.next with
  | none =>
    obtain ⟨hs, hw, hd⟩ := hx.quits hn
    refine ⟨⟨h.1.live, fun e he => ?_, fun e he => h.1.waiting e (hw ▸ he)⟩, hd ▸ h.2⟩
    rcases hs with hs | ⟨c, -, hs⟩
    · exact h.1.submitting e (hs ▸ he)
    · rw [hs, Dict.mem_pop] at he
      exact h.1.submitting e he.1
  | some pc' =>
    rcases (hx.next pc' hn).names with ⟨c, n, -, -, hent, -⟩ | ⟨hs, hd, hw, -⟩
    · have hne : n ≠ name := by
        rintro rfl
        rcases hent.drawn with ⟨-, ⟨t, hm⟩ | hm⟩ | ⟨-, hnew⟩
        · exact h.1.waiting _ hm rfl
        · exact h.1.submitting _ hm rfl
        · exact hnew h.2
      refine ⟨⟨h.1.live, fun e he => ?_, fun e he => ?_⟩, hent.mem_drawn h.2⟩
      · rw [hent.submitting, Dict.mem_set] at he
        rcases he with rfl | ⟨he, -⟩
        · exact hne
        · exact h.1.submitting e he
      · rcases hent.waiting e he with he | ⟨-, rfl⟩
        · exact h.1.waiting e he
        · exact hne
    · exact ⟨⟨h.1.live, fun e he => h.1.submitting e (hs ▸ he), fun e he => h.1.waiting e (hw e he)⟩,
        hd ▸ h.2⟩

theorem Writes.bucket (h : Writes w pc w') :
    w'.now = w.now ∧ ∀ e ∈ w'.bucket, e ∈ w.bucket ∨ w.now ≤ e.2 := by
  cases h with
  | write cluster name =>
    refine ⟨rfl, fun e he => ?_⟩
    rcases Dict.mem_set.mp he with rfl | ⟨he, -⟩
    · exact .inr le_rfl
    · exact .inl he
  | erase => exact ⟨rfl, fun e he => .inl (Dict.mem_pop.mp he).1⟩
  | same | post | patch | remove | copies => exact ⟨rfl, fun e he => .inl he⟩

theorem Happens.bucket (h : Happens w w') :
    w.now ≤ w'.now ∧ ∀ e ∈ w'.bucket, e ∈ w.bucket ∨ w.now ≤ e.2 := by
  cases h with
  | tick d => exact ⟨by simp, fun e he => .inl he⟩
  | write name =>
    refine ⟨le_rfl, fun e he => ?_⟩
    rcases Dict.mem_set.mp he with rfl | ⟨he, -⟩
    · exact .inr le_rfl
    · exact .inl he
  | copyEnds name d ok =>
    obtain ⟨hnow, hb, -⟩ := copyEnds_rest w name d ok
    exact ⟨hnow.ge, fun e he => .inl (hb ▸ he)⟩
  | report | copyGone => exact ⟨le_rfl, fun e he => .inl he⟩

/-- A coroutine that was just suspended has no answer yet. -/
theorem Judges.unanswered
    (older : ∀ c ∈ pc.copies, ∃ r, w.records.get? c.name = some r ∧ Older c r)
    (sure : ∀ job p next k, pc = .patch job p next k → ∀ r, w.records.get? job.name = some r →
      Sure job p r)
    (deletes : ∀ name k, pc.deletes = some (name, k) →
      ∃ r, w.records.get? name = some r ∧ Deletable w.now r k.cause)
    (pass : ∀ p, pc.after = some (.pass p) → p.now ≤ w.now)
    (jobs : ∀ now taken, pc = .jobs now taken → now ≤ w.now ∧ ∀ e ∈ w.bucket, e.1 ∉ taken →
      2 * startTimeoutS ≤ now - e.2 → Gone w g e.1)
    (sweep : ∀ rest, pc = .sweep rest → ∀ name ∈ rest, Gone w g name) : Judges w g pc none where
  older := older
  brings := by simp [Pc.brings]
  back _ _ _ _ h := by simp at h
  sure := sure
  suspended _ _ _ _ _ h := by simp at h
  deletes := deletes
  pass := pass
  jobs := jobs
  sweep := sweep

theorem stopNrp_sure {job : RayJob} (hk : Known w job) (hr : job.at.rank ≤ 1) {why : String}
    {k : After} {j : RayJob} {p : Patch} {next : Next} {k' : After}
    (h : stopNrp w job why k = .patch j p next k') (hget : w.records.get? j.name = some r) :
    Sure j p r := by
  have hout : job.at ≠ .outputs := by
    intro ho
    rw [ho] at hr
    exact absurd hr (by decide)
  unfold stopNrp at h
  split at h
  · rename_i he
    cases h
    obtain ⟨q, hq, hend, -⟩ := hk.record
    obtain rfl : q = r := Option.some.inj (hq.symm.trans hget)
    exact ⟨fun ho => absurd ho hout, fun _ _ => .inr (hend he)⟩
  · cases h
    exact ⟨fun ho => absurd ho hout, nofun⟩

theorem stopNrp_deletes (job : RayJob) (why : String) (k : After) :
    (stopNrp w job why k).deletes = none := by
  unfold stopNrp
  split <;> rfl

theorem Older.over (h : Older c r) (hd : c.at = .done)
    (hl : r.job.at.late = true → r.job.ended = true ∨ r.job.stopped.isSome = true) :
    r.job.at = .done ∧ (r.job.ended = true ∨ r.job.stopped.isSome = true) := by
  have hdone : r.job.at = .done := eq_done_of_rank (hd ▸ h.rank)
  exact ⟨hdone, hl (by rw [hdone]; rfl)⟩

/-- A record that `advance_nrp` deletes. -/
theorem AtDone.deletable {job : RayJob} {since now : ℤ} {k : After}
    (h : AtDone g job since now k pc) (hat : job.at = .done) (ho : Older job r)
    (hr : w.records.get? job.name = some r)
    (hl : r.job.at.late = true → r.job.ended = true ∨ r.job.stopped.isSome = true)
    (hs : job.output = .failed → jobRecordS ≤ now - since →
      ∃ t, r.doneAt = some t ∧ jobRecordS ≤ w.now - t) :
    ∀ name k', pc.deletes = some (name, k') →
      ∃ r, w.records.get? name = some r ∧ Deletable w.now r k'.cause := by
  obtain ⟨hdone, hover⟩ := ho.over hat hl
  intro name k' hd
  cases h with
  | clean => cases hd
  | record hfail hrec =>
    cases hd
    refine ⟨r, hr, hover, ?_⟩
    by_cases hf : job.output = .failed
    · refine .inr ⟨(ho.failed hf).1, ?_⟩
      cases k with
      | about => exact hdone
      | submission | pass => exact hs hf hrec
    · exact .inl (ho.returned hat hf)

theorem Advances.judges {job : RayJob} {k : After} (h : Advances w g job k pc)
    (hs : Shared w g') (hk : Known w job) (ho : ∃ r, w.records.get? job.name = some r ∧ Older job r) :
    (∀ j p next k', pc = .patch j p next k' → ∀ r, w.records.get? j.name = some r → Sure j p r) ∧
    ∀ name k', pc.deletes = some (name, k') →
      ∃ r, w.records.get? name = some r ∧ Deletable w.now r k'.cause := by
  obtain ⟨r, hr, hold⟩ := ho
  cases h with
  | inputs | idle | outputs => exact ⟨by simp, by simp [Pc.deletes]⟩
  | placing h =>
    refine ⟨?_, by simp [Pc.deletes]⟩
    rintro _ _ _ _ ⟨⟩ q hq
    exact ⟨fun ho => by simp [h] at ho, by rintro ⟨⟩⟩
  | ended h =>
    refine ⟨?_, by simp [Pc.deletes]⟩
    rintro _ _ _ _ ⟨⟩ q hq
    exact ⟨fun ho => by simp [h] at ho, by rintro ⟨⟩⟩
  | late h =>
    refine ⟨fun j p next k' hp q hq => ?_, by simp [stopNrp_deletes]⟩
    exact stopNrp_sure hk (by simp [h, Stage.rank]) hp hq
  | done h _ hd =>
    refine ⟨fun j p next k' hp => ?_, hd.deletable h hold hr (hs.late _ r hr) fun _ hrec => ?_⟩
    · subst hp
      cases hd
    · obtain ⟨t, u, ht, hu, hle⟩ := hold.since h
      rw [hu, Option.getD_some] at hrec
      exact ⟨t, ht, by omega⟩

theorem Judges.stopNrp {job : RayJob} (hk : Known w job) (hr : job.at.rank ≤ 1) (why : String)
    {k : After} (hp : ∀ p, k = .pass p → p.now ≤ w.now)
    (ho : ∀ c ∈ (RayNrp.stopNrp w job why k).copies,
      ∃ r, w.records.get? c.name = some r ∧ Older c r) :
    Judges w g (RayNrp.stopNrp w job why k) none := by
  have hafter := stopNrp_after (w := w) job why k
  refine .unanswered ho (fun j p next k' h q hq => stopNrp_sure hk hr h hq)
    (by simp [stopNrp_deletes]) (fun p h => hp p ?_) (fun now taken h => ?_) fun rest h => ?_
  · exact Option.some.inj (hafter.symm.trans h)
  · rw [h] at hafter
    cases hafter
  · rw [h] at hafter
    cases hafter

/-- The next job of a pass, or the bucket: what is taken there is neither waited for, nor
in the listing, nor, by the condition, of a RayJob or a submission the pass does not see. -/
theorem Returns.judges {p : Pass} (cleaned : List String)
    (h : Returns w { g with cleaned := cleaned } p pc) (hs : Shared w g) (hp : p.now ≤ w.now)
    (hk : ∀ c ∈ p.rest, Known w c)
    (ho : ∀ c ∈ p.rest, ∃ r, w.records.get? c.name = some r ∧ Older c r)
    (hyoung : ∀ now taken, pc = .jobs now taken → ∀ e ∈ w.bucket,
      ((w.live e.1).isSome = true ∨ e.1 ∈ g.submitting.map Prod.snd) →
        e.1 ∈ taken ∨ now - e.2 < 2 * startTimeoutS) :
    Judges w { g with cleaned := cleaned } pc none := by
  have hcopies := h.copies
  cases h with
  | next job rest hsuf _ ha =>
    have hmem : job ∈ p.rest := hsuf.subset (List.mem_cons_self ..)
    obtain ⟨hsure, hdel⟩ := ha.judges hs (hk job hmem) (ho job hmem)
    have hafter := ha.after
    refine .unanswered (fun c hc => ho c (hcopies c hc)) hsure hdel (fun q hq => ?_) ?_ ?_
    · obtain rfl : (⟨p.now, p.listed, rest⟩ : Pass) = q := by simpa [hafter] using hq
      exact hp
    · rintro now taken rfl
      cases hafter
    · rintro rest rfl
      cases hafter
  | jobs =>
    refine .unanswered (fun c hc => ho c (hcopies c hc)) (by simp) (by simp [Pc.deletes])
      (by simp [Pc.after]) ?_ (by simp)
    rintro now taken' ⟨⟩
    refine ⟨hp, fun e he hnot hage => ?_⟩
    have hseen : ¬((w.live e.1).isSome = true ∨ e.1 ∈ g.submitting.map Prod.snd) := by
      intro hseen
      rcases hyoung _ _ rfl e he hseen with hin | hlt
      · exact hnot hin
      · omega
    simp only [not_or, Bool.not_eq_true, Option.isSome_eq_false_iff, Option.isNone_iff_eq_none] at hseen
    refine ⟨⟨hseen.1, fun x hx heq => hseen.2 (heq ▸ List.mem_map_of_mem hx), fun x hx heq => ?_⟩,
      hs.bucket e he⟩
    refine hnot (List.mem_append_right _ ?_)
    rw [← heq]
    exact List.mem_map_of_mem (f := fun x : String × String × ℤ => x.2.1) hx

/-- A user's DELETE finds a job that is done, or, by the condition, one that has ended and has
nothing to lose. -/
theorem Deletable.byUser {job : RayJob} (ho : Older job r)
    (hl : r.job.at.late = true → r.job.ended = true ∨ r.job.stopped.isSome = true)
    (hend : job.ended = true → r.job.ended = true) (hs : job.stage.getD .done = .done)
    (hm : job.stage.isSome = true ∨ (job.ended = true ∧ Returned r)) (now : ℤ) :
    Deletable now r .byUser := by
  cases hst : job.stage with
  | none =>
    obtain ⟨he, hret⟩ : job.ended = true ∧ Returned r := by simpa [hst] using hm
    exact ⟨.inl (hend he), .inl hret⟩
  | some stage =>
    have hat : job.at = .done := by simpa [RayJob.at, hst] using hs
    obtain ⟨hdone, hover⟩ := ho.over hat hl
    refine ⟨hover, ?_⟩
    by_cases hf : job.output = .failed
    · exact .inr ⟨(ho.failed hf).1, hdone⟩
    · exact .inl (ho.returned hat hf)

theorem Leads.judges (h : Leads w g pc a g' pc') (hs : Shared w g) (he : Each w g pc (some a))
    (hj : Judges w g pc (some a)) (hg : ∀ name, Gone w g name → Gone w g' name)
    (hmark : ∀ user jobId jobs job, pc = .find user jobId .delete → a = .listing jobs →
      (jobs.find? fun j => j.jobId = jobId) = some job → job.stage.isSome = true ∨
        (job.ended = true ∧ ∀ r ∈ w.records.get? job.name, Returned r))
    (hyoung : ∀ now taken, pc' = .jobs now taken → ∀ e ∈ w.bucket,
      ((w.live e.1).isSome = true ∨ e.1 ∈ g.submitting.map Prod.snd) →
        e.1 ∈ taken ∨ now - e.2 < 2 * startTimeoutS) : Judges w g' pc' none := by
  have hold : ∀ c ∈ pc'.copies, ∃ r, w.records.get? c.name = some r ∧ Older c r := by
    intro c hc
    rcases h.copies c hc with hc | hc
    · exact hj.older c hc
    · exact hj.brings c hc
  have hformed := he.formed
  cases h with
  | package | body | before | gpus | post | copy | usage =>
    exact .unanswered hold (by simp) (by simp [Pc.deletes]) (by simp [Pc.after]) (by simp) (by simp)
  | unsuspend job now k =>
    exact .unanswered hold (by simp) (by simp [Pc.deletes]) (fun p hp => hj.pass p hp) (by simp)
      (by simp)
  | outputs job p since now k =>
    exact .unanswered hold (by simp) (by simp [Pc.deletes]) (fun p hp => hj.pass p hp) (by simp)
      (by simp)
  | created _ _ cluster job hc _ ha =>
    have hboth : Known w job ∧ ∃ r, w.records.get? job.name = some r ∧ Older job r := by
      cases hc with
      | post =>
        exact ⟨he.brings _ (List.mem_singleton_self _), hj.brings _ (List.mem_singleton_self _)⟩
      | copy =>
        exact ⟨he.copies _ (List.mem_singleton_self _), hj.older _ (List.mem_singleton_self _)⟩
    obtain ⟨hsure, hdel⟩ := ha.judges hs hboth.1 hboth.2
    have hafter := ha.after
    refine .unanswered hold hsure hdel (by simp [hafter]) ?_ ?_
    · rintro now taken rfl
      cases hafter
    · rintro rest rfl
      cases hafter
  | deletes user jobId jobs job hf hst =>
    have hmem := List.mem_of_find?_eq_some hf
    obtain ⟨r, hr, ho⟩ := hj.brings job hmem
    obtain ⟨q, hq, hend, -⟩ := (he.brings job hmem).record
    obtain rfl : q = r := Option.some.inj (hq.symm.trans hr)
    refine .unanswered hold (by simp) ?_ (by simp [Pc.after]) (by simp) (by simp)
    rintro name k ⟨⟩
    have hm : job.stage.isSome = true ∨ (job.ended = true ∧ Returned q) :=
      (hmark user jobId jobs job rfl rfl hf).imp_right fun hover => ⟨hover.1, hover.2 q hr⟩
    exact ⟨q, hr, .byUser ho (hs.late _ q hr) hend hst hm w.now⟩
  | resume job now k =>
    refine .unanswered hold ?_ (by simp [Pc.deletes]) (fun p hp => hj.pass p hp) (by simp) (by simp)
    rintro _ _ _ _ ⟨⟩ r hr
    exact ⟨fun ho => by simp [show job.at = .inputs from hformed] at ho, by rintro ⟨⟩⟩
  | output job now k state =>
    refine .unanswered hold ?_ (by simp [Pc.deletes]) (fun p hp => hj.pass p hp) (by simp) (by simp)
    rintro _ _ _ _ ⟨⟩ r hr
    refine ⟨fun _ _ hno => ?_, by rintro ⟨⟩⟩
    have hok : state = some .succeeded := by
      by_contra hne
      simp [outputPatch, hne] at hno
    obtain ⟨q, hq, hback⟩ := hj.back job now k rfl (by rw [hok])
    obtain rfl : q = r := Option.some.inj (hq.symm.trans hr)
    exact hback
  | stop job p why k =>
    refine .unanswered hold ?_ (by simp [Pc.deletes]) (fun p hp => hj.pass p hp) (by simp) (by simp)
    rintro _ _ _ _ ⟨⟩ r hr
    refine ⟨fun ho => ?_, fun _ => hj.suspended job p why k rfl rfl r hr⟩
    cases hformed with
    | suspend hrank =>
      rw [ho] at hrank
      exact absurd hrank (by decide)
  | uncopied cluster job d more =>
    exact .stopNrp (he.copies job (List.mem_singleton_self _))
      (show Fresh job from hformed).rank _ (by simp) hold
  | stops user jobId jobs job hm hnot hst =>
    refine .stopNrp (he.brings job hm) (rank_le_of_not_late ?_) _ (by simp) hold
    by_contra hlate
    have hover := (he.brings job hm).late (by simpa using hlate)
    simp [hnot, hst] at hover
  | uninput job now k =>
    have hat : job.at = .inputs := hformed
    exact .stopNrp (he.copies job (List.mem_cons_self ..)) (by simp [hat, Stage.rank]) _
      (fun p hp => hj.pass p (by rw [← hp]; rfl)) hold
  | idle job k =>
    have hat : job.at = .running := hformed
    exact .stopNrp (he.copies job (List.mem_cons_self ..)) (by simp [hat, Stage.rank]) _
      (fun p hp => hj.pass p (by rw [← hp]; rfl)) hold
  | done job p stage since now k hst _ ha =>
    have hpatch : Patches job p (.advance stage since now) := hformed
    obtain ⟨hat, ho | rfl⟩ := hpatch.advance
    · exact absurd ho hst
    obtain ⟨r, hr, hold'⟩ := hj.brings (p.apply job) (List.mem_singleton_self _)
    obtain ⟨q, hq, hjob⟩ := hj.older job (List.mem_cons_self ..)
    have hafter := ha.after
    refine .unanswered hold (fun j p' next k' hp => ?_) (ha.deletable hat hold' hr (hs.late _ r hr)
      fun hf hrec => ?_) (fun p' hp => hj.pass p' (hafter.symm.trans hp)) ?_ ?_
    · subst hp
      cases ha
    · -- A job that ended asked for no output, and one whose outputs failed is done just now.
      cases hpatch with
      | ended h => exact absurd hf (hjob.not_failed (by simp [h]))
      | output =>
        simp only [jobRecordS] at hrec
        omega
    · rintro now' taken rfl
      cases hafter
    · rintro rest rfl
      cases hafter
  | record job since now k hrec =>
    obtain ⟨hat, hout⟩ : job.at = .done ∧ job.output ≠ .failed := hformed
    obtain ⟨r, hr, ho⟩ := hj.older job (List.mem_cons_self ..)
    refine .unanswered hold (by simp) ?_ (fun p hp => hj.pass p hp) (by simp) (by simp)
    rintro name k' ⟨⟩
    exact ⟨r, hr, (ho.over hat (hs.late _ r hr)).2, .inl (ho.returned hat hout)⟩
  | deleteIn name k =>
    exact .unanswered hold (by simp) (fun n k' hd => hj.deletes n k' hd)
      (fun p hp => hj.pass p hp) (by simp) (by simp)
  | deleteOut name k =>
    exact .unanswered hold (by simp) (fun n k' hd => hj.deletes n k' hd)
      (fun p hp => hj.pass p hp) (by simp) (by simp)
  | deleteCode name k =>
    exact .unanswered hold (by simp) (fun n k' hd => hj.deletes n k' hd)
      (fun p hp => hj.pass p hp) (by simp) (by simp)
  | pass jobs _ _ hr =>
    exact hr.judges g.cleaned hs le_rfl he.copies hj.older hyoung
  | orphans now taken written rest hrest =>
    refine .unanswered hold (by simp) (by simp [Pc.deletes]) (by simp [Pc.after]) (by simp) ?_
    rintro _ ⟨⟩ name hm
    rw [← hrest, RayNrp.orphans, List.mem_map] at hm
    obtain ⟨e, hm, rfl⟩ := hm
    rw [List.mem_filter, Bool.and_eq_true, decide_eq_true_eq, decide_eq_true_eq] at hm
    exact hg _ ((hj.jobs now taken rfl).2 e hm.1 hm.2.1 hm.2.2)
  | sweep name rest =>
    refine .unanswered hold (by simp) (by simp [Pc.deletes]) (by simp [Pc.after]) (by simp) ?_
    rintro _ ⟨⟩ n hm
    exact hg n (hj.sweep _ rfl n (List.mem_cons_of_mem _ hm))
  | returns _ _ p hk _ cleaned hgeq _ hr =>
    subst hgeq
    exact hr.judges cleaned hs (hj.pass p hk) (fun c hc => he.copies c (Pc.copies_of_after hk c hc))
      (fun c hc => hj.older c (Pc.copies_of_after hk c hc)) hyoung

/-- The answer to a coroutine's await is something to judge by. -/
theorem Judges.replied (hj : Judges w g pc none) (hj' : Judges w' g pc none) (hs : Shared w g)
    (hst : Stored w) (he : Each w g pc none) (hr : Replies w pc w' a) (hen : Ensues w w')
    (hg : ∀ name, Gone w g name → Gone w' g name) : Judges w' g pc (some a) := by
  have hlist {jobs : List RayJob} (ha : a = .listing jobs) :
      ∀ c ∈ jobs, ∃ r, w'.records.get? c.name = some r ∧ Older c r := by
    intro c hc
    obtain ⟨name, r, hget, -, rfl⟩ := mem_listing (hr.listing jobs ha c hc)
    obtain ⟨r', hr', hf⟩ := hen name r hget
    refine ⟨r', ?_, (hst.held name r hget).older.follows (hs.late name r hget) hf⟩
    rw [(hs.records name r hget).1]
    exact hr'
  have hmade {made : RayJob} (ha : a = .created made) :
      ∃ r, w'.records.get? made.name = some r ∧ Older made r := by
    obtain ⟨cluster, job, copies, rfl, rfl, rfl⟩ := hr.created made ha
    refine ⟨_, ?_, ((show Fresh job from he.formed).held w.now).older⟩
    rw [World.post, get?_put]
    exact if_pos rfl
  refine ⟨hj'.older, fun c hc => ?_, ?_, hj'.sure, ?_, hj'.deletes, hj'.pass, ?_, hj'.sweep⟩
  · unfold Pc.brings at hc
    split at hc
    · rename_i job p stage since now k ha
      obtain rfl := Option.some.inj ha
      obtain rfl : c = p.apply job := List.mem_singleton.mp hc
      obtain ⟨r, hl, rfl⟩ := hr.patched job p _ k rfl rfl
      have hget := (World.live_eq hl).1
      obtain ⟨q, hq, ho⟩ := hj.older job (List.mem_cons_self ..)
      obtain rfl : r = q := Option.some.inj (hget.symm.trans hq)
      refine ⟨r.patch p, ?_, Patches.older he.formed ho (hj.sure job p _ k rfl r hget)⟩
      rw [get?_put]
      exact if_pos rfl
    · rename_i ha
      exact hlist (Option.some.inj ha) c hc
    · rename_i ha
      rw [List.mem_singleton.mp hc]
      exact hmade (Option.some.inj ha)
    · cases hc
  · intro job now k hp ha
    have hcopy := hr.copied job .out now k _ hp (Option.some.inj ha)
    obtain ⟨r, hget, hback⟩ := hst.back job.name hcopy.symm
    obtain ⟨r', hr', hf⟩ := hen _ r hget
    exact ⟨r', hr', hf.back hback⟩
  · intro job p why k hp ha r' hr' _
    obtain ⟨r, hl, rfl⟩ := hr.patched job p _ k hp (Option.some.inj ha)
    subst hp
    have hpatch : Patches job p (.stop why) := he.formed
    rw [get?_put, if_pos rfl] at hr'
    cases hr'
    cases hpatch
    exact .inl rfl
  · intro now taken hp
    obtain ⟨hle, hall⟩ := hj.jobs now taken hp
    refine ⟨(hj'.jobs now taken hp).1, fun e hm hnot hage => ?_⟩
    cases a with
    | newest written =>
      have hw := hr.newest written rfl
      subst hw
      exact hg _ (hall e hm hnot hage)
    | _ => exact (hj'.jobs now taken hp).2 e hm hnot hage

/-- What holds in every state of a run that meets the condition. -/
structure OutputsInv (s : St) : Prop where
  stages : StagesInv s
  judges : Holds (fun w _ => Stored w) Judges s

theorem outputsInv_step (s : St) (act : Act) (s' : St) (h : OutputsInv s) (hc : Careful s act)
    (hs : program.step s act = some s') : OutputsInv s' := by
  refine ⟨stagesInv_step s act s' h.stages hc.1.current hs, ?_⟩
  refine Holds.step (C := fun s act => StagesInv s ∧ Careful s act) ?start ?serve ?resume ?env
    s act s' h.judges ⟨h.stages, hc⟩ hs
  case start =>
    intro s i r hh hC hr
    obtain ⟨pc, hn, hafter, -, -, hsub, hwait, hdrawn, hpc⟩ := start_cases (w := s.world) hr
    have hgone (name : String) (h : Gone s.world s.mem name) : Gone s.world r.mem name :=
      ⟨⟨h.1.live, hsub ▸ h.1.submitting, hwait ▸ h.1.waiting⟩, hdrawn ▸ h.2⟩
    refine ⟨hh.shared, fun x hx => ?_, fun t x a ht hx => ?_⟩
    · obtain rfl : x = pc := Option.some.inj (hx.symm.trans hn)
      rcases hpc with ⟨user, key, request, rfl⟩ | ⟨user, jobId, about, rfl⟩ | rfl
      all_goals refine .unanswered ?_ ?_ ?_ ?_ ?_ ?_
      all_goals simp [Pc.copies, Pc.deletes, Pc.after]
    · exact hx.ensues hC.1.copies.shared (.of_eq rfl) le_rfl (fun e he => .inl he) hgone
  case serve =>
    intro s t c pc w a hh hC ht hv
    have hshared := hC.1.copies.shared
    have heach := hC.1.copies.each t _ ht
    obtain ⟨hw, hr⟩ := serve_writes hv
    obtain ⟨hen, hst⟩ := serve_ensues hv hh.shared heach (hh.each t _ ht) (by
      rintro job p next k r rfl hl hok stage hs
      exact hC.2.1 ⟨job, p, r⟩ (by simp [patched, ht, hok, hl]) stage hs)
    have hgone (name : String) (h : Gone s.world s.mem name) : Gone w s.mem name :=
      h.writes hw heach
    have hothers {x : Pc} {b : Option Answer} (hx : Judges s.world s.mem x b) :
        Judges w s.mem x b :=
      hx.ensues hshared hen hw.bucket.1.ge hw.bucket.2 hgone
    exact ⟨hst, (hh.each t _ ht).replied (hothers (hh.each t _ ht)) hshared hh.shared heach hr hen
      hgone, fun _ _ _ _ _ hx => hothers hx⟩
  case resume =>
    intro s t pc a r hh hC ht hr
    have hshared := hC.1.copies.shared
    have hres := resume_resumes hr
    refine ⟨hh.shared, fun x hx => ?_, fun j x b _ _ hx => ?_⟩
    · refine (hres.next x hx).judges hshared (hC.1.copies.each t _ ht) (hh.each t _ ht)
        (fun name h => h.resumes hres) ?_ ?_
      · rintro user jobId jobs job rfl rfl hf
        exact hC.2.2.1 job (by simp [deleting, ht, hf])
      · rintro now taken rfl
        exact hC.2.2.2 (now, taken) (by
          have hnext : (RayNrp.resume s.world s.mem pc a).bind Ran.next = some (.jobs now taken) := by
            rw [show RayNrp.resume s.world s.mem pc a = some r from hr]
            exact hx
          simp [sweeping, ht, hnext])
    · exact hx.ensues hshared (.of_eq rfl) le_rfl (fun e he => .inl he) fun name h => h.resumes hres
  case env =>
    intro s e w g hh hC he
    obtain ⟨rfl, hhap⟩ := env_happens he
    obtain ⟨hen, hst⟩ := hhap.ensues hh.shared hC.1.copies.shared
    exact ⟨hst, fun t x b ht hx => hx.ensues hC.1.copies.shared hen hhap.bucket.1 hhap.bucket.2
      fun name h => h.happens hhap⟩

theorem Old.held (o : Old) : Held o.record where
  held hl := (o.ended (of_decide_eq_true hl)).2
  failed := o.failed
  wrote := o.asked
  done := o.returned
  since := o.since

theorem Old.mem_copies {o : Old} {e : (String × Direction) × CopyState} (h : e ∈ o.copies) :
    e.1.1 = o.name ∧ (e.1.2 = .out → o.out = some e.2) := by
  simp only [Old.copies, List.mem_append, Option.mem_toList, Option.map_eq_some_iff] at h
  rcases h with ⟨st, -, rfl⟩ | ⟨st, hst, rfl⟩
  · exact ⟨rfl, nofun⟩
  · exact ⟨rfl, fun _ => hst⟩

theorem stored_initial (st : Standing) : Stored (initial st).world := by
  have hnames : (((initial st).world.records).map Prod.fst).Nodup := by
    simpa [initial, Function.comp_def] using st.names
  have hcopy {key : String × Direction} {c : CopyState}
      (h : (initial st).world.copies.get? key = some c) :
      ∃ o ∈ st.jobs, o.name = key.1 ∧ (key.2 = .out → o.out = some c) ∧
        (initial st).world.records.get? key.1 = some o.record := by
    obtain ⟨o, ho, hmem⟩ := List.mem_flatMap.mp (Dict.mem_of_get? h)
    obtain ⟨hname, hout⟩ := o.mem_copies hmem
    refine ⟨o, ho, hname.symm, hout, Dict.get?_of_mem hnames ?_⟩
    rw [hname]
    exact List.mem_map_of_mem (f := fun o : Old => (o.name, o.record)) ho
  refine ⟨fun n r hr => ?_, (stagesInv_initial st).stopped, fun n hc => ?_, fun key c hc => ?_⟩
  · obtain ⟨o, -, -, rfl⟩ := old_of_get? hr
    exact o.held
  · obtain ⟨o, -, -, hout, hr⟩ := hcopy hc
    exact ⟨o.record, hr, o.back (hout rfl)⟩
  · obtain ⟨o, -, -, -, hr⟩ := hcopy hc
    exact ⟨o.record, hr⟩

theorem outputsInv_initial (st : Standing) : OutputsInv (initial st) where
  stages := stagesInv_initial st
  judges := ⟨stored_initial st, by simp [initial, State.at]⟩

/-- The call of `delete_prefix` that a step makes is what its coroutine then awaits. -/
theorem keepsCode_step {s s' : St} {act : Act} (h : OutputsInv s')
    (hs : program.step s act = some s') : KeepsCode s act s' := by
  intro name cause hm
  rcases Program.mem_emits hm with ⟨i, r, rfl, hr, he⟩ | ⟨t, pc, a, r, rfl, ht, hr, he⟩
  · obtain ⟨_, -, -, -, hnil, -⟩ := start_cases (w := s.world) hr
    simp [hnil] at he
  obtain ⟨pc', a', r', ht', hr', rfl⟩ := Program.step_resume hs
  obtain ⟨rfl, rfl⟩ : pc = pc' ∧ a = a' := by simpa [ht] using ht'
  obtain rfl : r = r' := Option.some.inj (hr.symm.trans hr')
  have hat {x : Pc} (hx : r.next = some x) :
      State.at (⟨s.world, r.mem, s.threads.set t (suspend r.next)⟩ : St) t = some ⟨x, none⟩ := by
    rw [at_set s _ _ t t _ (by simp [ht])]
    simp [suspend, hx]
  rcases (resume_resumes hr).deletes name cause he with
    ⟨job, since, now, k, hn, rfl, rfl⟩ | ⟨k, hn, rfl⟩ | ⟨rest, hn, rfl⟩
  · -- A job that is done: its copy is one of a job that is.
    obtain ⟨q, hq, ho⟩ := (h.judges.each t _ (hat hn)).older job (List.mem_cons_self ..)
    obtain ⟨hdone, hout⟩ : job.at = .done ∧ job.output ≠ .failed :=
      (h.stages.copies.each t _ (hat hn)).formed
    exact ⟨q, hq, (ho.over hdone (h.stages.copies.shared.late _ q hq)).2,
      .inl (ho.returned hdone hout)⟩
  · have hdel := (h.judges.each t _ (hat hn)).deletes name k rfl
    cases k <;> exact hdel
  · exact ((h.judges.each t _ (hat hn)).sweep _ rfl name (List.mem_cons_self ..)).1

/-- A RayJob from before its progress was kept, which runs. -/
def unmarked : Standing where
  now := 0
  jobs := [{
    record := ⟨⟨"ray-job-0", ownerKey hubUser.cluster hubUser.owner, "a", 0, none, none, .no, none,
      false, ⟨.running, .running, some 0, "c"⟩⟩, true, false, none, false⟩
    into := none
    out := none
    ran := fun _ => rfl
    ended := by decide
    stopped := by decide
    asked := nofun
    failed := nofun
    returned := nofun
    since := nofun
    back := nofun }]
  bucket := []
  names := List.nodup_singleton _

/-- Its user's DELETE, up to the last copying Job. -/
def unmarkedRun : List Act :=
  .call (.about hubUser "a" .delete) :: answers 0 [.ok, .ok, .ok] ++ [.serve 0 .ok]

/-- A stopped RayJob whose outputs did not come back. -/
def stopped : Standing where
  now := 0
  jobs := [{
    record := ⟨⟨"ray-job-1", ownerKey hubUser.cluster hubUser.owner, "b", 0, some .done, some 0,
      .failed, some stoppedByUser, true, ⟨.stopped, .complete, some 0, "c"⟩⟩, true, false, some 0,
      false⟩
    into := none
    out := some .failed
    ran := fun _ => rfl
    ended := by decide
    stopped := by decide
    asked := nofun
    failed := fun _ => rfl
    returned := fun _ => .inr rfl
    since := fun _ => ⟨0, 0, rfl, rfl, le_rfl⟩
    back := nofun }]
  bucket := [("ray-job-1", 0)]
  names := List.nodup_singleton _

/-- A job with outputs runs and ends, and two passes bring its outputs back. -/
def returnedRun : List Act :=
  submitting 0 "k" ⟨"a", false, true⟩ ++ answers 0 [.ok] ++
    [.env (.report (hubJob "k") ⟨.running, .running, some 0, "c"⟩), .env (.write (hubJob "k")),
      .env (.report (hubJob "k") ⟨.succeeded, .complete, some 0, "c"⟩), .call .reap] ++
    answers 1 [.ok, .ok, .ok, .ok, .ok, .ok] ++
    .env (.copyEnds (hubJob "k") .out true) :: .call .reap :: answers 2 [.ok, .ok, .ok] ++
    [.serve 2 .ok]

end PurdueAF.RayNrp
