import PurdueAF.RayNrpSteps

/-!
# The copies that the coroutines decide by

A coroutine decides about a RayJob from a copy of it that may be old. Whatever the order of
steps, the copy is of a RayJob that was there, which has ended and was stopped if the copy
says so; every PATCH is one of five kinds, each for a stage of the copy; and a submission's
name is its own until its RayJob is created.
-/
namespace PurdueAF.RayNrp
open Ray RayNaming Coroutine

variable {w w' : World} {g g' : Gateway} {pc pc' : Pc} {a : Answer}

/-- A name that waits for the user's submission, or that one is under way for. -/
def Uses (g : Gateway) (cluster name : String) : Prop :=
  (∃ since, (cluster, name, since) ∈ g.waiting) ∨ (cluster, name) ∈ g.submitting

/-- The name of a submission whose RayJob is not created yet. -/
def Pc.claims : Pc → Option Answer → Option (String × String)
  | .package cluster name _, _ => some (cluster, name)
  | .body user name _, _ | .before user name _, _ | .gpus user name _, _ =>
    some (user.cluster, name)
  | .post cluster job _, none => some (cluster, job.name)
  | _, _ => none

/-- Whether the submission took its name off `nrp_waiting`. -/
def Pc.popped : Pc → Bool
  | .before _ _ _ | .gpus _ _ _ | .post _ _ _ => true
  | _ => false

theorem Pc.holds_of_claims {reply : Option Answer} {cluster name : String}
    (h : pc.claims reply = some (cluster, name)) : pc.holds = some cluster := by
  cases pc with
  | post c job copies =>
    cases reply with
    | none =>
      cases h
      rfl
    | some a => cases h
  | package | body | before | gpus =>
    cases h
    rfl
  | _ => cases h

structure Named (w : World) (g : Gateway) : Prop where
  records : ∀ name r, w.records.get? name = some r → r.job.name = name ∧ name ∈ g.drawn
  bucket : ∀ e ∈ w.bucket, e.1 ∈ g.drawn
  drawn : ∀ cluster name, Uses g cluster name → name ∈ g.drawn
  one : ∀ cluster cluster' name, Uses g cluster name → Uses g cluster' name → cluster = cluster'
  unposted : ∀ e ∈ g.waiting, w.records.get? e.2.1 = none

structure Claims (w : World) (g : Gateway) (cluster name : String) (popped : Bool) : Prop where
  under : (cluster, name) ∈ g.submitting
  unposted : w.records.get? name = none
  popped : popped = true → ∀ e ∈ g.waiting, e.2.1 ≠ name

def Stage.late (s : Stage) : Bool := decide (2 ≤ s.rank)

/-- A RayJob of the copy's name is or was there, and is at least as far as the copy. -/
structure Known (w : World) (c : RayJob) : Prop where
  late : c.at.late = true → c.ended = true ∨ c.stopped.isSome = true
  record : ∃ r, w.records.get? c.name = some r ∧ (c.ended = true → r.job.ended = true) ∧
    (c.stopped.isSome = true → r.job.stopped.isSome = true)

def After.copies : After → List RayJob
  | .pass p => p.rest
  | _ => []

def Pc.copies : Pc → List RayJob
  | .copied job _ _ k | .idle job k | .patch job _ _ k | .clean job _ _ k => job :: k.copies
  | .copy _ job _ _ => [job]
  | .unsuspend _ k | .delete _ k | .deleteCopy _ _ k | .deleteCode _ k => k.copies
  | .usage listed => listed
  | _ => []

/-- The copies that an answer brings: what `advance_nrp` goes on with is patched too. -/
def Pc.brings : Pc → Option Answer → List RayJob
  | .patch job p (.advance _ _ _) _, some .done => [p.apply job]
  | _, some (.listing listed) => listed
  | _, some (.created job) => [job]
  | _, _ => []

/-- The five kinds of PATCH, by the copy they are decided from. -/
inductive Patches (job : RayJob) : Patch → Next → Prop
  | resume (h : job.at.rank = 0) (now : ℤ) : Patches job (resumePatch now) .finished
  | ended (h : job.at = .running) (he : job.ended = true) (after : Stage)
      (ha : after = if job.output = .asked then .outputs else .done) (since now now' : ℤ) :
      Patches job (stagePatch after now) (.advance after since now')
  | output (h : job.at = .outputs) (copied : Option CopyState) (now now' : ℤ) :
      Patches job (outputPatch copied now) (.advance .done now' now')
  | suspend (h : job.at.rank ≤ 1) (why : String) :
      Patches job { suspend := some true } (.stop why)
  | stop (h : job.at.rank ≤ 1) (why : String) (now : ℤ) :
      Patches job (stopPatch job why now) .finished

/-- A RayJob as its submission makes it. -/
structure Fresh (job : RayJob) : Prop where
  stage : job.stage.isSome = true
  rank : job.at.rank ≤ 1
  output : job.output ≠ .failed
  ended : job.ended = false
  stopped : job.stopped = none

/-- What a copy is when a coroutine holds it at an await. -/
def Formed : Pc → Prop
  | .post _ job _ | .copy _ job _ _ => Fresh job
  | .copied job .into _ _ => job.at = .inputs
  | .copied job .out _ _ => job.at = .outputs
  | .idle job _ => job.at = .running
  | .patch job p next _ => Patches job p next
  | .clean job _ _ _ => job.at = .done ∧ job.output ≠ .failed
  | _ => True

structure Shared (w : World) (g : Gateway) : Prop extends Named w g where
  late : ∀ name r, w.records.get? name = some r → r.job.at.late = true →
    r.job.ended = true ∨ r.job.stopped.isSome = true

structure Each (w : World) (g : Gateway) (pc : Pc) (reply : Option Answer) : Prop where
  claims : ∀ cluster name, pc.claims reply = some (cluster, name) →
    Claims w g cluster name pc.popped
  copies : ∀ c ∈ pc.copies, Known w c
  brings : ∀ c ∈ pc.brings reply, Known w c
  made : ∀ job, reply = some (.created job) → Fresh job
  formed : Formed pc

/-- Every RayJob stays, ended and stopped if it was. -/
def Evolves (w w' : World) : Prop :=
  ∀ name r, w.records.get? name = some r → ∃ r', w'.records.get? name = some r' ∧
    (r.job.ended = true → r'.job.ended = true) ∧
    (r.job.stopped.isSome = true → r'.job.stopped.isSome = true)

theorem Evolves.of_eq (h : w'.records = w.records) : Evolves w w' :=
  fun _ r hr => ⟨r, h ▸ hr, id, id⟩

theorem get?_put (w : World) (name n : String) (r : Record) :
    (w.put name r).records.get? n = if n = name then some r else w.records.get? n :=
  Dict.get?_set _ _ _ _

theorem Evolves.put {name : String} {r r' : Record} (hr : w.records.get? name = some r)
    (he : r.job.ended = true → r'.job.ended = true)
    (hs : r.job.stopped.isSome = true → r'.job.stopped.isSome = true) :
    Evolves w (w.put name r') := by
  intro n q hq
  rw [get?_put]
  by_cases hn : n = name
  · obtain rfl : q = r := by
      rw [hn, hr] at hq
      exact (Option.some.inj hq).symm
    exact ⟨r', by simp [hn], he, hs⟩
  · exact ⟨q, by simpa [hn] using hq, id, id⟩

theorem Known.evolves {c : RayJob} (h : Known w c) (he : Evolves w w') : Known w' c := by
  obtain ⟨r, hr, hend, hstop⟩ := h.record
  obtain ⟨r', hr', hend', hstop'⟩ := he _ r hr
  exact ⟨h.late, r', hr', fun hc => hend' (hend hc), fun hc => hstop' (hstop hc)⟩

@[simp] theorem Patch.apply_ended (p : Patch) (j : RayJob) : (p.apply j).ended = j.ended := rfl

theorem Patch.apply_stopped (p : Patch) (j : RayJob) (h : j.stopped.isSome = true) :
    (p.apply j).stopped.isSome = true := by
  cases hp : p.stopped <;> simp [Patch.apply, hp, h]

theorem Patch.apply_at (p : Patch) (j : RayJob) : (p.apply j).at = p.stage.getD j.at := by
  cases hp : p.stage <;> simp [Patch.apply, RayJob.at, hp]

theorem Writes.evolves (h : Writes w pc w')
    (hp : ∀ cluster job copies, pc = .post cluster job copies → w.records.get? job.name = none) :
    Evolves w w' := by
  cases h with
  | post cluster job copies hl =>
    intro n q hq
    refine ⟨q, ?_, id, id⟩
    rw [World.post, get?_put, if_neg]
    · exact hq
    · rintro rfl
      simp [hp cluster job copies rfl] at hq
  | patch job p next k r hl =>
    exact .put (World.live_eq hl).1 (by simp [Record.patch]) (p.apply_stopped r.job)
  | remove name k r hl => exact .put (World.live_eq hl).1 id id
  | same | write | erase | copies => exact .of_eq rfl

theorem Record.report_eq {r r' : Record} {st : Status} (h : r.report st = some r') :
    r' = { r with job := { r.job with status := st }, ran := r.ran || st.begun } ∧
      r.removed = false ∧
      (r.job.ended = true → st.jobStatus = r.job.status.jobStatus) ∧
      (st.begun = true → r.ran = true ∨ r.job.suspend = false ∧ r.job.ended = false) := by
  unfold Record.report at h
  split_ifs at h with hg
  cases h
  simp only [Bool.or_eq_true, Bool.and_eq_true, Bool.not_eq_true', decide_eq_true_eq, not_or,
    not_and, Bool.not_eq_true] at hg
  obtain ⟨⟨hr, hj⟩, hb⟩ := hg
  refine ⟨rfl, hr, fun he => by simpa using hj he, fun hbeg => ?_⟩
  cases hran : r.ran with
  | true => exact .inl rfl
  | false => exact .inr (hb ⟨hbeg, hran⟩)

theorem Record.report_ended {r r' : Record} {st : Status} (h : r.report st = some r')
    (he : r.job.ended = true) : r'.job.ended = true := by
  obtain ⟨rfl, -, hj, -⟩ := Record.report_eq h
  simpa [RayJob.ended, hj he] using he

theorem copyEnds_records (w : World) (name : String) (d : Direction) (ok : Bool) :
    (w.copyEnds name d ok).records = w.records ∧
        (ok = true → d = .out → w.records.get? name = none) ∨
      ∃ r, w.records.get? name = some r ∧ ok = true ∧ d = .out ∧
        (w.copyEnds name d ok).records = w.records.set name { r with back := true } := by
  unfold World.copyEnds
  dsimp only
  split
  · rename_i r hr
    split
    · rename_i hok
      simp only [Bool.and_eq_true, decide_eq_true_eq] at hok
      exact .inr ⟨r, hr, hok.1, hok.2, rfl⟩
    · rename_i hok
      refine .inl ⟨rfl, fun h hd => absurd ?_ hok⟩
      simp [h, hd]
  · rename_i hr
    exact .inl ⟨rfl, fun _ _ => hr⟩

theorem copyEnds_rest (w : World) (name : String) (d : Direction) (ok : Bool) :
    (w.copyEnds name d ok).now = w.now ∧ (w.copyEnds name d ok).bucket = w.bucket ∧
      (w.copyEnds name d ok).copies =
        w.copies.set (name, d) (if ok then .succeeded else .failed) := by
  unfold World.copyEnds
  dsimp only
  split
  · split <;> exact ⟨rfl, rfl, rfl⟩
  · exact ⟨rfl, rfl, rfl⟩

theorem Happens.evolves (h : Happens w w') : Evolves w w' := by
  cases h with
  | report name r r' st hr hs =>
    refine .put hr (Record.report_ended hs) ?_
    obtain ⟨rfl, -⟩ := Record.report_eq hs
    exact id
  | copyEnds name d ok hc =>
    rcases copyEnds_records w name d ok with ⟨hsame, -⟩ | ⟨r, hr, -, -, hset⟩
    · exact .of_eq hsame
    · have hput : Evolves w (w.put name { r with back := true }) := .put hr id id
      intro n q hq
      rw [hset]
      exact hput n q hq
  | tick | copyGone | write => exact .of_eq rfl

/-- Names are only given up. -/
theorem Named.shrinks (h : Named w g) (hd : g'.drawn = g.drawn)
    (hw : ∀ e ∈ g'.waiting, e ∈ g.waiting) (hs : ∀ e ∈ g'.submitting, e ∈ g.submitting) :
    Named w g' := by
  have hu (c n : String) (hc : Uses g' c n) : Uses g c n := by
    rcases hc with ⟨t, ht⟩ | hc
    · exact .inl ⟨t, hw _ ht⟩
    · exact .inr (hs _ hc)
  refine ⟨?_, ?_, ?_, fun c c' n hc hc' => h.one c c' n (hu c n hc) (hu c' n hc'),
    fun e he => h.unposted e (hw e he)⟩
  · rw [hd]
    exact h.records
  · rw [hd]
    exact h.bucket
  · intro c n hc
    rw [hd]
    exact h.drawn c n (hu c n hc)

/-- The name that a submission enters with, and what the gateway then remembers of it. -/
structure Enters (g : Gateway) (cluster name : String) (g' : Gateway) : Prop where
  free : g.submitting.get? cluster = none
  submitting : g'.submitting = g.submitting.set cluster name
  waiting : ∀ e ∈ g'.waiting, e ∈ g.waiting ∨ e.1 = cluster ∧ e.2.1 = name
  drawn : g'.drawn = g.drawn ∧ Uses g cluster name ∨ g'.drawn = name :: g.drawn ∧ name ∉ g.drawn

theorem mem_waiting_of_waitingName {cluster name : String}
    (h : waitingName w g cluster = some name) : ∃ since, (cluster, name, since) ∈ g.waiting := by
  obtain ⟨⟨n, since⟩, he, hn⟩ := Option.bind_eq_some_iff.mp h
  split_ifs at hn
  cases hn
  exact ⟨since, Dict.mem_of_get? he⟩

theorem Enters.uses {cluster name : String} (h : Enters g cluster name g') {c n : String}
    (hu : Uses g' c n) : Uses g c n ∨ c = cluster ∧ n = name := by
  rcases hu with ⟨t, ht⟩ | hs
  · rcases h.waiting _ ht with hw | hw
    · exact .inl (.inl ⟨t, hw⟩)
    · exact .inr hw
  · rw [h.submitting, Dict.mem_set] at hs
    rcases hs with heq | ⟨hs, -⟩
    · cases heq
      exact .inr ⟨rfl, rfl⟩
    · exact .inl (.inr hs)

theorem Enters.mem_drawn {cluster name : String} (h : Enters g cluster name g') {n : String}
    (hn : n ∈ g.drawn) : n ∈ g'.drawn := by
  rcases h.drawn with ⟨hd, -⟩ | ⟨hd, -⟩
  · rwa [hd]
  · rw [hd]
    exact List.mem_cons_of_mem _ hn

/-- A name that another user's call has is not the one that is entered with. -/
theorem Enters.apart {cluster name : String} (h : Enters g cluster name g') (hn : Named w g)
    {c : String} (hu : Uses g c name) : c = cluster := by
  rcases h.drawn with ⟨-, hown⟩ | ⟨-, hnew⟩
  · exact hn.one c cluster name hu hown
  · exact absurd (hn.drawn c name hu) hnew

theorem Named.enters {cluster name : String} (hn : Named w g) (h : Enters g cluster name g')
    (hr : w.records.get? name = none) : Named w g' := by
  have hmem : name ∈ g'.drawn := by
    rcases h.drawn with ⟨hd, hown⟩ | ⟨hd, -⟩
    · rw [hd]
      exact hn.drawn cluster name hown
    · simp [hd]
  constructor
  · exact fun n r hg => ⟨(hn.records n r hg).1, h.mem_drawn (hn.records n r hg).2⟩
  · exact fun e he => h.mem_drawn (hn.bucket e he)
  · intro c n hu
    rcases h.uses hu with hu | ⟨-, rfl⟩
    · exact h.mem_drawn (hn.drawn c n hu)
    · exact hmem
  · intro c c' n hu hu'
    rcases h.uses hu with hu | ⟨rfl, rfl⟩ <;> rcases h.uses hu' with hu' | ⟨rfl, hname⟩
    · exact hn.one c c' n hu hu'
    · exact h.apart hn (hname ▸ hu)
    · exact (h.apart hn hu').symm
    · rfl
  · intro e he
    rcases h.waiting e he with he | ⟨-, rfl⟩
    · exact hn.unposted e he
    · exact hr

theorem Names.enters {cluster name : String} {g₁ : Gateway} (h : Names w g cluster name g₁)
    (hfree : g.submitting.get? cluster = none) (hw : ∀ e ∈ g'.waiting, e ∈ g₁.waiting ∨
      e.1 = cluster ∧ e.2.1 = name) (hs : g'.submitting = g₁.submitting.set cluster name)
    (hd : g'.drawn = g₁.drawn) :
    Enters g cluster name g' ∧ (Named w g → w.records.get? name = none) := by
  cases h with
  | waits hn =>
    obtain ⟨since, hm⟩ := mem_waiting_of_waitingName hn
    exact ⟨⟨hfree, hs, hw, .inl ⟨hd, .inl ⟨since, hm⟩⟩⟩, fun h => h.unposted _ hm⟩
  | draws hn =>
    refine ⟨⟨hfree, hs, hw, .inr ⟨hd, hn⟩⟩, fun h => ?_⟩
    cases hr : w.records.get? name with
    | none => rfl
    | some r => exact absurd (h.records name r hr).2 hn

theorem Pc.claims_of_after {k : After} {reply : Option Answer} (h : pc.after = some k) :
    pc.claims reply = none := by
  cases pc with
  | lock | package | body | before | gpus | post | copy | find | list | usage | jobs | sweep =>
    cases h
  | _ => rfl

theorem stopNrp_after (job : RayJob) (why : String) (k : After) :
    (stopNrp w job why k).after = some k := by
  unfold stopNrp
  split <;> rfl

theorem AtDone.after {job : RayJob} {since now : ℤ} {k : After} (h : AtDone g job since now k pc) :
    pc.after = some k := by cases h <;> rfl

theorem Advances.after {job : RayJob} {k : After} (h : Advances w g job k pc) :
    pc.after = some k := by
  cases h with
  | late => exact stopNrp_after job _ k
  | done _ _ hd => exact hd.after
  | _ => rfl

theorem Returns.claims {p : Pass} (h : Returns w g p pc) (reply : Option Answer) :
    pc.claims reply = none := by
  cases h with
  | next job rest hs _ ha => exact Pc.claims_of_after ha.after
  | jobs => rfl

/-- A submission keeps the name it entered with, and takes it off `nrp_waiting`. -/
theorem Leads.names (h : Leads w g pc a g' pc') :
    (∃ cluster name, pc'.claims none = some (cluster, name) ∧ pc'.popped = false ∧
      Enters g cluster name g' ∧ (Named w g → w.records.get? name = none)) ∨
    (g'.submitting = g.submitting ∧ g'.drawn = g.drawn ∧ (∀ e ∈ g'.waiting, e ∈ g.waiting) ∧
      ∀ cluster name, pc'.claims none = some (cluster, name) →
        pc.claims (some a) = some (cluster, name) ∧
        (pc.popped = true ∨ pc'.popped = false ∨ g'.waiting = g.waiting.pop cluster)) := by
  have hnone (hs : g'.submitting = g.submitting) (hd : g'.drawn = g.drawn)
      (hw : g'.waiting = g.waiting) (hc : pc'.claims none = none) :
      g'.submitting = g.submitting ∧ g'.drawn = g.drawn ∧ (∀ e ∈ g'.waiting, e ∈ g.waiting) ∧
        ∀ cluster name, pc'.claims none = some (cluster, name) →
          pc.claims (some a) = some (cluster, name) ∧
          (pc.popped = true ∨ pc'.popped = false ∨ g'.waiting = g.waiting.pop cluster) :=
    ⟨hs, hd, fun e he => hw ▸ he, by simp [hc]⟩
  cases h with
  | package user key name put g₁ hfree hn =>
    refine .inl ⟨user.cluster, name, rfl, rfl, hn.enters hfree (fun e he => ?_) rfl rfl⟩
    rcases Dict.mem_set.mp he with rfl | ⟨he, -⟩
    · exact .inr ⟨rfl, rfl⟩
    · exact .inl he
  | body user key name sub g₁ hfree hn =>
    exact .inl ⟨user.cluster, name, rfl, rfl, hn.enters hfree (fun e he => .inl he) rfl rfl⟩
  | before user name sub =>
    refine .inr ⟨rfl, rfl, fun e he => (Dict.mem_pop.mp he).1, fun cluster n hc => ?_⟩
    cases hc
    exact ⟨rfl, .inr (.inr rfl)⟩
  | gpus user name sub a =>
    refine .inr ⟨rfl, rfl, fun e he => he, fun cluster n hc => ?_⟩
    cases hc
    exact ⟨rfl, .inl rfl⟩
  | post user name sub a =>
    refine .inr ⟨rfl, rfl, fun e he => he, fun cluster n hc => ?_⟩
    cases hc
    exact ⟨rfl, .inl rfl⟩
  | created _ _ cluster job hc _ ha => exact .inr (hnone rfl rfl rfl (Pc.claims_of_after ha.after))
  | uncopied | stops | uninput | idle =>
    exact .inr (hnone rfl rfl rfl (Pc.claims_of_after (stopNrp_after _ _ _)))
  | done _ _ _ _ _ _ _ _ ha => exact .inr (hnone rfl rfl rfl (Pc.claims_of_after ha.after))
  | pass _ _ _ hr => exact .inr (hnone rfl rfl rfl (hr.claims none))
  | returns _ _ _ hk _ _ hg _ hr =>
    exact .inr (hnone (by rw [hg]) (by rw [hg]) (by rw [hg]) (hr.claims none))
  | _ => exact .inr (hnone rfl rfl rfl rfl)

theorem Claims.next {cluster name : String} (h : Leads w g pc a g' pc') (hn : Named w g)
    (hc : ∀ c n, pc.claims (some a) = some (c, n) → Claims w g c n pc.popped)
    (hp : pc'.claims none = some (cluster, name)) : Claims w g' cluster name pc'.popped := by
  rcases h.names with ⟨c, n, hcl, hpop, hent, hrec⟩ | ⟨hs, -, hw, hcl⟩
  · obtain ⟨rfl, rfl⟩ : c = cluster ∧ n = name := by simpa [hcl] using hp
    refine ⟨?_, hrec hn, by simp [hpop]⟩
    rw [hent.submitting, Dict.mem_set]
    exact .inl rfl
  · obtain ⟨hold, hwait⟩ := hcl cluster name hp
    have hc := hc cluster name hold
    refine ⟨hs ▸ hc.under, hc.unposted, fun hpop' e he => ?_⟩
    rcases hwait with hpop | hpop | hpop
    · exact hc.popped hpop e (hw e he)
    · simp [hpop] at hpop'
    · rw [hpop, Dict.mem_pop] at he
      rintro rfl
      exact he.2 (hn.one _ _ e.2.1 (.inl ⟨e.2.2, he.1⟩) (.inr hc.under))

theorem Named.resumes {r : Step} (hn : Named w g) (h : Resumes w g pc a r) : Named w r.mem := by
  cases hr : r.next with
  | none =>
    obtain ⟨hs, hw, hd⟩ := h.quits hr
    refine hn.shrinks hd (fun e he => hw ▸ he) fun e he => ?_
    rcases hs with hs | ⟨c, -, hs⟩
    · exact hs ▸ he
    · rw [hs, Dict.mem_pop] at he
      exact he.1
  | some pc' =>
    rcases (h.next pc' hr).names with ⟨c, n, -, -, hent, hrec⟩ | ⟨hs, hd, hw, -⟩
    · exact hn.enters hent (hrec hn)
    · exact hn.shrinks hd hw fun e he => hs ▸ he

/-- The claim of a coroutine stands while others run, who do not hold its lock. -/
theorem Claims.others {r : Step} {cluster name : String} {popped : Bool} (hn : Named w g)
    (h : Resumes w g pc a r) (hc : Claims w g cluster name popped)
    (hne : pc.holds ≠ some cluster) : Claims w r.mem cluster name popped := by
  have hlock := Dict.get?_ne_none_of_mem hc.under
  cases hr : r.next with
  | none =>
    obtain ⟨hs, hw, -⟩ := h.quits hr
    refine ⟨?_, hc.unposted, fun hp e he => hc.popped hp e (hw ▸ he)⟩
    rcases hs with hs | ⟨c, hh, hs⟩
    · exact hs ▸ hc.under
    · rw [hs, Dict.mem_pop]
      refine ⟨hc.under, ?_⟩
      rintro rfl
      exact hne hh
  | some pc' =>
    rcases (h.next pc' hr).names with ⟨c, n, -, -, hent, -⟩ | ⟨hs, -, hw, -⟩
    · have hne : cluster ≠ c := by
        rintro rfl
        exact hlock hent.free
      refine ⟨?_, hc.unposted, fun hp e he => ?_⟩
      · rw [hent.submitting, Dict.mem_set]
        exact .inr ⟨hc.under, hne⟩
      · rcases hent.waiting e he with he | ⟨-, hname⟩
        · exact hc.popped hp e he
        · rintro rfl
          rw [← hname] at hent
          exact hne (hent.apart hn (.inr hc.under))
    · exact ⟨hs ▸ hc.under, hc.unposted, fun hp e he => hc.popped hp e (hw e he)⟩

theorem stopNrp_copies (job : RayJob) (why : String) (k : After) :
    (stopNrp w job why k).copies = job :: k.copies := by
  unfold stopNrp
  split <;> rfl

theorem AtDone.copies {job : RayJob} {since now : ℤ} {k : After}
    (h : AtDone g job since now k pc) : ∀ c ∈ pc.copies, c ∈ job :: k.copies := by
  cases h with
  | clean => exact fun c hc => hc
  | record => exact fun c hc => List.mem_cons_of_mem _ hc

theorem Advances.copies {job : RayJob} {k : After} (h : Advances w g job k pc) :
    ∀ c ∈ pc.copies, c ∈ job :: k.copies := by
  cases h with
  | late =>
    rw [stopNrp_copies]
    exact fun c hc => hc
  | done _ _ hd => exact hd.copies
  | _ => exact fun c hc => hc

theorem Returns.copies {p : Pass} (h : Returns w g p pc) : ∀ c ∈ pc.copies, c ∈ p.rest := by
  cases h with
  | next job rest hs _ ha => exact fun c hc => hs.subset (ha.copies c hc)
  | jobs =>
    intro c hc
    cases hc

theorem Pc.copies_of_after {k : After} (h : pc.after = some k) : ∀ c ∈ k.copies, c ∈ pc.copies := by
  cases pc with
  | lock | package | body | before | gpus | post | copy | find | list | usage | jobs | sweep =>
    cases h
  | copied | idle | patch | clean =>
    cases h
    exact fun c hc => List.mem_cons_of_mem _ hc
  | _ =>
    cases h
    exact fun c hc => hc

/-- A coroutine only keeps copies that it had or that it was just answered with. -/
theorem Leads.copies (h : Leads w g pc a g' pc') :
    ∀ c ∈ pc'.copies, c ∈ pc.copies ∨ c ∈ pc.brings (some a) := by
  have hmade {cluster : String} {job : RayJob} (hc : Creates pc a cluster job) :
      job ∈ pc.copies ∨ job ∈ pc.brings (some a) := by
    cases hc with
    | post => exact .inr (List.mem_singleton_self _)
    | copy => exact .inl (List.mem_singleton_self _)
  intro c hc
  cases h with
  | package | body | before | gpus | post | orphans | sweep => cases hc
  | copy _ _ cluster job d more hm =>
    obtain rfl : c = job := List.mem_singleton.mp hc
    exact hmade hm
  | created _ _ cluster job hm _ ha =>
    obtain rfl : c = job := List.mem_singleton.mp (ha.copies c hc)
    exact hmade hm
  | uncopied | uninput | idle =>
    rw [stopNrp_copies] at hc
    exact .inl hc
  | stops user jobId jobs job hm =>
    rw [stopNrp_copies] at hc
    obtain rfl : c = job := List.mem_singleton.mp hc
    exact .inr hm
  | deletes => cases hc
  | unsuspend => exact .inl (List.mem_cons_of_mem _ hc)
  | outputs job p =>
    rcases List.mem_cons.mp hc with rfl | hc
    · exact .inr (List.mem_singleton_self _)
    · exact .inl (List.mem_cons_of_mem _ hc)
  | done job p _ _ _ _ _ _ ha =>
    rcases List.mem_cons.mp (ha.copies c hc) with rfl | hc
    · exact .inr (List.mem_singleton_self _)
    · exact .inl (List.mem_cons_of_mem _ hc)
  | record => exact .inl (List.mem_cons_of_mem _ hc)
  | usage jobs => exact .inr hc
  | pass jobs _ _ hr => exact .inl (hr.copies c hc)
  | returns _ _ _ hk _ _ _ _ hr => exact .inl (Pc.copies_of_after hk c (hr.copies c hc))
  | resume | output | stop | deleteIn | deleteOut | deleteCode => exact .inl hc

theorem stopNrp_formed {job : RayJob} (h : job.at.rank ≤ 1) (why : String) (k : After) :
    Formed (stopNrp w job why k) := by
  unfold stopNrp
  split
  · exact .stop h why w.now
  · exact .suspend h why

theorem AtDone.formed {job : RayJob} {since now : ℤ} {k : After}
    (h : AtDone g job since now k pc) (hd : job.at = .done) : Formed pc := by
  cases h with
  | clean ho => exact ⟨hd, ho⟩
  | record => trivial

theorem Advances.formed {job : RayJob} {k : After} (h : Advances w g job k pc) : Formed pc := by
  cases h with
  | inputs h => exact h
  | placing h => exact .resume (by simp [h, Stage.rank]) w.now
  | ended h he after ha => exact .ended h he after ha _ _ _
  | late h => exact stopNrp_formed (by simp [h, Stage.rank]) _ _
  | idle h => exact h
  | outputs h => exact h
  | done h _ hd => exact hd.formed h

theorem Returns.formed {p : Pass} (h : Returns w g p pc) : Formed pc := by
  cases h with
  | next job rest hs _ ha => exact ha.formed
  | jobs => trivial

/-- The stage that a PATCH goes on with is the one it sets. -/
theorem Patches.advance {job : RayJob} {p : Patch} {stage : Stage} {since now : ℤ}
    (h : Patches job p (.advance stage since now)) :
    (p.apply job).at = stage ∧ (stage = .outputs ∨ stage = .done) := by
  cases h with
  | ended h he after ha =>
    refine ⟨rfl, ?_⟩
    rw [ha]
    split <;> simp
  | output => exact ⟨rfl, .inr rfl⟩

theorem rank_le_of_not_late {s : Stage} (h : s.late = false) : s.rank ≤ 1 := by
  cases s <;> simp_all [Stage.late, Stage.rank]

theorem Leads.formed (h : Leads w g pc a g' pc') (hf : Formed pc)
    (hm : ∀ job, a = .created job → Fresh job)
    (hl : ∀ c, c ∈ pc.brings (some a) → c.at.late = true →
      c.ended = true ∨ c.stopped.isSome = true) : Formed pc' := by
  have hmade {cluster : String} {job : RayJob} (hc : Creates pc a cluster job) : Fresh job := by
    cases hc with
    | post => exact hm _ rfl
    | copy => exact hf
  cases h with
  | post user name sub =>
    refine ⟨rfl, ?_, ?_, rfl, rfl⟩
    · cases hi : sub.inputs <;> simp [buildJob, RayJob.at, hi, Stage.rank]
    · cases ho : sub.output <;> simp [buildJob, ho]
  | copy _ _ cluster job d more hc => exact hmade hc
  | created _ _ cluster job hc _ ha => exact ha.formed
  | uncopied cluster job => exact stopNrp_formed hf.rank _ _
  | stops user jobId jobs job hmem he hs =>
    refine stopNrp_formed (rank_le_of_not_late ?_) _ _
    by_contra hlate
    have hover := hl job hmem (by simpa using hlate)
    simp [he, hs] at hover
  | uninput job => exact stopNrp_formed (by simp [show job.at = .inputs from hf, Stage.rank]) _ _
  | resume job => exact .resume (by simp [show job.at = .inputs from hf, Stage.rank]) _
  | output job => exact .output hf _ _ _
  | idle job => exact stopNrp_formed (by simp [show job.at = .running from hf, Stage.rank]) _ _
  | stop job p why k =>
    cases hf with
    | suspend h => exact .stop h why w.now
  | outputs job p since now k => exact (Patches.advance hf).1
  | done job p stage since now k hs _ ha =>
    obtain ⟨hat, ho | rfl⟩ := Patches.advance hf
    · exact absurd ho hs
    · exact ha.formed hat
  | pass _ _ _ hr => exact hr.formed
  | returns _ _ _ _ _ _ _ _ hr => exact hr.formed
  | _ => trivial

theorem Shared.put (h : Shared w g) {name : String} {r r' : Record}
    (hr : w.records.get? name = some r) (hn : r'.job.name = r.job.name)
    (hl : r'.job.at.late = true → r'.job.ended = true ∨ r'.job.stopped.isSome = true) :
    Shared (w.put name r') g := by
  constructor
  · refine { h.toNamed with records := fun n q hq => ?_, unposted := fun e he => ?_ }
    · rw [get?_put] at hq
      split_ifs at hq with heq
      · cases hq
        subst heq
        exact ⟨hn.trans (h.records _ r hr).1, (h.records _ r hr).2⟩
      · exact h.records n q hq
    · rw [get?_put, if_neg]
      · exact h.unposted e he
      · intro heq
        simp [← heq, h.unposted e he] at hr
  · intro n q hq
    rw [get?_put] at hq
    split_ifs at hq with heq
    · cases hq
      exact hl
    · exact h.late n q hq

/-- A world with the same RayJobs, and code of names that were drawn. -/
theorem Shared.of_records (h : Shared w g) (hr : w'.records = w.records)
    (hb : ∀ e ∈ w'.bucket, e.1 ∈ g.drawn) : Shared w' g := by
  refine ⟨⟨?_, hb, h.drawn, h.one, ?_⟩, ?_⟩
  · rw [hr]
    exact h.records
  · rw [hr]
    exact h.unposted
  · rw [hr]
    exact h.late

theorem Patches.late {job : RayJob} {p : Patch} {next : Next} (h : Patches job p next)
    (hj : job.at.late = true → job.ended = true ∨ job.stopped.isSome = true) {j : RayJob}
    (he : job.ended = true → j.ended = true)
    (hs : job.stopped.isSome = true → j.stopped.isSome = true)
    (hl : j.at.late = true → j.ended = true ∨ j.stopped.isSome = true)
    (hp : (p.apply j).at.late = true) :
    (p.apply j).ended = true ∨ (p.apply j).stopped.isSome = true := by
  cases h with
  | resume => cases hp
  | ended _ hend => exact .inl (he hend)
  | output h =>
    rcases hj (by rw [h]; rfl) with hend | hstop
    · exact .inl (he hend)
    · exact .inr (Patch.apply_stopped _ _ (hs hstop))
  | suspend =>
    rcases hl hp with hend | hstop
    · exact .inl hend
    · exact .inr (Patch.apply_stopped _ _ hstop)
  | stop => exact .inr rfl

theorem Shared.writes (h : Shared w g) (hw : Writes w pc w') (he : Each w g pc none) :
    Shared w' g := by
  cases hw with
  | same => exact h
  | post cluster job copies hl =>
    have hc := he.claims cluster job.name rfl
    have hf : Fresh job := he.formed
    constructor
    · refine { h.toNamed with records := fun n q hq => ?_, unposted := fun e hm => ?_ }
      · rw [World.post, get?_put] at hq
        split_ifs at hq with heq
        · cases hq
          exact ⟨heq.symm, heq ▸ h.drawn cluster job.name (.inr hc.under)⟩
        · exact h.records n q hq
      · rw [World.post, get?_put, if_neg (hc.popped rfl e hm)]
        exact h.unposted e hm
    · intro n q hq hlate
      rw [World.post, get?_put] at hq
      split_ifs at hq with heq
      · cases hq
        have hrank : job.at.rank ≤ 1 := hf.rank
        have hge : 2 ≤ job.at.rank := of_decide_eq_true hlate
        omega
      · exact h.late n q hq hlate
  | patch job p next k r hl =>
    have hr := (World.live_eq hl).1
    obtain ⟨r', hr', hend, hstop⟩ := (he.copies job (List.mem_cons_self ..)).record
    obtain rfl : r = r' := Option.some.inj (hr.symm.trans hr')
    exact h.put hr rfl fun hp => (show Patches job p next from he.formed).late
      (he.copies job (List.mem_cons_self ..)).late hend hstop (h.late job.name r hr) hp
  | remove name k r hl =>
    exact h.put (World.live_eq hl).1 rfl (h.late name r (World.live_eq hl).1)
  | write cluster name =>
    refine h.of_records rfl fun e hm => ?_
    rcases Dict.mem_set.mp hm with rfl | ⟨hm, -⟩
    · exact h.drawn cluster name (.inr (he.claims cluster name rfl).under)
    · exact h.bucket e hm
  | erase pc name => exact h.of_records rfl fun e hm => h.bucket e (Dict.mem_pop.mp hm).1
  | copies pc d => exact h.of_records rfl h.bucket

theorem Shared.happens (h : Shared w g) (hh : Happens w w') : Shared w' g := by
  cases hh with
  | tick | copyGone => exact h.of_records rfl h.bucket
  | report name r r' st hr hs =>
    obtain ⟨rfl, -⟩ := Record.report_eq hs
    refine h.put hr rfl fun hl => ?_
    rcases h.late name r hr hl with he | hst
    · exact .inl (Record.report_ended hs he)
    · exact .inr hst
  | copyEnds name d ok hc =>
    have hb := (copyEnds_rest w name d ok).2.1
    rcases copyEnds_records w name d ok with ⟨hsame, -⟩ | ⟨r, hr, -, -, hset⟩
    · exact h.of_records hsame (hb ▸ h.bucket)
    · have hput : Shared (w.put name { r with back := true }) g :=
        h.put hr rfl (h.late name r hr)
      exact hput.of_records hset (hb ▸ h.bucket)
  | write name r hr =>
    refine h.of_records rfl fun e hm => ?_
    rcases Dict.mem_set.mp hm with rfl | ⟨hm, -⟩
    · exact (h.records name r hr).2
    · exact h.bucket e hm

theorem Writes.unposted {name : String} (h : Writes w pc w') (hn : w.records.get? name = none)
    (hp : ∀ cluster job copies, pc = .post cluster job copies → job.name ≠ name) :
    w'.records.get? name = none := by
  have hput {n : String} {r r' : Record} (hr : w.records.get? n = some r) :
      (w.put n r').records.get? name = none := by
    rw [get?_put, if_neg]
    · exact hn
    · rintro rfl
      simp [hn] at hr
  cases h with
  | post cluster job copies =>
    rw [World.post, get?_put, if_neg (Ne.symm (hp cluster job copies rfl))]
    exact hn
  | patch _ _ _ _ _ hl => exact hput (World.live_eq hl).1
  | remove _ _ _ hl => exact hput (World.live_eq hl).1
  | same | write | erase | copies => exact hn

theorem Happens.unposted {name : String} (h : Happens w w') (hn : w.records.get? name = none) :
    w'.records.get? name = none := by
  have hput {n : String} {r r' : Record} (hr : w.records.get? n = some r) :
      (w.put n r').records.get? name = none := by
    rw [get?_put, if_neg]
    · exact hn
    · rintro rfl
      simp [hn] at hr
  cases h with
  | report _ _ _ _ hr => exact hput hr
  | copyEnds n d ok =>
    rcases copyEnds_records w n d ok with ⟨hsame, -⟩ | ⟨r, hr, -, -, hset⟩
    · rw [hsame]
      exact hn
    · rw [hset]
      exact hput hr
  | tick | copyGone | write => exact hn

theorem Pc.claims_reply {cluster name : String} (h : pc.claims (some a) = some (cluster, name)) :
    pc.claims none = some (cluster, name) ∧
      ∀ cluster job copies, pc ≠ .post cluster job copies := by
  cases pc with
  | post => cases h
  | _ => exact ⟨h, by simp⟩

/-- What the RayJobs of an answer are known by. -/
theorem Known.brings (hs : Shared w g) (he : Each w g pc none)
    (hr : Replies w pc w' a) (hev : Evolves w w') : ∀ c ∈ pc.brings (some a), Known w' c := by
  have hlist {jobs : List RayJob} (ha : a = .listing jobs) : ∀ c ∈ jobs, Known w' c := by
    intro c hc
    obtain ⟨name, r, hget, -, rfl⟩ := mem_listing (hr.listing jobs ha c hc)
    refine Known.evolves ⟨hs.late name r hget, r, ?_, id, id⟩ hev
    rw [(hs.records name r hget).1]
    exact hget
  have hmade {made : RayJob} (ha : a = .created made) : Known w' made := by
    obtain ⟨cluster, job, copies, rfl, rfl, rfl⟩ := hr.created made ha
    have hf : Fresh job := he.formed
    refine ⟨fun hlate => ?_, ⟨{ job with created := w.now }, false, false, none, false⟩, ?_, id, id⟩
    · have hrank : job.at.rank ≤ 1 := hf.rank
      have hge : 2 ≤ job.at.rank := of_decide_eq_true hlate
      omega
    · rw [World.post, get?_put, if_pos rfl]
  intro c hc
  unfold Pc.brings at hc
  split at hc
  · rename_i job p stage since now k ha
    obtain rfl := Option.some.inj ha
    obtain rfl : c = p.apply job := List.mem_singleton.mp hc
    obtain ⟨r, hl, rfl⟩ := hr.patched job p _ k rfl rfl
    have hk := he.copies job (List.mem_cons_self ..)
    obtain ⟨r', hr', hend, hstop⟩ := hk.record
    obtain rfl : r = r' := Option.some.inj ((World.live_eq hl).1.symm.trans hr')
    refine ⟨fun hlate => ?_, r.patch p, ?_, hend, fun h => ?_⟩
    · exact Patches.late he.formed hk.late id id hk.late hlate
    · rw [get?_put]
      exact if_pos rfl
    · cases hp : p.stopped with
      | none =>
        refine Patch.apply_stopped _ _ (hstop ?_)
        simpa [Patch.apply, hp] using h
      | some why => simp [Record.patch, Patch.apply, hp]
  · rename_i ha
    exact hlist (Option.some.inj ha) c hc
  · rename_i ha
    rw [List.mem_singleton.mp hc]
    exact hmade (Option.some.inj ha)
  · cases hc

theorem Each.writes (hs : Shared w g) (he : Each w g pc none) (hw : Writes w pc w')
    (hr : Replies w pc w' a) (hev : Evolves w w') : Each w' g pc (some a) := by
  refine ⟨fun cluster name hc => ?_, fun c hc => (he.copies c hc).evolves hev,
    Known.brings hs he hr hev, fun made ha => ?_, he.formed⟩
  · obtain ⟨hnone, hpost⟩ := Pc.claims_reply hc
    have hcl := he.claims cluster name hnone
    refine ⟨hcl.under, hw.unposted hcl.unposted fun c j cs hp => ?_, hcl.popped⟩
    exact absurd hp (hpost c j cs)
  · obtain ⟨cluster, job, copies, rfl, rfl, rfl⟩ := hr.created made (Option.some.inj ha)
    have hf : Fresh job := he.formed
    exact ⟨hf.stage, hf.rank, hf.output, hf.ended, hf.stopped⟩

/-- The assertion of a coroutine whose submission's name nobody else creates stands. -/
theorem Each.evolves {reply : Option Answer} (he : Each w g pc reply) (hev : Evolves w w')
    (hu : ∀ cluster name, pc.claims reply = some (cluster, name) →
      w.records.get? name = none → w'.records.get? name = none) : Each w' g pc reply where
  claims cluster name hc :=
    ⟨(he.claims cluster name hc).under, hu cluster name hc (he.claims cluster name hc).unposted,
      (he.claims cluster name hc).popped⟩
  copies c hc := (he.copies c hc).evolves hev
  brings c hc := (he.brings c hc).evolves hev
  made := he.made
  formed := he.formed

theorem Each.resumes {r : Step} (hs : Shared w g) (he : Each w g pc (some a))
    (h : Resumes w g pc a r) (hn : r.next = some pc') : Each w r.mem pc' none where
  claims _ _ hc := .next (h.next pc' hn) hs.toNamed he.claims hc
  copies c hc := by
    rcases (h.next pc' hn).copies c hc with hold | hnew
    · exact he.copies c hold
    · exact he.brings c hnew
  brings c hc := by simp [Pc.brings] at hc
  made _ h := absurd h (by simp)
  formed := (h.next pc' hn).formed he.formed (fun job ha => he.made job (by rw [ha])) fun c hc =>
    (he.brings c hc).late

theorem Each.others {r : Step} {pc₀ : Pc} {reply : Option Answer} (hs : Shared w g)
    (he : Each w g pc reply) (h : Resumes w g pc₀ a r)
    (hne : ∀ cluster, pc.holds = some cluster → pc₀.holds ≠ some cluster) :
    Each w r.mem pc reply :=
  { he with
    claims := fun cluster _ hc => (he.claims cluster _ hc).others hs.toNamed h
      (hne cluster (Pc.holds_of_claims hc)) }

theorem Shared.resumes {r : Step} (hs : Shared w g) (h : Resumes w g pc a r) :
    Shared w r.mem := ⟨hs.toNamed.resumes h, hs.late⟩

/-- The names and the copies are kept by every step, whatever is served when. -/
def Copies : St → Prop := Holds Shared Each

theorem copies_step {s s' : St} {act : Act} (hl : Locked s) (h : Copies s)
    (hs : program.step s act = some s') : Copies s' := by
  refine Holds.step (C := fun s _ => Locked s) ?start ?serve ?resume ?env s act s' h hl hs
  case start =>
    intro s i r hh _ hr
    obtain ⟨pc, hn, -, -, -, hsub, hwait, hdrawn, hpc⟩ := start_cases (w := s.world) hr
    have hnamed : Named s.world r.mem := hh.shared.toNamed.shrinks hdrawn
      (fun e he => hwait ▸ he) fun e he => hsub ▸ he
    refine ⟨⟨hnamed, hh.shared.late⟩, fun x hx => ?_, fun t x a ht hx => ?_⟩
    · obtain rfl : x = pc := Option.some.inj (hx.symm.trans hn)
      rcases hpc with ⟨user, key, request, rfl⟩ | ⟨user, jobId, about, rfl⟩ | rfl
      all_goals exact ⟨by simp [Pc.claims], by simp [Pc.copies], by simp [Pc.brings], by simp, trivial⟩
    · exact { hx with
        claims := fun c n hc => ⟨hsub ▸ (hx.claims c n hc).under, (hx.claims c n hc).unposted,
          fun hp e he => (hx.claims c n hc).popped hp e (hwait ▸ he)⟩ }
  case serve =>
    intro s t c pc w a hh hlock ht hv
    have he := hh.each t _ ht
    obtain ⟨hw, hr⟩ := serve_writes hv
    have hev : Evolves s.world w := hw.evolves fun cluster job copies hp => by
      subst hp
      exact (he.claims cluster job.name rfl).unposted
    refine ⟨hh.shared.writes hw he, he.writes hh.shared hw hr hev, fun j x b hj hx hxe => ?_⟩
    refine hxe.evolves hev fun cluster name hc hnone => hw.unposted hnone ?_
    -- Two coroutines that both claim the name would hold one lock.
    rintro c' job copies rfl rfl
    have hown := (he.claims c' job.name rfl).under
    have hother := (hxe.claims cluster job.name hc).under
    have hsame : cluster = c' := hh.shared.one cluster c' job.name (.inr hother) (.inr hown)
    exact hj (hlock.one j t _ _ cluster hx ht (Pc.holds_of_claims hc) (hsame ▸ rfl))
  case resume =>
    intro s t pc a r hh hlock ht hr
    have hres := resume_resumes hr
    refine ⟨hh.shared.resumes hres, fun x hx => (hh.each t _ ht).resumes hh.shared hres hx,
      fun j x b hj hx hxe => hxe.others hh.shared hres fun cluster hc hc' => ?_⟩
    exact hj (hlock.one j t _ _ cluster hx ht hc hc')
  case env =>
    intro s e w g hh _ he
    obtain ⟨rfl, hhap⟩ := env_happens he
    exact ⟨hh.shared.happens hhap, fun t x b ht hx =>
      hx.evolves hhap.evolves fun _ _ _ hn => hhap.unposted hn⟩

theorem old_of_get? {st : Standing} {n : String} {r : Record}
    (h : (initial st).world.records.get? n = some r) : ∃ o ∈ st.jobs, o.name = n ∧ r = o.record := by
  obtain ⟨o, ho, heq⟩ := List.mem_map.mp (Dict.mem_of_get? h)
  cases heq
  exact ⟨o, ho, rfl, rfl⟩

theorem copies_initial (st : Standing) : Locked (initial st) ∧ Copies (initial st) := by
  have hnone (t : ℕ) : (initial st).at t = none := by simp [initial, State.at]
  have huses (c n : String) : ¬Uses (initial st).mem c n := by simp [Uses, initial]
  refine ⟨⟨by simp [hnone], by simp [hnone]⟩, ⟨⟨⟨fun n r hr => ?_, fun e he => ?_, fun c n hu => ?_,
    fun c c' n hu => absurd hu (huses c n), by simp [initial]⟩, fun n r hr hl => ?_⟩, by simp [hnone]⟩⟩
  · obtain ⟨o, ho, rfl, rfl⟩ := old_of_get? hr
    exact ⟨rfl, List.mem_append_left _ (List.mem_map_of_mem ho)⟩
  · exact List.mem_append_right _ (List.mem_map_of_mem he)
  · exact absurd hu (huses c n)
  · obtain ⟨o, -, rfl, rfl⟩ := old_of_get? hr
    exact (o.ended (of_decide_eq_true hl)).1

end PurdueAF.RayNrp
