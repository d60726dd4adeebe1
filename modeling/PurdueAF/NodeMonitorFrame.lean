import PurdueAF.NodeMonitorCells

/-!
# One probe's answer among the others

The answer of one probe is read for the row of its mount and node, and for no other. It reaches
the others only by what it raises: a pass has no failure domain smaller than itself.
-/
namespace PurdueAF.NodeMonitor
open Py Binary64 Machine

def raises {α : Type} : Except Exc α → Bool
  | .error _ => true
  | .ok _ => false

/-- Publishing the result raises: its timestamp is too large a number, or a reading that is
looked at is neither null nor a number. -/
def breaks (cfg : Settings) (now : Value) (data : Data) : Bool :=
  match timestampOf data with
  | .error _ => true
  | .ok timestamp =>
    !(le timestamp (.finite 0) || lt (add now cfg.clockSkewToleranceS) timestamp) &&
      !(lt cfg.resultStaleWindowS (sub now timestamp) && okOf data) &&
      (raises (measured data "ping_ms") || !timeoutOf data &&
        (raises (measured data "metadata_ms") || raises (measured data "throughput_gbps")))

theorem raises_eq_false {α : Type} {x : Except Exc α} :
    raises x = false ↔ ∃ y, x = .ok y := by
  cases x with
  | error e => simp [raises]
  | ok y => simp [raises]

theorem breaks_eq (cfg : Settings) (now : Value) (data : Data) :
    breaks cfg now data = raises (resultOutcome cfg now data) := by
  unfold breaks resultOutcome
  cases timestampOf data with
  | error e => rfl
  | ok timestamp =>
    simp only [ok_bind]
    by_cases hwrong : (le timestamp (.finite 0) ||
        lt (add now cfg.clockSkewToleranceS) timestamp) = true
    · rw [if_pos hwrong, hwrong]
      rfl
    rw [if_neg hwrong]
    by_cases hstale : (lt cfg.resultStaleWindowS (sub now timestamp) && okOf data) = true
    · rw [if_pos hstale, hstale]
      simp [raises, pure, Except.pure]
    rw [if_neg hstale]
    simp only [Bool.not_eq_true] at hwrong hstale
    rw [hwrong, hstale]
    cases measured data "ping_ms" with
    | error e => rfl
    | ok ping =>
      simp only [ok_bind]
      cases timeoutOf data with
      | true => rfl
      | false =>
        cases measured data "metadata_ms" with
        | error e => rfl
        | ok latency => cases measured data "throughput_gbps" <;> rfl

/-- The pass in which the probe answers `data`. -/
def Pass.replace (p : Pass) (key : Key) (data : Data) : Pass :=
  { p with answers := p.answers.set key data }

/-- The probe's answer is read, and its row published from it. -/
def publishes (cfg : Settings) (s : State) (p : Pass) (key : Key) : Bool :=
  ((targetsOf (nodesIn cfg s p) (probesIn cfg s p)).get? key).isSome &&
    !stuck (readIn cfg s p) key &&
    (cells (nodesIn cfg s p)).any fun at_ => at_.2.ready && keyOf at_ = key

section Replace
variable {cfg : Settings} {s t : State} {p : Pass} {key : Key} {data data' : Data}

theorem get?_fetchedIn_ne {k : Key} (hk : k ≠ key) :
    (fetchedIn cfg s (p.replace key data')).get? k = (fetchedIn cfg s p).get? k := by
  have hget : (p.replace key data').answers.get? k = p.answers.get? k := Dict.get?_set_ne _ _ hk
  rw [get?_fetchedIn, get?_fetchedIn, hget]
  rfl

/-- A probe answers or not, whatever it answers. -/
theorem isSome_fetchedIn (hanswer : p.answers.get? key = some data) (k : Key) :
    ((fetchedIn cfg s (p.replace key data')).get? k).isSome =
      ((fetchedIn cfg s p).get? k).isSome := by
  by_cases hk : k = key
  · subst hk
    have hget : (p.replace k data').answers.get? k = some data' := Dict.get?_set_self ..
    rw [get?_fetchedIn, get?_fetchedIn, hget, hanswer]
    show (((targetsOf (nodesIn cfg s p) (probesIn cfg s p)).get? k).bind fun _ =>
      some data').isSome = _
    cases (targetsOf (nodesIn cfg s p) (probesIn cfg s p)).get? k <;> rfl
  · rw [get?_fetchedIn_ne hk]

theorem workingNodes_replace (hanswer : p.answers.get? key = some data) :
    (readIn cfg s (p.replace key data')).workingNodes = (readIn cfg s p).workingNodes := by
  show ((((targetsOf (nodesIn cfg s p) (probesIn cfg s p)).filter (·.2.ready)).map
      Prod.fst).filter fun k => ((fetchedIn cfg s (p.replace key data')).get? k).isSome).map
      Prod.snd = _
  simp only [isSome_fetchedIn hanswer]
  rfl

theorem stuck_replace (hanswer : p.answers.get? key = some data) (k : Key) :
    stuck (readIn cfg s (p.replace key data')) k = stuck (readIn cfg s p) k := by
  unfold stuck
  rw [workingNodes_replace hanswer]
  rfl

theorem probeUpOf_replace (hanswer : p.answers.get? key = some data) (k : Key) :
    probeUpOf (readIn cfg s (p.replace key data')) k = probeUpOf (readIn cfg s p) k := by
  show (probesIn cfg s p).map (fun probes => (probes.get? k).any (·.ready) &&
    ((fetchedIn cfg s (p.replace key data')).get? k).isSome) = _
  rw [isSome_fetchedIn hanswer]
  rfl

theorem rowOutcome_congr (hanswer : p.answers.get? key = some data) {at_ : String × Row}
    (h : (readIn cfg s (p.replace key data')).cache.get? (keyOf at_) =
      (readIn cfg s p).cache.get? (keyOf at_)) :
    rowOutcome cfg (readIn cfg s (p.replace key data')) at_ =
      rowOutcome cfg (readIn cfg s p) at_ := by
  unfold rowOutcome
  rw [stuck_replace hanswer, h]
  rfl

/-- The other rows read what they would have read. -/
theorem rowOutcome_ne (hanswer : p.answers.get? key = some data) {at_ : String × Row}
    (hk : keyOf at_ ≠ key) :
    rowOutcome cfg (readIn cfg s (p.replace key data')) at_ =
      rowOutcome cfg (readIn cfg s p) at_ := by
  refine rowOutcome_congr hanswer ?_
  rw [get?_cache, get?_cache, get?_fetchedIn_ne hk]

/-- The probe's own row raises where it is published and its new answer cannot be. -/
theorem raises_rowOutcome (data' : Data) (hanswer : p.answers.get? key = some data)
    {at_ : String × Row} (hat : at_ ∈ cells (nodesIn cfg s p)) (hk : keyOf at_ = key)
    (hread : ∃ o, rowOutcome cfg (readIn cfg s p) at_ = .ok o) :
    raises (rowOutcome cfg (readIn cfg s (p.replace key data')) at_) =
      (at_.2.ready && publishes cfg s p key && breaks cfg p.now data') := by
  cases hready : at_.2.ready with
  | false => simp [rowOutcome, hready, raises]
  | true =>
    cases hstuck : stuck (readIn cfg s p) key with
    | true =>
      have hstuck' : stuck (readIn cfg s (p.replace key data')) (keyOf at_) = true := by
        rw [stuck_replace hanswer, hk, hstuck]
      simp [rowOutcome, hready, hstuck', raises, publishes, hstuck]
    | false =>
      have hany : ((cells (nodesIn cfg s p)).any fun at_ => at_.2.ready && keyOf at_ = key) =
          true := List.any_eq_true.mpr ⟨at_, hat, by simp [hready, hk]⟩
      cases htarget : (targetsOf (nodesIn cfg s p) (probesIn cfg s p)).get? key with
      | none =>
        have hcache : (readIn cfg s (p.replace key data')).cache.get? (keyOf at_) =
            (readIn cfg s p).cache.get? (keyOf at_) := by
          rw [hk, get?_cache, get?_cache, get?_fetchedIn, get?_fetchedIn, htarget]
          show Option.or (((targetsOf (nodesIn cfg s p) (probesIn cfg s p)).get? key).bind _) _ = _
          rw [htarget]
          rfl
        rw [rowOutcome_congr hanswer hcache, raises_eq_false.mpr hread]
        simp [publishes, htarget]
      | some probe =>
        have hcache : (readIn cfg s (p.replace key data')).cache.get? (keyOf at_) =
            some data' := by
          have hget : (p.replace key data').answers.get? key = some data' := Dict.get?_set_self ..
          rw [hk, get?_cache, get?_fetchedIn, hget]
          show Option.or (((targetsOf (nodesIn cfg s p) (probesIn cfg s p)).get? key).bind _) _ = _
          rw [htarget]
          rfl
        have hstuck' : stuck (readIn cfg s (p.replace key data')) (keyOf at_) = false := by
          rw [stuck_replace hanswer, hk, hstuck]
        have hpublishes : publishes cfg s p key = true := by simp [publishes, htarget, hstuck, hany]
        simp only [rowOutcome, hready, hstuck', hcache, hpublishes, Bool.not_true,
          Bool.false_eq_true, if_false, Bool.true_and, Bool.and_true]
        cases data' with
        | nil => rfl
        | cons e data' => exact (breaks_eq cfg p.now (e :: data')).symm

end Replace

def Labels.key (labels : Labels) : Key := (sanitizedMountName labels.mountName, labels.node)

/-- The gauges of every other mount and node are the same. -/
def SameBut (key : Key) (st st' : Series) : Prop :=
  ∀ g labels, labels.key ≠ key → st.get? (g, labels) = st'.get? (g, labels)

section Frame
variable {cfg : Settings} {s t : State} {p : Pass} {key : Key} {data data' : Data}

theorem sameBut_write {at_ : String × Row} {st st' : Series} {o o' : Outcome}
    {up up' : Option Bool} (h : SameBut key st st')
    (hsame : keyOf at_ ≠ key → o = o' ∧ up = up') :
    SameBut key (o.write cfg (labelsOf at_) up st) (o'.write cfg (labelsOf at_) up' st') := by
  intro g labels hl
  by_cases hat : labels = labelsOf at_
  · subst hat
    obtain ⟨rfl, rfl⟩ := hsame hl
    exact o.write_congr (fun g => h g _ hl) g
  · rw [o.write_touches cfg _ up st g labels (.inl hat),
      o'.write_touches cfg _ up' st' g labels (.inl hat)]
    exact h g labels hl

theorem sameBut_rows {r r' : Read} {rows : List (String × Row)} {st st' u u' : Series}
    (hother : ∀ at_ ∈ rows, keyOf at_ ≠ key → rowOutcome cfg r' at_ = rowOutcome cfg r at_ ∧
      probeUpOf r' (keyOf at_) = probeUpOf r (keyOf at_))
    (h : SameBut key st st') (hrows : rows.foldlM (publishRow cfg r) st = .ok u)
    (hrows' : rows.foldlM (publishRow cfg r') st' = .ok u') : SameBut key u u' := by
  induction rows generalizing st st' with
  | nil =>
    obtain rfl := Except.ok.inj hrows
    obtain rfl := Except.ok.inj hrows'
    exact h
  | cons x rows ih =>
    rw [List.foldlM_cons] at hrows hrows'
    obtain ⟨mid, hx, hrest⟩ := except_bind_ok hrows
    obtain ⟨mid', hx', hrest'⟩ := except_bind_ok hrows'
    obtain ⟨o, ho, rfl⟩ := publishRow_ok hx
    obtain ⟨o', ho', rfl⟩ := publishRow_ok hx'
    have hnext : SameBut key (o.write cfg (labelsOf x) (probeUpOf r (keyOf x)) st)
        (o'.write cfg (labelsOf x) (probeUpOf r' (keyOf x)) st') := by
      refine sameBut_write h fun hk => ?_
      obtain ⟨houtcome, hup⟩ := hother x List.mem_cons_self hk
      exact ⟨Except.ok.inj (ho.symm.trans (houtcome.symm.trans ho')), hup.symm⟩
    exact ih (fun at_ hat => hother at_ (List.mem_cons_of_mem x hat)) hnext hrest hrest'

/-- Another answer of one probe lets the pass complete, and leaves the gauges of every other mount
and node as they are, exactly if it is not published or publishing it does not raise. -/
theorem unspoiled_iff (hanswer : p.answers.get? key = some data) (ht : step cfg s p = some t)
    (data' : Data) :
    (∃ t', step cfg s (p.replace key data') = some t' ∧ SameBut key t.series t'.series) ↔
      ¬(publishes cfg s p key = true ∧ breaks cfg p.now data' = true) := by
  have hrows := series_of_step ht
  have hread := read_of_publishRows hrows
  constructor
  · rintro ⟨t', ht', -⟩ ⟨hpublishes, hbreaks⟩
    obtain ⟨-, hany⟩ := Bool.and_eq_true_iff.mp hpublishes
    obtain ⟨at_, hat, hrow⟩ := List.any_eq_true.mp hany
    simp only [Bool.and_eq_true, decide_eq_true_eq] at hrow
    obtain ⟨o', ho'⟩ := read_of_publishRows (series_of_step ht') at_ hat
    have hraises := raises_rowOutcome data' hanswer hat hrow.2 (hread at_ hat)
    rw [ho', hrow.1, hpublishes, hbreaks] at hraises
    cases hraises
  · intro hnot
    have hread' : ∀ at_ ∈ cells (nodesIn cfg s (p.replace key data')),
        ∃ o, rowOutcome cfg (readIn cfg s (p.replace key data')) at_ = .ok o := by
      intro at_ hat
      by_cases hk : keyOf at_ = key
      · rw [← raises_eq_false, raises_rowOutcome data' hanswer hat hk (hread at_ hat)]
        cases hready : at_.2.ready with
        | false => rfl
        | true => simpa using hnot
      · rw [rowOutcome_ne hanswer hk]
        exact hread at_ hat
    obtain ⟨series', hrows'⟩ := publishRows_of_read hread'
      (refreshNodeCaches cfg s (p.replace key data')).series
    obtain ⟨t', ht', rfl⟩ := step_of_rows hrows'
    refine ⟨t', ht', sameBut_rows (fun at_ _ hk => ?_) (fun _ _ _ => rfl) hrows hrows'⟩
    exact ⟨rowOutcome_ne hanswer hk, probeUpOf_replace hanswer _⟩

end Frame

/-- A timestamp that is no number costs the others nothing. -/
theorem unspoiled_iff_undated : ∃ t t',
    step defaults start (answeredPass 1700000010 measuredResult) = some t ∧
    step defaults start ((answeredPass 1700000010 measuredResult).replace ("depot", "hammer-a")
      [("ok", .list []), ("timestamp", .str "now"), ("ping_ms", .str "fast")]) = some t' ∧
    SameBut ("depot", "hammer-a") t.series t'.series := by
  have hsome : (step defaults start (answeredPass 1700000010 measuredResult)).isSome = true := by
    decide +kernel
  have hreads : breaks defaults (answeredPass 1700000010 measuredResult).now
      [("ok", .list []), ("timestamp", .str "now"), ("ping_ms", .str "fast")] = false := by
    decide +kernel
  obtain ⟨t, ht⟩ := Option.isSome_iff_exists.mp hsome
  have hanswer : (answeredPass 1700000010 measuredResult).answers.get? ("depot", "hammer-a") =
      some measuredResult := rfl
  have hiff := unspoiled_iff hanswer ht
    [("ok", .list []), ("timestamp", .str "now"), ("ping_ms", .str "fast")]
  obtain ⟨t', ht', hsame⟩ := hiff.mpr (by simp [hreads])
  exact ⟨t, t', ht, ht', hsame⟩

/-- A ping that is no number ends the pass for every mount and node. -/
theorem not_unspoiled_ping :
    ¬∀ (cfg : Settings) (passes : List Pass) (p : Pass) (key : Key) (data data' : Data) (t : State),
      p.answers.get? key = some data → step cfg (reached cfg passes) p = some t →
      ∃ t', step cfg (reached cfg passes) (p.replace key data') = some t' ∧
        SameBut key t.series t'.series := by
  intro h
  let p := answeredPass 1700000010 measuredResult
  let data' : Data :=
    [("ok", .bool true), ("timestamp", .int 1700000000), ("ping_ms", .str "fast")]
  have hsome : (step defaults (reached defaults []) p).isSome = true := by decide +kernel
  have hnone : step defaults (reached defaults []) (p.replace ("depot", "hammer-a") data') =
      none := by
    rw [← Option.isNone_iff_eq_none]
    decide +kernel
  obtain ⟨t, ht⟩ := Option.isSome_iff_exists.mp hsome
  obtain ⟨t', ht', -⟩ := h defaults [] p ("depot", "hammer-a") measuredResult data' t rfl ht
  rw [hnone] at ht'
  cases ht'

end PurdueAF.NodeMonitor
