import PurdueAF.NodeMonitorTruth

/-!
# What a pass leaves of what was before

A row of a pass is read first, which may raise, and then written, which cannot. What it writes
is the label set of its mount and node alone, and most of it: a success that comes without a
reading leaves the gauge of that reading as it was.
-/
namespace PurdueAF.NodeMonitor
open Py Binary64 Machine

/-- The nodes a pass publishes. -/
def nodesIn (cfg : Settings) (s : State) (p : Pass) : List Row :=
  listAfNodes (refreshNodeCaches cfg s p)

/-- The probes a pass knows, `none` where their list cannot be read. -/
def probesIn (cfg : Settings) (s : State) (p : Pass) : Option (Dict Key Probe) :=
  (probePods cfg (refreshNodeCaches cfg s p) p).1

def readIn (cfg : Settings) (s : State) (p : Pass) : Read :=
  let fetched := fetchedIn cfg s p
  let targets := targetsOf (nodesIn cfg s p) (probesIn cfg s p)
  let expected := (targets.filter (·.2.ready)).map Prod.fst
  let answered := expected.filter fun key => (fetched.get? key).isSome
  ⟨p.now, probesIn cfg s p, fetched, s.resultCache.overlay fetched, answered.map Prod.snd⟩

/-- The mounts and nodes in the order in which they are published. -/
def cells (rows : List Row) : List (String × Row) :=
  mounts.flatMap fun mount => rows.map fun row => (mount, row)

def keyOf (at_ : String × Row) : Key := (sanitizedMountName at_.1, at_.2.name)

def probeUpOf (r : Read) (key : Key) : Option Bool :=
  r.probes.map fun probes => (probes.get? key).any (·.ready) && (r.fetched.get? key).isSome

/-- The probe cannot mount its volume while a sibling on the node runs. -/
def stuck (r : Read) (key : Key) : Bool :=
  (r.probes.bind (·.get? key)).any (·.setupFailed) && decide (key.2 ∈ r.workingNodes)

inductive Outcome
  | absent
  | sentinels (fresh : Bool)
  | timedOut (ping : Option Value)
  | measured (ok : Bool) (ping latency gbps : Option Value)

def resultOutcome (cfg : Settings) (now : Value) (data : Data) : Except Exc Outcome := do
  let timestamp ← timestampOf data
  if le timestamp (.finite 0) || lt (add now cfg.clockSkewToleranceS) timestamp then
    return .sentinels false
  if lt cfg.resultStaleWindowS (sub now timestamp) && okOf data then return .sentinels false
  let ping ← NodeMonitor.measured data "ping_ms"
  if timeoutOf data then return .timedOut ping
  let latency ← NodeMonitor.measured data "metadata_ms"
  let gbps ← NodeMonitor.measured data "throughput_gbps"
  return .measured (okOf data) ping latency gbps

def rowOutcome (cfg : Settings) (r : Read) (at_ : String × Row) : Except Exc Outcome :=
  if !at_.2.ready then .ok .absent
  else if stuck r (keyOf at_) then .ok (.sentinels true)
  else
    match r.cache.get? (keyOf at_) with
    | none | some [] => .ok (.sentinels false)
    | some data => resultOutcome cfg r.now data

/-- The verdict of a completed check. -/
def putVerdict (st : Series) (labels : Labels) (ok : Bool) : Series :=
  put (put st .valid labels (bit ok)) .resultFresh labels (.finite 1)

def Outcome.write (cfg : Settings) (labels : Labels) (probeUp : Option Bool) (st : Series) :
    Outcome → Series
  | .absent => clearMountGauges st labels
  | .sentinels fresh => publishSentinels cfg (publishProbeUp st labels probeUp) labels fresh
  | .timedOut ping =>
    let st := putVerdict (publishProbeUp st labels probeUp) labels false
    let st := put st .pingMs labels (ping.getD (timeoutMs cfg.pingTimeoutS))
    let st := put st .metadataLatencyMs labels (timeoutMs cfg.metadataTimeoutS)
    put st .dataRateGbps labels (.finite 0)
  | .measured ok ping latency gbps =>
    let st := putVerdict (publishProbeUp st labels probeUp) labels ok
    let st := putMeasured st .pingMs labels ping
    let st := putMeasured st .metadataLatencyMs labels latency
    let st := putRate st labels ok gbps
    if ok then st
    else putSentinel (putSentinel st .pingMs labels cfg.pingTimeoutS ping) .metadataLatencyMs labels
      cfg.metadataTimeoutS latency

theorem publishResult_eq (cfg : Settings) (now : Value) (st : Series) (labels : Labels)
    (probeUp : Option Bool) (data : Data) :
    publishResult cfg now (publishProbeUp st labels probeUp) labels data =
      (resultOutcome cfg now data).map (Outcome.write cfg labels probeUp st) := by
  unfold publishResult resultOutcome
  cases timestampOf data with
  | error e => rfl
  | ok timestamp =>
    simp only [ok_bind]
    split_ifs with hwrong hstale htimeout
    · rfl
    · rfl
    · have hfailed : okOf data = false := by simp [okOf, htimeout]
      unfold publishTimeout
      rw [hfailed]
      cases NodeMonitor.measured data "ping_ms" <;> rfl
    · unfold publishMeasured
      cases NodeMonitor.measured data "ping_ms" with
      | error e => rfl
      | ok ping =>
        cases NodeMonitor.measured data "metadata_ms" with
        | error e => rfl
        | ok latency => cases NodeMonitor.measured data "throughput_gbps" <;> rfl

theorem publishRow_eq (cfg : Settings) (r : Read) (st : Series) (at_ : String × Row) :
    publishRow cfg r st at_ = (rowOutcome cfg r at_).map
      (Outcome.write cfg (labelsOf at_) (probeUpOf r (keyOf at_)) st) := by
  obtain ⟨mount, row⟩ := at_
  have hup : r.probes.map (fun _ =>
      (r.probes.bind (·.get? (sanitizedMountName mount, row.name))).any (·.ready) &&
        (r.fetched.get? (sanitizedMountName mount, row.name)).isSome) =
      probeUpOf r (keyOf (mount, row)) := by
    unfold probeUpOf
    cases r.probes <;> rfl
  have hsame : ((r.probes.bind (·.get? (sanitizedMountName mount, row.name))).any (·.setupFailed) &&
      decide (row.name ∈ r.workingNodes)) = stuck r (keyOf (mount, row)) := rfl
  unfold publishRow
  dsimp only
  rw [hup, hsame]
  cases hready : row.ready with
  | false => simp [rowOutcome, hready, Except.map, Outcome.write, labelsOf]
  | true =>
    cases hstuck : stuck r (keyOf (mount, row)) with
    | true =>
      rw [if_neg (by simp), if_pos rfl]
      simp [rowOutcome, hready, hstuck, Except.map, Outcome.write, labelsOf]
    | false =>
      rw [if_neg (by simp), if_neg (by simp)]
      simp only [rowOutcome, hready, hstuck, Bool.not_true, Bool.false_eq_true, if_false]
      show (match r.cache.get? (keyOf (mount, row)) with
        | none | some [] => _
        | some data => _) = _
      split
      · rfl
      · rfl
      · exact publishResult_eq ..

/-- The readings that a success comes without. -/
def Outcome.unread : Outcome → List Gauge
  | .measured true ping latency _ =>
    (if ping.isNone then [.pingMs] else []) ++ if latency.isNone then [.metadataLatencyMs] else []
  | _ => []

/-- The gauges of the label set on which two states agree. -/
def AgreeOn (gauges : List Gauge) (labels : Labels) (st₁ st₂ : Series) : Prop :=
  ∀ g ∈ gauges, st₁.get? (g, labels) = st₂.get? (g, labels)

section Agree
variable {gauges : List Gauge} {labels : Labels} {st₁ st₂ : Series}

theorem agreeOn_put (h : AgreeOn gauges labels st₁ st₂) (gauge : Gauge) (x : Value) :
    AgreeOn (gauge :: gauges) labels (put st₁ gauge labels x) (put st₂ gauge labels x) := by
  intro g hg
  unfold put
  rw [Dict.get?_set, Dict.get?_set]
  split_ifs with heq
  · rfl
  · rcases List.mem_cons.mp hg with rfl | hmem
    · exact absurd rfl heq
    · exact h g hmem

theorem agreeOn_clear (h : AgreeOn gauges labels st₁ st₂) (these : List Gauge) :
    AgreeOn (these ++ gauges) labels (clearGauges st₁ labels these)
      (clearGauges st₂ labels these) := by
  intro g hg
  rw [get?_clearGauges, get?_clearGauges]
  split_ifs with heq
  · rfl
  · rcases List.mem_append.mp hg with hmem | hmem
    · exact absurd ⟨rfl, hmem⟩ heq
    · exact h g hmem

theorem agreeOn_publishProbeUp (labels : Labels) (st₁ st₂ : Series) (ready : Option Bool) :
    AgreeOn [.probeUp] labels (publishProbeUp st₁ labels ready)
      (publishProbeUp st₂ labels ready) := by
  have hnone : AgreeOn [] labels st₁ st₂ := by simp [AgreeOn]
  cases ready with
  | none => exact agreeOn_clear hnone [.probeUp]
  | some ready => exact agreeOn_put hnone .probeUp (bit ready)

theorem agreeOn_putMeasured (h : AgreeOn gauges labels st₁ st₂) (gauge : Gauge)
    (x : Option Value) :
    AgreeOn ((if x.isNone then [] else [gauge]) ++ gauges) labels
      (putMeasured st₁ gauge labels x) (putMeasured st₂ gauge labels x) := by
  cases x with
  | none => exact h
  | some x => exact agreeOn_put h gauge x

theorem agreeOn_putRate (h : AgreeOn gauges labels st₁ st₂) (ok : Bool) (x : Option Value) :
    AgreeOn (.dataRateGbps :: gauges) labels (putRate st₁ labels ok x)
      (putRate st₂ labels ok x) := by
  cases x with
  | some x => exact agreeOn_put h .dataRateGbps x
  | none =>
    cases ok with
    | true => exact agreeOn_clear h [.dataRateGbps]
    | false => exact agreeOn_put h .dataRateGbps (.finite 0)

theorem agreeOn_putSentinel (h : AgreeOn gauges labels st₁ st₂) (gauge : Gauge) (seconds : Value)
    (x : Option Value) :
    AgreeOn ((if x.isNone then [gauge] else []) ++ gauges) labels
      (putSentinel st₁ gauge labels seconds x) (putSentinel st₂ gauge labels seconds x) := by
  cases x with
  | none => exact agreeOn_put h gauge (timeoutMs seconds)
  | some x => exact h

theorem agreeOn_putVerdict (h : AgreeOn gauges labels st₁ st₂) (ok : Bool) :
    AgreeOn (.resultFresh :: .valid :: gauges) labels (putVerdict st₁ labels ok)
      (putVerdict st₂ labels ok) :=
  agreeOn_put (agreeOn_put h .valid (bit ok)) .resultFresh (.finite 1)

end Agree

/-- Whatever was there before, a row writes the same, but for the readings it comes without. -/
theorem Outcome.write_agree (cfg : Settings) (labels : Labels) (probeUp : Option Bool)
    (st₁ st₂ : Series) (o : Outcome) {g : Gauge} (hg : g ∉ o.unread) :
    (o.write cfg labels probeUp st₁).get? (g, labels) =
      (o.write cfg labels probeUp st₂).get? (g, labels) := by
  have hup := agreeOn_publishProbeUp labels st₁ st₂ probeUp
  cases o with
  | absent =>
    unfold Outcome.write
    rw [get?_clearMountGauges, get?_clearMountGauges]
    simp
  | sentinels fresh =>
    have hall := agreeOn_put (agreeOn_put (agreeOn_put (agreeOn_put (agreeOn_put hup .valid
      (.finite 0)) .pingMs (timeoutMs cfg.pingTimeoutS)) .metadataLatencyMs
      (timeoutMs cfg.metadataTimeoutS)) .dataRateGbps (.finite 0)) .resultFresh (bit fresh)
    exact hall g (by cases g <;> decide)
  | timedOut ping =>
    have hall := agreeOn_put (agreeOn_put (agreeOn_put (agreeOn_putVerdict hup false) .pingMs
      (ping.getD (timeoutMs cfg.pingTimeoutS))) .metadataLatencyMs
      (timeoutMs cfg.metadataTimeoutS)) .dataRateGbps (.finite 0)
    exact hall g (by cases g <;> decide)
  | measured ok ping latency gbps =>
    have hread := agreeOn_putRate (agreeOn_putMeasured (agreeOn_putMeasured
      (agreeOn_putVerdict hup ok) .pingMs ping) .metadataLatencyMs latency) ok gbps
    cases ok with
    | true =>
      refine hread g ?_
      revert hg
      cases g <;> cases ping <;> cases latency <;> simp [Outcome.unread]
    | false =>
      have hall := agreeOn_putSentinel (agreeOn_putSentinel hread .pingMs cfg.pingTimeoutS ping)
        .metadataLatencyMs cfg.metadataTimeoutS latency
      refine hall g ?_
      cases g <;> cases ping <;> cases latency <;> simp

theorem touches_publishProbeUp_of_mem {gauges : List Gauge} (hg : .probeUp ∈ gauges)
    (labels : Labels) (st : Series) (ready : Option Bool) :
    Touches gauges labels st (publishProbeUp st labels ready) := by
  cases ready with
  | none => exact touches_clear (by simpa using hg)
  | some ready => exact touches_put hg _

/-- What a success touches: of the readings only those it comes with. -/
theorem touches_success (gauges : List Gauge) (cfg : Settings) (labels : Labels)
    (probeUp : Option Bool) (st : Series) {ping latency : Option Value} (gbps : Option Value)
    (hrest : ∀ g ∈ [Gauge.probeUp, .valid, .resultFresh, .dataRateGbps], g ∈ gauges)
    (hping : ping = none ∨ .pingMs ∈ gauges) (hlatency : latency = none ∨ .metadataLatencyMs ∈ gauges) :
    Touches gauges labels st
      ((Outcome.measured true ping latency gbps).write cfg labels probeUp st) := by
  have hverdict : Touches gauges labels st
      (putVerdict (publishProbeUp st labels probeUp) labels true) :=
    ((touches_publishProbeUp_of_mem (hrest _ (by decide)) labels st probeUp).trans
      (touches_put (hrest _ (by decide)) _)).trans (touches_put (hrest _ (by decide)) _)
  have hfirst : Touches gauges labels st
      (putMeasured (putVerdict (publishProbeUp st labels probeUp) labels true) .pingMs labels
        ping) := by
    rcases hping with rfl | hmem
    · exact hverdict
    · exact hverdict.trans (touches_putMeasured hmem ping)
  have hsecond : Touches gauges labels st
      (putMeasured (putMeasured (putVerdict (publishProbeUp st labels probeUp) labels true) .pingMs
        labels ping) .metadataLatencyMs labels latency) := by
    rcases hlatency with rfl | hmem
    · exact hfirst
    · exact hfirst.trans (touches_putMeasured hmem latency)
  cases gbps with
  | some x => exact hsecond.trans (touches_put (hrest _ (by decide)) x)
  | none => exact hsecond.trans (touches_clear (by simpa using hrest .dataRateGbps (by decide)))

theorem Outcome.write_touches (cfg : Settings) (labels : Labels) (probeUp : Option Bool)
    (st : Series) (o : Outcome) :
    Touches allMountGauges labels st (o.write cfg labels probeUp st) := by
  have hup := touches_publishProbeUp_of_mem (by decide : .probeUp ∈ allMountGauges) labels st probeUp
  have hverdict (ok : Bool) : Touches allMountGauges labels st
      (putVerdict (publishProbeUp st labels probeUp) labels ok) :=
    (hup.trans (touches_put (by decide) _)).trans (touches_put (by decide) _)
  cases o with
  | absent => exact touches_clear fun g hg => hg
  | sentinels fresh => exact hup.trans (touches_publishSentinels fresh)
  | timedOut ping =>
    exact (((hverdict false).trans (touches_put (by decide) _)).trans
      (touches_put (by decide) _)).trans (touches_put (by decide) _)
  | measured ok ping latency gbps =>
    cases ok with
    | true =>
      exact touches_success _ cfg labels probeUp st gbps (by decide) (.inr (by decide))
        (.inr (by decide))
    | false =>
      exact (((((hverdict false).trans (touches_putMeasured (by decide) ping)).trans
        (touches_putMeasured (by decide) latency)).trans (touches_putRate false gbps).all).trans
        (touches_putSentinel (by decide) _ ping)).trans (touches_putSentinel (by decide) _ latency)

/-- A reading that a success comes without stays as it was. -/
theorem Outcome.write_left (cfg : Settings) (labels : Labels) (probeUp : Option Bool)
    (st : Series) (o : Outcome) {g : Gauge} (hg : g ∈ o.unread) :
    (o.write cfg labels probeUp st).get? (g, labels) = st.get? (g, labels) := by
  cases o with
  | absent => cases hg
  | sentinels fresh => cases hg
  | timedOut ping => cases hg
  | measured ok ping latency gbps =>
    cases ok with
    | false => cases hg
    | true =>
      cases ping with
      | none =>
        cases latency with
        | none =>
          refine (touches_success [.probeUp, .valid, .resultFresh, .dataRateGbps] cfg
            labels probeUp st gbps (by decide) (.inl rfl) (.inl rfl)).keeps ?_
          revert hg
          cases g <;> simp [Outcome.unread]
        | some latency =>
          refine (touches_success [.probeUp, .valid, .resultFresh, .dataRateGbps,
            .metadataLatencyMs] cfg labels probeUp st gbps (by decide) (.inl rfl)
            (.inr (by decide))).keeps ?_
          revert hg
          cases g <;> simp [Outcome.unread]
      | some ping =>
        cases latency with
        | none =>
          refine (touches_success [.probeUp, .valid, .resultFresh, .dataRateGbps,
            .pingMs] cfg labels probeUp st gbps (by decide) (.inr (by decide)) (.inl rfl)).keeps ?_
          revert hg
          cases g <;> simp [Outcome.unread]
        | some latency => cases hg

theorem Outcome.write_congr {cfg : Settings} {labels : Labels} {probeUp : Option Bool}
    {st₁ st₂ : Series} (o : Outcome)
    (h : ∀ g, st₁.get? (g, labels) = st₂.get? (g, labels)) (g : Gauge) :
    (o.write cfg labels probeUp st₁).get? (g, labels) =
      (o.write cfg labels probeUp st₂).get? (g, labels) := by
  by_cases hg : g ∈ o.unread
  · rw [o.write_left cfg labels probeUp st₁ hg, o.write_left cfg labels probeUp st₂ hg]
    exact h g
  · exact o.write_agree cfg labels probeUp st₁ st₂ hg

section Rows
variable {cfg : Settings} {r : Read} {st st' : Series}

theorem publishRow_ok {at_ : String × Row} (h : publishRow cfg r st at_ = .ok st') :
    ∃ o, rowOutcome cfg r at_ = .ok o ∧
      st' = o.write cfg (labelsOf at_) (probeUpOf r (keyOf at_)) st := by
  rw [publishRow_eq] at h
  cases ho : rowOutcome cfg r at_ with
  | error e =>
    rw [ho] at h
    cases h
  | ok o =>
    rw [ho] at h
    exact ⟨o, rfl, (Except.ok.inj h).symm⟩

/-- The rows are published if each of them can be read. -/
theorem publishRows_of_read {rows : List (String × Row)}
    (h : ∀ at_ ∈ rows, ∃ o, rowOutcome cfg r at_ = .ok o) (st : Series) :
    ∃ st', rows.foldlM (publishRow cfg r) st = .ok st' := by
  induction rows generalizing st with
  | nil => exact ⟨st, rfl⟩
  | cons x rows ih =>
    obtain ⟨o, ho⟩ := h x List.mem_cons_self
    rw [List.foldlM_cons, publishRow_eq, ho]
    exact ih (fun at_ hat => h at_ (List.mem_cons_of_mem x hat)) _

theorem read_of_publishRows {rows : List (String × Row)}
    (h : rows.foldlM (publishRow cfg r) st = .ok st') :
    ∀ at_ ∈ rows, ∃ o, rowOutcome cfg r at_ = .ok o := by
  induction rows generalizing st with
  | nil => simp
  | cons x rows ih =>
    rw [List.foldlM_cons] at h
    obtain ⟨mid, hx, hrest⟩ := except_bind_ok h
    obtain ⟨o, ho, -⟩ := publishRow_ok hx
    intro at_ hat
    rcases List.mem_cons.mp hat with rfl | hmem
    · exact ⟨o, ho⟩
    · exact ih hrest at_ hmem

/-- Each label set is written once, over what it had before the pass. -/
theorem publishRows_write {rows : List (String × Row)}
    (hinj : ∀ a ∈ rows, ∀ b ∈ rows, labelsOf a = labelsOf b → a = b)
    (h : rows.foldlM (publishRow cfg r) st = .ok st') :
    (∀ g l, (∀ at_ ∈ rows, l ≠ labelsOf at_) → st'.get? (g, l) = st.get? (g, l)) ∧
      ∀ at_ ∈ rows, ∃ o, rowOutcome cfg r at_ = .ok o ∧
        ∀ g, st'.get? (g, labelsOf at_) =
          (o.write cfg (labelsOf at_) (probeUpOf r (keyOf at_)) st).get? (g, labelsOf at_) := by
  induction rows generalizing st with
  | nil =>
    obtain rfl := Except.ok.inj h
    exact ⟨fun _ _ _ => rfl, by simp⟩
  | cons x rows ih =>
    rw [List.foldlM_cons] at h
    obtain ⟨mid, hx, hrest⟩ := except_bind_ok h
    obtain ⟨o, ho, rfl⟩ := publishRow_ok hx
    have htouches := o.write_touches cfg (labelsOf x) (probeUpOf r (keyOf x)) st
    have hinj' : ∀ a ∈ rows, ∀ b ∈ rows, labelsOf a = labelsOf b → a = b :=
      fun a ha b hb => hinj a (List.mem_cons_of_mem _ ha) b (List.mem_cons_of_mem _ hb)
    obtain ⟨hkeeps, hall⟩ := ih hinj' hrest
    refine ⟨?_, ?_⟩
    · intro g l hl
      rw [hkeeps g l fun at_ hat => hl at_ (List.mem_cons_of_mem _ hat)]
      exact htouches g l (.inl (hl x List.mem_cons_self))
    · intro at_ hat
      by_cases hsame : at_ = x
      · subst hsame
        by_cases hlater : at_ ∈ rows
        · obtain ⟨o', ho', hwritten⟩ := hall at_ hlater
          obtain rfl : o = o' := Except.ok.inj (ho.symm.trans ho')
          refine ⟨o, ho, fun g => ?_⟩
          rw [hwritten g]
          by_cases hg : g ∈ o.unread
          · exact o.write_left cfg _ _ _ hg
          · exact o.write_agree cfg _ _ _ _ hg
        · refine ⟨o, ho, fun g => hkeeps g _ fun b hb heq => hlater ?_⟩
          exact hinj at_ List.mem_cons_self b (List.mem_cons_of_mem _ hb) heq ▸ hb
      · have hmem : at_ ∈ rows := by
          rcases List.mem_cons.mp hat with heq | hmem
          · exact absurd heq hsame
          · exact hmem
        obtain ⟨o', ho', hwritten⟩ := hall at_ hmem
        refine ⟨o', ho', fun g => ?_⟩
        rw [hwritten g]
        refine o'.write_congr (fun g => htouches g _ (.inl fun heq => hsame ?_)) g
        exact hinj at_ hat x List.mem_cons_self heq

end Rows

section Pass
variable {cfg : Settings} {s t : State} {p : Pass}

/-- `monitor_results_available` of a pass. -/
def availableIn (cfg : Settings) (s : State) (p : Pass) : Value :=
  let expected := ((targetsOf (nodesIn cfg s p) (probesIn cfg s p)).filter (·.2.ready)).map Prod.fst
  let answered := expected.filter fun key => ((fetchedIn cfg s p).get? key).isSome
  if expected.isEmpty then bit !((nodesIn cfg s p).any (·.ready))
  else nearest (answered.length / expected.length)

theorem updateMetrics_eq (cfg : Settings) (s : State) (p : Pass) :
    updateMetrics cfg s p =
      ((cells (nodesIn cfg s p)).foldlM (publishRow cfg (readIn cfg s p))
        (refreshNodeCaches cfg s p).series).map fun series =>
          { (probePods cfg (refreshNodeCaches cfg s p) p).2 with
            resultCache := (readIn cfg s p).cache
            series := series
            resultsAvailable := some (availableIn cfg s p) } := by
  obtain ⟨-, -, hresults, hseries, -⟩ := probePods_spec cfg (refreshNodeCaches cfg s p) p
  have hcache := resultCache_refresh cfg s p
  unfold updateMetrics
  dsimp only
  rw [hseries, hresults, hcache]
  rfl

theorem series_of_step (h : step cfg s p = some t) :
    (cells (nodesIn cfg s p)).foldlM (publishRow cfg (readIn cfg s p))
      (refreshNodeCaches cfg s p).series = .ok t.series := by
  unfold step at h
  rw [updateMetrics_eq] at h
  cases hrows : (cells (nodesIn cfg s p)).foldlM (publishRow cfg (readIn cfg s p))
      (refreshNodeCaches cfg s p).series with
  | error e =>
    rw [hrows] at h
    cases h
  | ok series =>
    rw [hrows] at h
    obtain rfl := Option.some.inj h
    rfl

theorem step_of_rows {series : Series}
    (h : (cells (nodesIn cfg s p)).foldlM (publishRow cfg (readIn cfg s p))
      (refreshNodeCaches cfg s p).series = .ok series) :
    ∃ t, step cfg s p = some t ∧ t.series = series := by
  unfold step
  rw [updateMetrics_eq, h]
  exact ⟨_, rfl, rfl⟩

end Pass

/-- What a row has published when its result raises: the verdict before the readings, and of
those the ones before the one that cannot be read. -/
def publishPart (r : Read) (st : Series) (at_ : String × Row) : Series :=
  let labels := labelsOf at_
  let st := publishProbeUp st labels (probeUpOf r (keyOf at_))
  let data := (r.cache.get? (keyOf at_)).getD []
  match timestampOf data with
  | .error _ => st
  | .ok _ =>
    let st := putVerdict st labels (okOf data)
    match measured data "ping_ms" with
    | .error _ => st
    | .ok ping =>
      let st := putMeasured st .pingMs labels ping
      match measured data "metadata_ms" with
      | .error _ => st
      | .ok latency => putMeasured st .metadataLatencyMs labels latency

def publishUntil (cfg : Settings) (r : Read) : Series → List (String × Row) → Series
  | st, [] => st
  | st, at_ :: rows =>
    match publishRow cfg r st at_ with
    | .ok st' => publishUntil cfg r st' rows
    | .error _ => publishPart r st at_

/-- What a pass leaves: one that raises has read the nodes, the pods and the results, and
published the rows before the one it raises on. -/
def leave (cfg : Settings) (s : State) (p : Pass) : State :=
  match updateMetrics cfg s p with
  | .ok done => done
  | .error _ =>
    { (probePods cfg (refreshNodeCaches cfg s p) p).2 with
      resultCache := (readIn cfg s p).cache
      series := publishUntil cfg (readIn cfg s p) (refreshNodeCaches cfg s p).series
        (cells (nodesIn cfg s p)) }

/-- The state after a history of passes. -/
def reached (cfg : Settings) (passes : List Pass) : State := passes.foldl (leave cfg) start

section Histories
variable {cfg : Settings} {s s' : State} {p : Pass}

theorem afNodes_leave (cfg : Settings) (s : State) (p : Pass) :
    (leave cfg s p).afNodes = (refreshNodeCaches cfg s p).afNodes := by
  obtain ⟨hnodes, -⟩ := probePods_spec cfg (refreshNodeCaches cfg s p) p
  unfold leave
  rw [updateMetrics_eq]
  cases (cells (nodesIn cfg s p)).foldlM (publishRow cfg (readIn cfg s p))
      (refreshNodeCaches cfg s p).series with
  | error e => exact hnodes
  | ok series => exact hnodes

theorem nodesOf_refresh (h : ∃ l?, s.afNodes = nodesOf l?) :
    ∃ l?, (refreshNodeCaches cfg s p).afNodes = nodesOf l? := by
  unfold refreshNodeCaches
  cases listingRead cfg s p with
  | none => exact h
  | some l => exact ⟨some l, rfl⟩

/-- The nodes are those of one listing. -/
theorem nodesOf_reached (cfg : Settings) (passes : List Pass) :
    ∃ l?, (reached cfg passes).afNodes = nodesOf l? := by
  induction passes using List.reverseRecOn with
  | nil => exact ⟨none, rfl⟩
  | append_singleton passes p ih =>
    unfold reached at ih ⊢
    rw [List.foldl_append, List.foldl_cons, List.foldl_nil, afNodes_leave]
    exact nodesOf_refresh ih

theorem nodesOf_nodesIn (cfg : Settings) (p : Pass) (h : ∃ l?, s.afNodes = nodesOf l?) :
    ∃ l?, nodesIn cfg s p = nodesOf l? := by
  unfold nodesIn listAfNodes
  split_ifs
  · exact nodesOf_refresh h
  · exact ⟨none, rfl⟩

theorem labels_inj_nodesIn (cfg : Settings) (p : Pass) (h : ∃ l?, s.afNodes = nodesOf l?) :
    ∀ a ∈ cells (nodesIn cfg s p), ∀ b ∈ cells (nodesIn cfg s p),
      labelsOf a = labelsOf b → a = b := by
  obtain ⟨l?, hl⟩ := nodesOf_nodesIn cfg p h
  rw [hl]
  exact labels_inj

/-- A refresh leaves the label sets of the nodes it lists as they are. -/
theorem series_refresh {mount : String} {row : Row} (hrow : row ∈ nodesIn cfg s p) (g : Gauge) :
    (refreshNodeCaches cfg s p).series.get? (g, labelsOf (mount, row)) =
      s.series.get? (g, labelsOf (mount, row)) := by
  unfold nodesIn listAfNodes at hrow
  split_ifs at hrow with hready
  · unfold refreshNodeCaches at hrow ⊢
    cases hread : listingRead cfg s p with
    | none => rfl
    | some l =>
      rw [hread] at hrow
      have hlisted : l.row? row.name = some row := mem_nodes.mp hrow
      have hname : l.byName.get? row.name = some (row.pool, row.ready) := by
        rw [get?_byName, hlisted]
        rfl
      have hstays : (s.nodePools.any fun e => (l.byName.get? e.1).isNone &&
          inPool e.1 e.2 (g, labelsOf (mount, row))) = false := by
        rw [List.any_eq_false]
        rintro ⟨name, pool⟩ -
        by_cases hsame : row.name = name
        · simp [← hsame, hname]
        · simp [inPool, labelsOf, hsame]
      have hpool : (l.byName.any fun e =>
          inPool e.1 (otherPool e.2.1) (g, labelsOf (mount, row))) = false := by
        rw [List.any_eq_false]
        rintro ⟨name, pool, ready⟩ hmem
        by_cases hsame : row.name = name
        · subst hsame
          have hrow' := (mem_byName.mp hmem).symm.trans hlisted
          have hsame : pool = row.pool := congrArg Row.pool (Option.some.inj hrow')
          cases hpool : row.pool <;> simp [inPool, labelsOf, otherPool, hsame, hpool]
        · simp [inPool, labelsOf, hsame]
      dsimp only
      rw [get?_clearListed, hstays, hpool]
      rfl
  · cases hrow

/-- The probes known have one entry a key. -/
def ToldApart (probes : Option (Dict Key Probe)) : Prop :=
  ∀ d, probes = some d → (d.map Prod.fst).Nodup

theorem nodup_addPods (cfg : Settings) (now : Value) (pods : List Pod) :
    ((pods.foldl (addPod cfg now) []).map Prod.fst).Nodup := by
  induction pods using List.reverseRecOn with
  | nil => exact List.nodup_nil
  | append_singleton pods pod ih =>
    rw [List.foldl_append, List.foldl_cons, List.foldl_nil]
    generalize pods.foldl (addPod cfg now) [] = probes at ih ⊢
    unfold addPod
    split_ifs
    · exact ih
    · exact Dict.nodup_set ih _ _

theorem nodup_listProbePods (cfg : Settings) (now : Value) (pods : List Pod) :
    ((listProbePods cfg now pods).map Prod.fst).Nodup := by
  have hadded := nodup_addPods cfg now pods
  rw [listProbePods, List.map_map]
  exact hadded

theorem toldApart_probePods (h : ToldApart s.probeCache) :
    ToldApart (probePods cfg s p).1 ∧ ToldApart (probePods cfg s p).2.probeCache := by
  unfold probePods
  dsimp only
  split
  · next probes hprobes =>
    have hlisted : ToldApart (some probes) := by
      rintro d ⟨⟩
      split_ifs at hprobes
      obtain ⟨pods, -, rfl⟩ := Option.map_eq_some_iff.mp hprobes
      exact nodup_listProbePods cfg p.now pods
    exact ⟨hlisted, hlisted⟩
  · split_ifs
    · exact ⟨h, h⟩
    · exact ⟨nofun, h⟩

theorem probeCache_refresh (cfg : Settings) (s : State) (p : Pass) :
    (refreshNodeCaches cfg s p).probeCache = s.probeCache := by
  unfold refreshNodeCaches
  cases listingRead cfg s p <;> rfl

theorem toldApart_probesIn (h : ToldApart s.probeCache) : ToldApart (probesIn cfg s p) :=
  (toldApart_probePods (probeCache_refresh cfg s p ▸ h)).1

theorem probeCache_leave (cfg : Settings) (s : State) (p : Pass) :
    (leave cfg s p).probeCache = (probePods cfg (refreshNodeCaches cfg s p) p).2.probeCache := by
  unfold leave
  rw [updateMetrics_eq]
  cases (cells (nodesIn cfg s p)).foldlM (publishRow cfg (readIn cfg s p))
      (refreshNodeCaches cfg s p).series <;> rfl

theorem toldApart_reached (cfg : Settings) (passes : List Pass) :
    ToldApart (reached cfg passes).probeCache := by
  induction passes using List.reverseRecOn with
  | nil => exact nofun
  | append_singleton passes p ih =>
    unfold reached at ih ⊢
    rw [List.foldl_append, List.foldl_cons, List.foldl_nil, probeCache_leave]
    refine (toldApart_probePods ?_).2
    rw [probeCache_refresh]
    exact ih

end Histories

def isNull : Json → Bool
  | .null => true
  | _ => false

/-- The result is taken for a recent success. -/
def succeeds (cfg : Settings) (now : Value) (data : Data) : Bool :=
  match timestampOf data with
  | .error _ => false
  | .ok timestamp =>
    !(le timestamp (.finite 0) || lt (add now cfg.clockSkewToleranceS) timestamp) &&
      !lt cfg.resultStaleWindowS (sub now timestamp) && okOf data

/-- The readings of a mount and node that are null in a result published as a success. -/
def unread (cfg : Settings) (r : Read) (at_ : String × Row) : List Gauge :=
  match r.cache.get? (keyOf at_) with
  | none => []
  | some data =>
    if at_.2.ready && !stuck r (keyOf at_) && succeeds cfg r.now data then
      (if isNull (data.getD "ping_ms" .null) then [.pingMs] else []) ++
        if isNull (data.getD "metadata_ms" .null) then [.metadataLatencyMs] else []
    else []

/-- The pass finds the same nodes, the same probes and the same results in both states. -/
structure SameBooks (cfg : Settings) (p : Pass) (s s' : State) : Prop where
  nodes : nodesIn cfg s p = nodesIn cfg s' p
  probes : (probesIn cfg s p).map Dict.get? = (probesIn cfg s' p).map Dict.get?
  results : ∀ key, s.resultCache.get? key = s'.resultCache.get? key

theorem get?_fetchAll (targets : Dict Key Probe) (answers : Dict Key Data) (key : Key) :
    (fetchAll targets answers).get? key = (targets.get? key).bind fun _ => answers.get? key := by
  induction targets with
  | nil => rfl
  | cons e targets ih =>
    unfold fetchAll at ih ⊢
    rw [Dict.get?_cons]
    by_cases hkey : key = e.1
    · subst hkey
      cases hget : answers.get? e.1 with
      | none =>
        rw [List.filterMap_cons_none (by rw [hget]; rfl), ih, hget]
        simp
      | some data =>
        rw [List.filterMap_cons_some (by rw [hget]; rfl), Dict.get?_cons]
        simp
    · rw [if_neg hkey, ← ih]
      cases hget : answers.get? e.1 with
      | none => rw [List.filterMap_cons_none (by rw [hget]; rfl)]
      | some data =>
        rw [List.filterMap_cons_some (by rw [hget]; rfl), Dict.get?_cons, if_neg hkey]

theorem get?_fetchedIn (cfg : Settings) (s : State) (p : Pass) (k : Key) :
    (fetchedIn cfg s p).get? k =
      ((targetsOf (nodesIn cfg s p) (probesIn cfg s p)).get? k).bind fun _ => p.answers.get? k :=
  get?_fetchAll _ _ _

theorem get?_cache (cfg : Settings) (s : State) (p : Pass) (k : Key) :
    (readIn cfg s p).cache.get? k = ((fetchedIn cfg s p).get? k).or (s.resultCache.get? k) :=
  Dict.get?_overlay _ _ _

/-- Every gauge of every mount of the Ready nodes has the same value, or none, in both. -/
def SameGauges (rows : List Row) (st st' : Series) : Prop :=
  ∀ mount ∈ mounts, ∀ row ∈ rows, row.ready = true →
    ∀ g, st.get? (g, labelsOf (mount, row)) = st'.get? (g, labelsOf (mount, row))

section TwoHistories
variable {cfg : Settings} {s s' t t' : State} {p : Pass}

theorem probes_congr {a b : State} (hk : a.k8sReady = b.k8sReady)
    (hp : a.probeCache = b.probeCache) (ht : a.probeCacheTs = b.probeCacheTs) :
    (probePods cfg a p).1 = (probePods cfg b p).1 := by
  unfold probePods
  dsimp only
  rw [hk, hp, ht]
  generalize (if (b.k8sReady || p.initPods) = true then
    p.pods.map (listProbePods cfg p.now) else none) = found
  cases found with
  | some probes => rfl
  | none =>
    dsimp only
    split_ifs <;> rfl

/-- Two states with the same caches, of the same age, are such states. -/
theorem sameBooks_of_caches (hk : s.k8sReady = s'.k8sReady) (hn : s.afNodes = s'.afNodes)
    (hr : s.lastNodeRefresh = s'.lastNodeRefresh) (hp : s.probeCache = s'.probeCache)
    (ht : s.probeCacheTs = s'.probeCacheTs) (hc : s.resultCache = s'.resultCache) :
    SameBooks cfg p s s' := by
  have hread : listingRead cfg s p = listingRead cfg s' p := by
    unfold listingRead
    rw [hk, hn, hr]
  refine ⟨?_, congrArg (Option.map Dict.get?) ?_, fun key => by rw [hc]⟩
  · unfold nodesIn listAfNodes refreshNodeCaches
    rw [hread, hk]
    cases listingRead cfg s' p with
    | none =>
      dsimp only
      rw [hn]
    | some l => rfl
  · unfold probesIn refreshNodeCaches
    rw [hread]
    cases listingRead cfg s' p with
    | none => exact probes_congr (by rw [hk]) hp ht
    | some l => exact probes_congr (by rw [hk]) hp ht

theorem isNone_measured {data : Data} {key : String} {x : Option Value}
    (h : measured data key = .ok x) : x.isNone = isNull (data.getD key .null) := by
  unfold measured at h
  split at h
  · next hnull =>
    obtain rfl := Except.ok.inj h
    rw [hnull]
    rfl
  · next hnull =>
    have hsome : isNull (data.getD key .null) = false := by
      cases hj : data.getD key .null with
      | null => exact absurd hj (by simpa using hnull)
      | _ => rfl
    rw [hsome]
    cases hf : (data.getD key .null).toFloat with
    | error e =>
      rw [hf] at h
      cases h
    | ok y =>
      rw [hf] at h
      obtain rfl := Except.ok.inj h
      rfl

theorem unread_resultOutcome {now : Value} {data : Data} {o : Outcome}
    (h : resultOutcome cfg now data = .ok o) :
    o.unread = if succeeds cfg now data then
      (if isNull (data.getD "ping_ms" .null) then [.pingMs] else []) ++
        if isNull (data.getD "metadata_ms" .null) then [.metadataLatencyMs] else []
      else [] := by
  obtain ⟨timestamp, hstamp, h⟩ := except_bind_ok h
  unfold succeeds
  rw [hstamp]
  dsimp only at h ⊢
  by_cases hwrong : (le timestamp (.finite 0) ||
      lt (add now cfg.clockSkewToleranceS) timestamp) = true
  · rw [if_pos hwrong] at h
    obtain rfl := Except.ok.inj h
    simp [hwrong, Outcome.unread]
  rw [if_neg hwrong] at h
  by_cases hstale : (lt cfg.resultStaleWindowS (sub now timestamp) && okOf data) = true
  · rw [if_pos hstale] at h
    obtain rfl := Except.ok.inj h
    simp [(Bool.and_eq_true_iff.mp hstale).1, Outcome.unread]
  rw [if_neg hstale] at h
  obtain ⟨ping, hping, h⟩ := except_bind_ok h
  split_ifs at h with htimeout
  · obtain rfl := Except.ok.inj h
    simp [okOf, htimeout, Outcome.unread]
  · obtain ⟨latency, hlatency, h⟩ := except_bind_ok h
    obtain ⟨gbps, -, h⟩ := except_bind_ok h
    obtain rfl := Except.ok.inj h
    cases hok : okOf data with
    | false => simp [Outcome.unread]
    | true =>
      have hrecent : lt cfg.resultStaleWindowS (sub now timestamp) = false := by
        simpa [hok] using hstale
      simp [Outcome.unread, hwrong, hrecent, ← isNone_measured hping, ← isNone_measured hlatency]

theorem unread_eq {r : Read} {at_ : String × Row} {o : Outcome}
    (h : rowOutcome cfg r at_ = .ok o) : unread cfg r at_ = o.unread := by
  unfold rowOutcome at h
  unfold unread
  split_ifs at h with hready hstuck
  · obtain rfl := Except.ok.inj h
    have hnot : at_.2.ready = false := by simpa using hready
    cases r.cache.get? (keyOf at_) <;> simp [hnot, Outcome.unread]
  · obtain rfl := Except.ok.inj h
    cases r.cache.get? (keyOf at_) <;> simp [hstuck, Outcome.unread]
  · have hready : at_.2.ready = true := by simpa using hready
    have hstuck : stuck r (keyOf at_) = false := by simpa using hstuck
    split at h
    · next hnone =>
      obtain rfl := Except.ok.inj h
      simp [hnone, Outcome.unread]
    · next hempty =>
      obtain rfl := Except.ok.inj h
      have hundated : succeeds cfg r.now [] = false := rfl
      simp [hempty, hundated, Outcome.unread]
    · next data _ hdata =>
      rw [hdata]
      simp only [hready, hstuck, Bool.not_false, Bool.true_and]
      exact (unread_resultOutcome h).symm

/-- The reads are the same of every row. -/
structure SameRead (r r' : Read) : Prop where
  now : r.now = r'.now
  stuck : ∀ key, stuck r key = stuck r' key
  probeUp : ∀ key, probeUpOf r key = probeUpOf r' key
  cache : ∀ key, r.cache.get? key = r'.cache.get? key

theorem get?_targetsIn (hn : ToldApart (probesIn cfg s p)) (key : Key) :
    (targetsOf (nodesIn cfg s p) (probesIn cfg s p)).get? key =
      (((probesIn cfg s p).map Dict.get?).bind (· key)).filter fun probe => probe.ip ≠ "" &&
        (nodesIn cfg s p).any fun row => row.ready && row.name = key.2 := by
  unfold targetsOf
  cases hp : probesIn cfg s p with
  | none => rfl
  | some probes => exact Dict.get?_filter (hn probes hp) _ key

theorem mem_targetsIn (hn : ToldApart (probesIn cfg s p)) {e : Key × Probe} :
    e ∈ targetsOf (nodesIn cfg s p) (probesIn cfg s p) ↔
      (targetsOf (nodesIn cfg s p) (probesIn cfg s p)).get? e.1 = some e.2 := by
  refine Dict.mem_iff_get? ?_
  unfold targetsOf
  cases hp : probesIn cfg s p with
  | none => exact List.nodup_nil
  | some probes => exact (hn probes hp).sublist (List.filter_sublist.map _)

theorem mem_workingNodes {node : String} :
    node ∈ (readIn cfg s p).workingNodes ↔
      ∃ e ∈ targetsOf (nodesIn cfg s p) (probesIn cfg s p), e.2.ready = true ∧
        ((fetchedIn cfg s p).get? e.1).isSome = true ∧ e.1.2 = node := by
  simp only [readIn, List.mem_map, List.mem_filter]
  constructor
  · rintro ⟨key, ⟨⟨e, ⟨he, hready⟩, rfl⟩, hfetched⟩, rfl⟩
    exact ⟨e, he, hready, hfetched, rfl⟩
  · rintro ⟨e, he, hready, hfetched, rfl⟩
    exact ⟨e.1, ⟨⟨e, ⟨he, hready⟩, rfl⟩, hfetched⟩, rfl⟩

theorem sameRead_of_sameBooks (h : SameBooks cfg p s s') (hn : ToldApart (probesIn cfg s p))
    (hn' : ToldApart (probesIn cfg s' p)) : SameRead (readIn cfg s p) (readIn cfg s' p) := by
  have htargets (key : Key) : (targetsOf (nodesIn cfg s p) (probesIn cfg s p)).get? key =
      (targetsOf (nodesIn cfg s' p) (probesIn cfg s' p)).get? key := by
    rw [get?_targetsIn hn, get?_targetsIn hn', h.nodes, h.probes]
  have hfetched (key : Key) : (fetchedIn cfg s p).get? key = (fetchedIn cfg s' p).get? key := by
    rw [get?_fetchedIn, get?_fetchedIn, htargets]
  have hworking (node : String) :
      node ∈ (readIn cfg s p).workingNodes ↔ node ∈ (readIn cfg s' p).workingNodes := by
    rw [mem_workingNodes, mem_workingNodes]
    simp only [mem_targetsIn hn, mem_targetsIn hn', htargets, hfetched]
  have hprobe (key : Key) :
      (probesIn cfg s p).bind (·.get? key) = (probesIn cfg s' p).bind (·.get? key) := by
    have hmap := congrArg (fun probes => probes.bind (· key)) h.probes
    simpa only [Option.bind_map, Function.comp_def] using hmap
  refine ⟨rfl, ?_, ?_, ?_⟩
  · intro key
    show (((probesIn cfg s p).bind (·.get? key)).any (·.setupFailed) &&
      decide (key.2 ∈ (readIn cfg s p).workingNodes)) = _
    rw [hprobe, decide_eq_decide.mpr (hworking key.2)]
    rfl
  · intro key
    have hmap := congrArg (fun probes => probes.map fun get =>
      (get key).any (·.ready) && ((fetchedIn cfg s p).get? key).isSome) h.probes
    simp only [Option.map_map] at hmap
    refine hmap.trans ?_
    rw [hfetched]
    rfl
  · intro key
    rw [get?_cache, get?_cache, hfetched, h.results]

theorem rowOutcome_of_sameRead {r r' : Read} (h : SameRead r r') (at_ : String × Row) :
    rowOutcome cfg r at_ = rowOutcome cfg r' at_ := by
  unfold rowOutcome
  rw [h.stuck, h.cache, h.now]

/-- After a pass that reads the same over two histories, a cell has what the pass wrote, and of
what it left unread what each history had. -/
theorem cell_of_rows (hlisted : ∃ l?, s.afNodes = nodesOf l?)
    (hlisted' : ∃ l?, s'.afNodes = nodesOf l?) (hnodes : nodesIn cfg s p = nodesIn cfg s' p)
    (hsame : SameRead (readIn cfg s p) (readIn cfg s' p)) {series series' : Series}
    (hrows : (cells (nodesIn cfg s p)).foldlM (publishRow cfg (readIn cfg s p))
      (refreshNodeCaches cfg s p).series = .ok series)
    (hrows' : (cells (nodesIn cfg s' p)).foldlM (publishRow cfg (readIn cfg s' p))
      (refreshNodeCaches cfg s' p).series = .ok series')
    {mount : String} (hmount : mount ∈ mounts) {row : Row} (hrow : row ∈ nodesIn cfg s p) :
    ∃ o : Outcome, unread cfg (readIn cfg s p) (mount, row) = o.unread ∧
      (∀ g ∉ o.unread, series.get? (g, labelsOf (mount, row)) =
        series'.get? (g, labelsOf (mount, row))) ∧
      ∀ g ∈ o.unread, series.get? (g, labelsOf (mount, row)) =
          s.series.get? (g, labelsOf (mount, row)) ∧
        series'.get? (g, labelsOf (mount, row)) =
          s'.series.get? (g, labelsOf (mount, row)) := by
  have hrow' : row ∈ nodesIn cfg s' p := hnodes ▸ hrow
  obtain ⟨o, ho, hwritten⟩ := (publishRows_write (labels_inj_nodesIn cfg p hlisted) hrows).2
    (mount, row) (mem_cells.mpr ⟨hmount, hrow⟩)
  obtain ⟨o', ho', hwritten'⟩ := (publishRows_write (labels_inj_nodesIn cfg p hlisted') hrows').2
    (mount, row) (mem_cells.mpr ⟨hmount, hrow'⟩)
  rw [← rowOutcome_of_sameRead hsame] at ho'
  rw [← hsame.probeUp] at hwritten'
  obtain rfl : o = o' := Except.ok.inj (ho.symm.trans ho')
  refine ⟨o, unread_eq ho, fun g hg => ?_, fun g hg => ⟨?_, ?_⟩⟩
  · rw [hwritten, hwritten']
    exact o.write_agree cfg _ _ _ _ hg
  · rw [hwritten, o.write_left cfg _ _ _ hg]
    exact series_refresh hrow g
  · rw [hwritten', o.write_left cfg _ _ _ hg]
    exact series_refresh hrow' g

end TwoHistories

theorem resultCache_leave (cfg : Settings) (s : State) (p : Pass) :
    (leave cfg s p).resultCache = s.resultCache.overlay (fetchedIn cfg s p) := by
  unfold leave
  rw [updateMetrics_eq]
  cases (cells (nodesIn cfg s p)).foldlM (publishRow cfg (readIn cfg s p))
      (refreshNodeCaches cfg s p).series <;> rfl

theorem fetchedIn_eq (cfg : Settings) (s : State) (p : Pass) :
    fetchedIn cfg s p = ((targetsOf (nodesIn cfg s p) (probesIn cfg s p)).map Prod.fst).filterMap
      fun key => (p.answers.get? key).map fun data => (key, data) := by
  rw [List.filterMap_map]
  rfl

/-- A check that failed with nothing measured. -/
def failedResult : Data := [("ok", .bool false), ("timestamp", .int 1700000000)]

/-- A success of a probe that checks no metadata. -/
def pingedResult : Data :=
  [("ok", .bool true), ("timestamp", .int 1700000000), ("ping_ms", .float (.finite 2)),
    ("metadata_ms", .null)]

def measuredResult : Data :=
  [("ok", .bool true), ("timestamp", .int 1700000000), ("ping_ms", .float (.finite 2)),
    ("metadata_ms", .float (.finite 3))]

/-- The history of a success that was pinged, with a failed check before it or not. -/
def history (failed : Bool) : List Pass :=
  (if failed then [answeredPass 1700000010 failedResult] else []) ++
    [answeredPass 1700000010 pingedResult]

/-- The failed check is in no cache any more. -/
theorem sameBooks_history (p : Pass) :
    SameBooks defaults p (reached defaults (history true)) (reached defaults (history false)) := by
  refine sameBooks_of_caches (by decide +kernel) (by decide +kernel) (by decide +kernel)
    (by decide +kernel) (by decide +kernel) ?_
  have hfirst : (targetsOf (nodesIn defaults start (answeredPass 1700000010 failedResult))
      (probesIn defaults start (answeredPass 1700000010 failedResult))).map Prod.fst =
      [("depot", "hammer-a")] := by decide +kernel
  have hsecond : (targetsOf (nodesIn defaults start (answeredPass 1700000010 pingedResult))
      (probesIn defaults start (answeredPass 1700000010 pingedResult))).map Prod.fst =
      [("depot", "hammer-a")] := by decide +kernel
  have hlater : (targetsOf
      (nodesIn defaults (leave defaults start (answeredPass 1700000010 failedResult))
        (answeredPass 1700000010 pingedResult))
      (probesIn defaults (leave defaults start (answeredPass 1700000010 failedResult))
        (answeredPass 1700000010 pingedResult))).map Prod.fst =
      [("depot", "hammer-a")] := by decide +kernel
  show (leave defaults (leave defaults start (answeredPass 1700000010 failedResult))
      (answeredPass 1700000010 pingedResult)).resultCache =
    (leave defaults start (answeredPass 1700000010 pingedResult)).resultCache
  rw [resultCache_leave, resultCache_leave, resultCache_leave, fetchedIn_eq, fetchedIn_eq,
    fetchedIn_eq, hfirst, hsecond, hlater]
  rfl

end PurdueAF.NodeMonitor
