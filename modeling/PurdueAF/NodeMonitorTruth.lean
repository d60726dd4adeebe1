import PurdueAF.NodeMonitor

/-!
# What the mounts' gauges say

Every pass leaves the gauges with what the last listing and the last results say: a mount is
valid only where the last result of a Ready node says so and is recent, and no label set is
exported but those of the nodes that are Ready, under their pool.
-/
namespace PurdueAF.NodeMonitor
open Py Binary64 Machine

inductive Seen
  | pass (now : Value)
  | listing (l : Listing)
  | result (key : Key) (data : Data)

/-- The pass's time, the listing it reads if any, and the results it gets. -/
def note (cfg : Settings) (s : State) (p : Pass) : List Seen :=
  [.pass p.now] ++ ((listingRead cfg s p).toList.map .listing) ++
    (fetchedIn cfg s p).map fun e => .result e.1 e.2

def lastPass (J : List Seen) : Option Value :=
  J.foldl (fun last x => match x with
    | .pass now => some now
    | _ => last) none

def lastListing (J : List Seen) : Option Listing :=
  J.foldl (fun last x => match x with
    | .listing l => some l
    | _ => last) none

def lastResult (key : Key) (J : List Seen) : Option Data :=
  J.foldl (fun last x => match x with
    | .result k data => if k = key then some data else last
    | _ => last) none

/-- The first row of the name: a node labelled both is production. -/
def Listing.row? (l : Listing) (name : String) : Option Row := l.rows.find? (·.name = name)

/-- The result says ok and not timeout, with a timestamp above 0, not later than the pass by more
than the tolerance, and not older than the window. -/
structure Says (cfg : Settings) (now : Value) (data : Data) : Prop where
  ok : (data.getD "ok" (.bool false)).truthy = true
  timeout : (data.getD "timeout" (.bool false)).truthy = false
  recent : ∃ timestamp, timestampOf data = .ok timestamp ∧ lt (.finite 0) timestamp = true ∧
    lt (add now cfg.clockSkewToleranceS) timestamp = false ∧
    lt cfg.resultStaleWindowS (sub now timestamp) = false

/-- The label set is of a node Ready in the last listing, under its pool there. -/
def ReadyIn (J : List Seen) (labels : Labels) : Prop :=
  ∃ l, lastListing J = some l ∧ l.row? labels.node = some ⟨labels.node, labels.nodePool, true⟩

structure Truthful (cfg : Settings) (J : List Seen) (series : Series) : Prop where
  valid : ∀ labels, series.get? (.valid, labels) = some (.finite 1) →
    ReadyIn J labels ∧ series.get? (.resultFresh, labels) = some (.finite 1) ∧
    ∃ now data, lastPass J = some now ∧
      lastResult (sanitizedMountName labels.mountName, labels.node) J = some data ∧
      Says cfg now data
  exported : ∀ gauge labels, (series.get? (gauge, labels)).isSome →
    labels.mountName ∈ mounts ∧ ReadyIn J labels

/-- The timestamp reads as a double that is no number. -/
def undated (data : Data) : Bool :=
  match timestampOf data with
  | .ok .nan => true
  | _ => false

/-- A result that says ok has a number for a timestamp. -/
def Timed (data : Data) : Prop := okOf data = true → undated data = false

/-- Every probe that answers the pass with ok has a number for a timestamp. -/
def Dated (_ : State) (p : Pass) : Prop := ∀ e ∈ p.answers, okOf e.2 = true → undated e.2 = false

instance (s : State) (p : Pass) : Decidable (Dated s p) :=
  inferInstanceAs (Decidable (∀ e ∈ p.answers, _))

section Journal
variable {cfg : Settings} {s : State} {p : Pass} {J : List Seen}

theorem lastPass_results (J : List Seen) (fetched : Dict Key Data) :
    lastPass (J ++ fetched.map fun e => .result e.1 e.2) = lastPass J := by
  induction fetched using List.reverseRecOn with
  | nil => simp
  | append_singleton fetched e ih =>
    rw [List.map_append, ← List.append_assoc, lastPass, List.foldl_append]
    exact ih

theorem lastListing_results (J : List Seen) (fetched : Dict Key Data) :
    lastListing (J ++ fetched.map fun e => .result e.1 e.2) = lastListing J := by
  induction fetched using List.reverseRecOn with
  | nil => simp
  | append_singleton fetched e ih =>
    rw [List.map_append, ← List.append_assoc, lastListing, List.foldl_append]
    exact ih

theorem lastPass_note : lastPass (J ++ note cfg s p) = some p.now := by
  unfold note
  rw [← List.append_assoc, lastPass_results, lastPass, List.foldl_append]
  cases listingRead cfg s p <;> simp

theorem lastListing_note :
    lastListing (J ++ note cfg s p) = (listingRead cfg s p).or (lastListing J) := by
  unfold note
  rw [← List.append_assoc, lastListing_results, lastListing, List.foldl_append]
  cases listingRead cfg s p <;> simp [lastListing]

/-- The results of one pass are one a probe. -/
theorem lastResult_results (J : List Seen) (key : Key) {fetched answers : Dict Key Data}
    (h : ∀ e ∈ fetched, answers.get? e.1 = some e.2) :
    lastResult key (J ++ fetched.map fun e => .result e.1 e.2) =
      (fetched.get? key).or (lastResult key J) := by
  induction fetched generalizing J with
  | nil => simp
  | cons e fetched ih =>
    have htail : ∀ x ∈ fetched, answers.get? x.1 = some x.2 :=
      fun x hx => h x (List.mem_cons_of_mem _ hx)
    rw [List.map_cons, List.append_cons, ih _ htail, Dict.get?_cons]
    have hhead : lastResult key (J ++ [.result e.1 e.2]) =
        if e.1 = key then some e.2 else lastResult key J := by
      simp [lastResult, List.foldl_append]
    rw [hhead]
    by_cases hkey : e.1 = key
    · rw [if_pos hkey, if_pos hkey.symm]
      cases hget : Dict.get? fetched key with
      | none => rfl
      | some data =>
        have hdata := htail _ (Dict.mem_of_get? hget)
        have hfirst := h e List.mem_cons_self
        rw [hkey] at hfirst
        exact congrArg some (Option.some.inj (hdata.symm.trans hfirst))
    · rw [if_neg hkey, if_neg fun h => hkey h.symm]

theorem mem_fetchAll {targets : Dict Key Probe} {answers : Dict Key Data} :
    ∀ e ∈ fetchAll targets answers, answers.get? e.1 = some e.2 := by
  intro e he
  obtain ⟨x, -, hx⟩ := List.mem_filterMap.mp he
  obtain ⟨data, hdata, rfl⟩ := Option.map_eq_some_iff.mp hx
  exact hdata

theorem lastResult_note (key : Key) : lastResult key (J ++ note cfg s p) =
    ((fetchedIn cfg s p).get? key).or (lastResult key J) := by
  have hbefore : lastResult key (J ++ ([.pass p.now] ++
      (listingRead cfg s p).toList.map .listing)) = lastResult key J := by
    cases listingRead cfg s p <;> simp [lastResult, List.foldl_append]
  have hanswers : ∀ e ∈ fetchedIn cfg s p, p.answers.get? e.1 = some e.2 := mem_fetchAll
  unfold note
  rw [← List.append_assoc, lastResult_results _ _ hanswers, hbefore]

end Journal

theorem get?_clearGauges (st : Series) (labels : Labels) (gauges : List Gauge) (g : Gauge)
    (l : Labels) : (clearGauges st labels gauges).get? (g, l) =
      if l = labels ∧ g ∈ gauges then none else st.get? (g, l) := by
  have hpop : ∀ (d : Series) (x : Gauge) (k : Gauge × Labels),
      (d.pop (x, labels)).get? k = if decide (k = (x, labels)) then none else d.get? k := by
    intro d x k
    rw [Dict.get?_pop]
    simp
  unfold clearGauges
  rw [Dict.get?_foldl_drop hpop]
  congr 1
  simp only [List.any_eq_true, decide_eq_true_eq, Prod.mk.injEq, eq_iff_iff]
  constructor
  · rintro ⟨x, hx, rfl, hl⟩
    exact ⟨hl, hx⟩
  · rintro ⟨hl, hg⟩
    exact ⟨g, hg, rfl, hl⟩

theorem get?_clearMountGauges (st : Series) (labels : Labels) (k : Gauge × Labels) :
    (clearMountGauges st labels).get? k = if decide (k.2 = labels) then none else st.get? k := by
  have hall : k.1 ∈ allMountGauges := by cases k.1 <;> decide
  unfold clearMountGauges
  rw [get?_clearGauges]
  simp [hall]

def inPool (node : String) (pool : Pool) (k : Gauge × Labels) : Bool :=
  decide (k.2.mountName ∈ mounts) && k.2.node = node && k.2.nodePool = pool

theorem get?_clearNodePoolGauges (st : Series) (node : String) (pool : Pool)
    (k : Gauge × Labels) : (clearNodePoolGauges st node pool).get? k =
      if inPool node pool k then none else st.get? k := by
  unfold clearNodePoolGauges
  rw [Dict.get?_foldl_drop fun d mount k => get?_clearMountGauges d ⟨mount, node, pool⟩ k]
  congr 1
  obtain ⟨g, m, n, q⟩ := k
  simp only [inPool, List.any_eq_true, decide_eq_true_eq, Labels.mk.injEq, Bool.and_eq_true,
    eq_iff_iff]
  constructor
  · rintro ⟨mount, hmount, rfl, hn, hq⟩
    exact ⟨⟨hmount, hn⟩, hq⟩
  · rintro ⟨⟨hmount, hn⟩, hq⟩
    exact ⟨m, hmount, rfl, hn, hq⟩

theorem get?_clearListed (st : Series) (prevPools : Dict String Pool) (l : Listing)
    (k : Gauge × Labels) : (clearListed st prevPools l).get? k =
      if prevPools.any fun e => (l.byName.get? e.1).isNone && inPool e.1 e.2 k then none
      else if l.byName.any fun e => inPool e.1 (otherPool e.2.1) k then none else st.get? k := by
  have hleft : ∀ (d : Series) (e : String × Pool) (k : Gauge × Labels),
      (if (l.byName.get? e.1).isNone then clearNodePoolGauges d e.1 e.2 else d).get? k =
        if (l.byName.get? e.1).isNone && inPool e.1 e.2 k then none else d.get? k := by
    intro d e k
    cases (l.byName.get? e.1).isNone with
    | true =>
      rw [if_pos rfl, get?_clearNodePoolGauges]
      simp
    | false => simp
  unfold clearListed
  dsimp only
  rw [Dict.get?_foldl_drop hleft, Dict.get?_foldl_drop fun d (e : String × Pool × Bool) k =>
    get?_clearNodePoolGauges d e.1 (otherPool e.2.1) k]

/-- What a refresh leaves is neither of the pool a listed node is not in, nor of the pool a node
that left was in. -/
theorem kept_of_clearListed {st : Series} {prevPools : Dict String Pool} {l : Listing}
    {k : Gauge × Labels} (h : ((clearListed st prevPools l).get? k).isSome) :
    (st.get? k).isSome ∧ (∀ e ∈ l.byName, inPool e.1 (otherPool e.2.1) k = false) ∧
      ∀ e ∈ prevPools, l.byName.get? e.1 = none → inPool e.1 e.2 k = false := by
  rw [get?_clearListed] at h
  split_ifs at h with hgone hmoved
  · cases h
  · cases h
  refine ⟨h, ?_, ?_⟩
  · intro e he
    simp only [List.any_eq_true, not_exists, not_and, Bool.not_eq_true] at hmoved
    exact hmoved e he
  · intro e he hnone
    simp only [List.any_eq_true, not_exists, not_and, Bool.not_eq_true] at hgone
    have hkeep := hgone e he
    rw [hnone] at hkeep
    simpa using hkeep

theorem get?_foldl_addRow (rows : List Row) (d : Dict String (Pool × Bool)) (name : String) :
    (rows.foldl addRow d).get? name =
      (d.get? name).or ((rows.find? (·.name = name)).map fun row => (row.pool, row.ready)) := by
  induction rows generalizing d with
  | nil => simp
  | cons row rows ih =>
    rw [List.foldl_cons, ih, List.find?_cons]
    unfold addRow
    by_cases hname : row.name = name
    · subst hname
      cases hget : d.get? row.name with
      | some v => simp [hget]
      | none => simp [Dict.get?_append, Dict.get?_cons, hget]
    · have hne : ¬name = row.name := fun h => hname h.symm
      cases hget : d.get? row.name with
      | some v => simp [hname]
      | none => simp [Dict.get?_append, Dict.get?_cons, hname, hne]

theorem nodup_foldl_addRow (rows : List Row) {d : Dict String (Pool × Bool)}
    (h : (d.map Prod.fst).Nodup) : ((rows.foldl addRow d).map Prod.fst).Nodup := by
  induction rows generalizing d with
  | nil => exact h
  | cons row rows ih =>
    refine ih ?_
    unfold addRow
    split
    · exact h
    · next hnone =>
      rw [List.map_append, List.map_singleton, ← List.concat_eq_append]
      exact h.concat (Dict.get?_eq_none_iff.mp hnone)

theorem get?_byName (l : Listing) (name : String) :
    l.byName.get? name = (l.row? name).map fun row => (row.pool, row.ready) := by
  unfold Listing.byName Listing.row?
  rw [get?_foldl_addRow]
  simp

theorem mem_byName {l : Listing} {name : String} {v : Pool × Bool} :
    (name, v) ∈ l.byName ↔ l.row? name = some ⟨name, v.1, v.2⟩ := by
  have hnodup : (l.byName.map Prod.fst).Nodup := nodup_foldl_addRow l.rows List.nodup_nil
  constructor
  · intro hmem
    have hget := Dict.get?_of_mem hnodup hmem
    rw [get?_byName, Option.map_eq_some_iff] at hget
    obtain ⟨row, hrow, rfl⟩ := hget
    have hname : row.name = name := by simpa using List.find?_some hrow
    rw [hrow, ← hname]
  · intro hrow
    refine Dict.mem_of_get? ?_
    rw [get?_byName, hrow]
    rfl

theorem mem_nodes {l : Listing} {row : Row} : row ∈ l.nodes ↔ l.row? row.name = some row := by
  have hperm := List.perm_insertionSort (fun a b : Row => a.name ≤ b.name)
    (l.byName.map fun e => ⟨e.1, e.2.1, e.2.2⟩)
  unfold Listing.nodes
  rw [hperm.mem_iff, List.mem_map]
  constructor
  · rintro ⟨e, he, rfl⟩
    exact mem_byName.mp he
  · intro hrow
    exact ⟨(row.name, row.pool, row.ready), mem_byName.mpr hrow, rfl⟩

/-- A label set that a refresh leaves is of a listed node, under its pool. -/
theorem listed_of_cleared {st : Series} {prevPools : Dict String Pool} {l : Listing}
    (hprev : ∀ gauge labels, (st.get? (gauge, labels)).isSome →
      labels.mountName ∈ mounts ∧ (labels.node, labels.nodePool) ∈ prevPools)
    {gauge : Gauge} {labels : Labels}
    (h : ((clearListed st prevPools l).get? (gauge, labels)).isSome) :
    labels.mountName ∈ mounts ∧ ∃ ready, ⟨labels.node, labels.nodePool, ready⟩ ∈ l.nodes := by
  obtain ⟨hwas, hmoved, hgone⟩ := kept_of_clearListed h
  obtain ⟨hmount, hpool⟩ := hprev gauge labels hwas
  refine ⟨hmount, ?_⟩
  cases hget : l.byName.get? labels.node with
  | none =>
    have hnot := hgone _ hpool hget
    simp [inPool, hmount] at hnot
  | some v =>
    have hmem := Dict.mem_of_get? hget
    have hnot := hmoved _ hmem
    simp only [inPool, hmount, decide_true, Bool.true_and, decide_eq_false_iff_not] at hnot
    have hsame : labels.nodePool = v.1 := by
      revert hnot
      cases labels.nodePool <;> cases v.1 <;> simp [otherPool]
    refine ⟨v.2, mem_nodes.mpr ?_⟩
    rw [hsame]
    exact mem_byName.mp hmem

/-- Nothing changes but these gauges of this label set. -/
def Touches (gauges : List Gauge) (labels : Labels) (st st' : Series) : Prop :=
  ∀ g l, l ≠ labels ∨ g ∉ gauges → st'.get? (g, l) = st.get? (g, l)

section Publish
variable {cfg : Settings} {st st' st'' : Series} {labels : Labels} {gauges : List Gauge}

theorem touches_rfl (gauges : List Gauge) (labels : Labels) (st : Series) :
    Touches gauges labels st st := fun _ _ _ => rfl

theorem Touches.trans (h : Touches gauges labels st st') (h' : Touches gauges labels st' st'') :
    Touches gauges labels st st'' :=
  fun g l hgl => (h' g l hgl).trans (h g l hgl)

theorem touches_put {gauge : Gauge} (hg : gauge ∈ gauges) (x : Value) :
    Touches gauges labels st (put st gauge labels x) := by
  intro g l hgl
  refine Dict.get?_set_ne _ _ fun heq => ?_
  obtain ⟨rfl, rfl⟩ := Prod.mk.inj heq
  rcases hgl with hl | hg'
  · exact hl rfl
  · exact hg' hg

theorem touches_clear {these : List Gauge} (hsub : ∀ g ∈ these, g ∈ gauges) :
    Touches gauges labels st (clearGauges st labels these) := by
  intro g l hgl
  rw [get?_clearGauges, if_neg]
  rintro ⟨rfl, hg⟩
  rcases hgl with hl | hg'
  · exact hl rfl
  · exact hg' (hsub g hg)

theorem touches_ite {c : Prop} [Decidable c] {a b : Series} (ha : Touches gauges labels st a)
    (hb : Touches gauges labels st b) : Touches gauges labels st (if c then a else b) := by
  split_ifs
  · exact ha
  · exact hb

/-- The gauges of what a check measures. -/
def measurements : List Gauge := [.pingMs, .dataRateGbps, .metadataLatencyMs]

theorem touches_putMeasured {gauge : Gauge} (hg : gauge ∈ gauges) (x : Option Value) :
    Touches gauges labels st (putMeasured st gauge labels x) := by
  cases x with
  | none => exact touches_rfl _ _ _
  | some x => exact touches_put hg x

theorem touches_putRate (ok : Bool) (x : Option Value) :
    Touches measurements labels st (putRate st labels ok x) := by
  cases x with
  | none => exact touches_ite (touches_clear (by decide)) (touches_put (by decide) _)
  | some x => exact touches_put (by decide) x

theorem touches_putSentinel {gauge : Gauge} (hg : gauge ∈ gauges) (seconds : Value)
    (x : Option Value) : Touches gauges labels st (putSentinel st gauge labels seconds x) := by
  cases x with
  | none => exact touches_put hg _
  | some x => exact touches_rfl _ _ _

theorem touches_publishTimeout {data : Data}
    (h : publishTimeout cfg st labels data = .ok st') : Touches measurements labels st st' := by
  obtain ⟨ping, -, h⟩ := except_bind_ok h
  obtain rfl := Except.ok.inj h
  exact ((touches_put (by decide) _).trans (touches_put (by decide) _)).trans
    (touches_put (by decide) _)

theorem touches_publishMeasured {data : Data} {ok : Bool}
    (h : publishMeasured cfg st labels data ok = .ok st') : Touches measurements labels st st' := by
  obtain ⟨ping, -, h⟩ := except_bind_ok h
  obtain ⟨latency, -, h⟩ := except_bind_ok h
  obtain ⟨gbps, -, h⟩ := except_bind_ok h
  obtain rfl := Except.ok.inj h
  have hping : Touches measurements labels st (putMeasured st .pingMs labels ping) :=
    touches_putMeasured (by decide) ping
  refine ((hping.trans (touches_putMeasured (by decide) latency)).trans
    (touches_putRate ok gbps)).trans (touches_ite (touches_rfl _ _ _) ?_)
  exact (touches_putSentinel (by decide) _ ping).trans (touches_putSentinel (by decide) _ latency)

/-- A gauge of the label set that nothing touches keeps its value. -/
theorem Touches.keeps (h : Touches gauges labels st st') {gauge : Gauge} (hg : gauge ∉ gauges) :
    st'.get? (gauge, labels) = st.get? (gauge, labels) := h gauge labels (.inr hg)

theorem Touches.all (h : Touches gauges labels st st') : Touches allMountGauges labels st st' := by
  intro g l hgl
  rcases hgl with hl | hg
  · exact h g l (.inl hl)
  · exact absurd (by cases g <;> decide) hg

theorem touches_publishProbeUp (ready : Option Bool) :
    Touches [.probeUp] labels st (publishProbeUp st labels ready) := by
  cases ready with
  | none => exact touches_clear (by decide)
  | some ready => exact touches_put (by decide) _

theorem touches_publishSentinels (fresh : Bool) :
    Touches allMountGauges labels st (publishSentinels cfg st labels fresh) := by
  unfold publishSentinels
  exact ((((touches_put (by decide) _).trans (touches_put (by decide) _)).trans
    (touches_put (by decide) _)).trans (touches_put (by decide) _)).trans
    (touches_put (by decide) _)

theorem valid_publishSentinels (cfg : Settings) (st : Series) (labels : Labels) (fresh : Bool) :
    (publishSentinels cfg st labels fresh).get? (.valid, labels) = some (.finite 0) := by
  unfold publishSentinels put
  rw [Dict.get?_set_ne _ _ (by simp), Dict.get?_set_ne _ _ (by simp), Dict.get?_set_ne _ _ (by simp),
    Dict.get?_set_ne _ _ (by simp), Dict.get?_set_self]

/-- What a published label set has to say: valid only with a fresh result that says so. -/
def Backed (cfg : Settings) (now : Value) (data? : Option Data) (labels : Labels) (st : Series) :
    Prop :=
  st.get? (.valid, labels) = some (.finite 1) →
    st.get? (.resultFresh, labels) = some (.finite 1) ∧ ∃ data, data? = some data ∧ Says cfg now data

theorem backed_publishSentinels (now : Value) (data? : Option Data) (fresh : Bool) :
    Backed cfg now data? labels (publishSentinels cfg st labels fresh) := by
  intro hvalid
  rw [valid_publishSentinels] at hvalid
  simp at hvalid

theorem lt_of_not_le {x : Value} (hnan : x ≠ .nan) (h : le x (.finite 0) = false) :
    lt (.finite 0) x = true := by
  cases x with
  | nan => exact absurd rfl hnan
  | finite q => simpa [le] using h
  | infinite negative => simpa [le] using h

/-- The verdict of a usable result stands whatever is measured after it. -/
theorem backed_verdict {now : Value} {data : Data} {ok : Bool}
    (hbacks : ok = true → Says cfg now data)
    (h : Touches measurements labels
      (put (put st .valid labels (bit ok)) .resultFresh labels (.finite 1)) st') :
    Touches allMountGauges labels st st' ∧ Backed cfg now (some data) labels st' := by
  refine ⟨((touches_put (by decide) _).trans (touches_put (by decide) _)).trans h.all, ?_⟩
  intro hvalid
  have hfresh : st'.get? (.resultFresh, labels) = some (.finite 1) := by
    rw [h.keeps (by decide)]
    exact Dict.get?_set_self ..
  rw [h.keeps (by decide)] at hvalid
  unfold put at hvalid
  rw [Dict.get?_set_ne _ _ (by simp), Dict.get?_set_self] at hvalid
  have hok : ok = true := by
    cases ok with
    | true => rfl
    | false => simp [bit] at hvalid
  exact ⟨hfresh, data, rfl, hbacks hok⟩

theorem publishResult_spec {now : Value} {data : Data} (htimed : Timed data)
    (h : publishResult cfg now st labels data = .ok st') :
    Touches allMountGauges labels st st' ∧ Backed cfg now (some data) labels st' := by
  obtain ⟨timestamp, hstamp, h⟩ := except_bind_ok h
  dsimp only at h
  by_cases hwrong : (le timestamp (.finite 0) ||
      lt (add now cfg.clockSkewToleranceS) timestamp) = true
  · rw [if_pos hwrong] at h
    obtain rfl := Except.ok.inj h
    exact ⟨touches_publishSentinels false, backed_publishSentinels now _ false⟩
  rw [if_neg hwrong] at h
  by_cases hstale : (lt cfg.resultStaleWindowS (sub now timestamp) && okOf data) = true
  · rw [if_pos hstale] at h
    obtain rfl := Except.ok.inj h
    exact ⟨touches_publishSentinels false, backed_publishSentinels now _ false⟩
  rw [if_neg hstale] at h
  have hbacks : okOf data = true → Says cfg now data := by
    intro hok
    have hnan : timestamp ≠ .nan := by
      rintro rfl
      have hdated := htimed hok
      simp [undated, hstamp] at hdated
    simp only [Bool.or_eq_true, not_or, Bool.not_eq_true] at hwrong
    simp only [hok, Bool.and_true, Bool.not_eq_true] at hstale
    simp only [okOf, timeoutOf, Bool.and_eq_true, Bool.not_eq_true'] at hok
    exact ⟨hok.1, hok.2, timestamp, hstamp, lt_of_not_le hnan hwrong.1, hwrong.2, hstale⟩
  split_ifs at h with htimeout
  · exact backed_verdict hbacks (touches_publishTimeout h)
  · exact backed_verdict hbacks (touches_publishMeasured h)

def labelsOf (at_ : String × Row) : Labels := ⟨at_.1, at_.2.name, at_.2.pool⟩

/-- A row's label set after the row: absent where the node is not Ready, and backed by the last
result where it is. -/
structure Published (cfg : Settings) (r : Read) (st : Series) (at_ : String × Row) : Prop where
  absent : at_.2.ready = false → ∀ g, st.get? (g, labelsOf at_) = none
  backed : Backed cfg r.now (r.cache.get? (sanitizedMountName at_.1, at_.2.name)) (labelsOf at_) st

theorem Published.congr {r : Read} {at_ : String × Row} (h : Published cfg r st at_)
    (hsame : ∀ g, st'.get? (g, labelsOf at_) = st.get? (g, labelsOf at_)) :
    Published cfg r st' at_ := by
  refine ⟨fun hready g => (hsame g).trans (h.absent hready g), ?_⟩
  intro hvalid
  rw [hsame] at hvalid
  rw [hsame]
  exact h.backed hvalid

theorem publishRow_spec {r : Read} {at_ : String × Row}
    (htimed : ∀ key data, r.cache.get? key = some data → Timed data)
    (h : publishRow cfg r st at_ = .ok st') :
    Touches allMountGauges (labelsOf at_) st st' ∧ Published cfg r st' at_ := by
  obtain ⟨mount, row⟩ := at_
  unfold publishRow at h
  dsimp only at h
  cases hready : row.ready with
  | false =>
    rw [hready, if_pos (by rfl)] at h
    obtain rfl := Except.ok.inj h
    have hnone : ∀ g, (clearMountGauges st (labelsOf (mount, row))).get?
        (g, labelsOf (mount, row)) = none := by
      intro g
      rw [get?_clearMountGauges]
      simp
    refine ⟨touches_clear fun g hg => hg, fun _ => hnone, ?_⟩
    intro hvalid
    have hgone := hvalid.symm.trans (hnone .valid)
    cases hgone
  | true =>
    rw [hready, if_neg (by simp)] at h
    have hup : ∀ ready, Touches allMountGauges (labelsOf (mount, row)) st
        (publishProbeUp st (labelsOf (mount, row)) ready) :=
      fun ready => (touches_publishProbeUp ready).all
    have hnot : ¬(mount, row).2.ready = false := by simp [hready]
    split_ifs at h with hstuck
    · obtain rfl := Except.ok.inj h
      exact ⟨(hup _).trans (touches_publishSentinels true), fun hr => absurd hr hnot,
        backed_publishSentinels r.now _ true⟩
    · split at h
      · obtain rfl := Except.ok.inj h
        exact ⟨(hup _).trans (touches_publishSentinels false), fun hr => absurd hr hnot,
          backed_publishSentinels r.now _ false⟩
      · obtain rfl := Except.ok.inj h
        exact ⟨(hup _).trans (touches_publishSentinels false), fun hr => absurd hr hnot,
          backed_publishSentinels r.now _ false⟩
      · next data _ hdata =>
        obtain ⟨htouches, hbacked⟩ := publishResult_spec (htimed _ data hdata) h
        refine ⟨(hup _).trans htouches, fun hr => absurd hr hnot, ?_⟩
        show Backed cfg r.now (r.cache.get? (sanitizedMountName mount, row.name)) _ st'
        rw [hdata]
        exact hbacked

/-- Each row says what it has to once all are published, as no two have one label set. -/
theorem foldlM_publishRow {r : Read} (htimed : ∀ key data, r.cache.get? key = some data → Timed data)
    {rows : List (String × Row)} (hinj : ∀ a ∈ rows, ∀ b ∈ rows, labelsOf a = labelsOf b → a = b)
    (h : rows.foldlM (publishRow cfg r) st = .ok st') :
    (∀ g l, (∀ at_ ∈ rows, l ≠ labelsOf at_) → st'.get? (g, l) = st.get? (g, l)) ∧
      ∀ at_ ∈ rows, Published cfg r st' at_ := by
  induction rows generalizing st with
  | nil =>
    obtain rfl := Except.ok.inj h
    exact ⟨fun _ _ _ => rfl, by simp⟩
  | cons x rows ih =>
    rw [List.foldlM_cons] at h
    obtain ⟨mid, hx, hrest⟩ := except_bind_ok h
    obtain ⟨htouches, hpublished⟩ := publishRow_spec htimed hx
    have hinj' : ∀ a ∈ rows, ∀ b ∈ rows, labelsOf a = labelsOf b → a = b :=
      fun a ha b hb => hinj a (List.mem_cons_of_mem _ ha) b (List.mem_cons_of_mem _ hb)
    obtain ⟨hkeeps, hall⟩ := ih hinj' hrest
    refine ⟨?_, ?_⟩
    · intro g l hl
      rw [hkeeps g l fun at_ hat => hl at_ (List.mem_cons_of_mem _ hat)]
      exact htouches g l (.inl (hl x List.mem_cons_self))
    · intro at_ hat
      by_cases hmem : at_ ∈ rows
      · exact hall at_ hmem
      · obtain rfl : at_ = x := by
          rcases List.mem_cons.mp hat with heq | hlater
          · exact heq
          · exact absurd hlater hmem
        refine hpublished.congr fun g => hkeeps g _ fun b hb heq => hmem ?_
        have hsame := hinj at_ List.mem_cons_self b (List.mem_cons_of_mem _ hb) heq
        exact hsame ▸ hb

end Publish

/-- The nodes a listing names, none before the first. -/
def nodesOf (l? : Option Listing) : List Row := (l?.map Listing.nodes).getD []

def poolsOf (l? : Option Listing) : Dict String Pool :=
  (l?.map fun l => l.byName.map fun e => (e.1, e.2.1)).getD []

structure Sound (cfg : Settings) (J : List Seen) (s : State) : Prop where
  nodes : s.afNodes = nodesOf (lastListing J)
  pools : s.nodePools = poolsOf (lastListing J)
  off : s.k8sReady = false → s.afNodes = []
  results : ∀ key, s.resultCache.get? key = lastResult key J
  timed : ∀ key data, s.resultCache.get? key = some data → Timed data
  truthful : Truthful cfg J s.series

section Passes
variable {cfg : Settings} {s s' : State} {p : Pass} {J : List Seen}

theorem mem_nodesOf {l? : Option Listing} {row : Row} :
    row ∈ nodesOf l? ↔ ∃ l, l? = some l ∧ l.row? row.name = some row := by
  cases l? with
  | none => simp [nodesOf]
  | some l => simp [nodesOf, mem_nodes]

theorem mem_poolsOf {l? : Option Listing} {row : Row} (h : row ∈ nodesOf l?) :
    (row.name, row.pool) ∈ poolsOf l? := by
  obtain ⟨l, rfl, hrow⟩ := mem_nodesOf.mp h
  refine List.mem_map.mpr ⟨(row.name, row.pool, row.ready), mem_byName.mpr hrow, rfl⟩

/-- The rows of one listing have their own names. -/
theorem nodesOf_inj {l? : Option Listing} {a b : Row} (ha : a ∈ nodesOf l?) (hb : b ∈ nodesOf l?)
    (h : a.name = b.name) : a = b := by
  obtain ⟨l, hl, hra⟩ := mem_nodesOf.mp ha
  obtain ⟨l', hl', hrb⟩ := mem_nodesOf.mp hb
  obtain rfl : l = l' := Option.some.inj (hl.symm.trans hl')
  rw [h] at hra
  exact Option.some.inj (hra.symm.trans hrb)

/-- After the refresh the caches are of the last listing, and what is still exported is of its
nodes, Ready or not, under their pool. -/
theorem refresh_spec (h : Sound cfg J s) :
    (refreshNodeCaches cfg s p).afNodes = nodesOf (lastListing (J ++ note cfg s p)) ∧
    (refreshNodeCaches cfg s p).nodePools = poolsOf (lastListing (J ++ note cfg s p)) ∧
    ((refreshNodeCaches cfg s p).k8sReady = false →
      (refreshNodeCaches cfg s p).afNodes = []) ∧
    ∀ gauge labels, ((refreshNodeCaches cfg s p).series.get? (gauge, labels)).isSome →
      labels.mountName ∈ mounts ∧ ∃ ready, ⟨labels.node, labels.nodePool, ready⟩ ∈
        (refreshNodeCaches cfg s p).afNodes := by
  have hlisted : ∀ gauge labels, (s.series.get? (gauge, labels)).isSome →
      labels.mountName ∈ mounts ∧
        ⟨labels.node, labels.nodePool, true⟩ ∈ nodesOf (lastListing J) := by
    intro gauge labels hsome
    obtain ⟨hmount, hready⟩ := h.truthful.exported gauge labels hsome
    exact ⟨hmount, mem_nodesOf.mpr hready⟩
  rw [lastListing_note]
  unfold refreshNodeCaches
  cases hread : listingRead cfg s p with
  | none =>
    dsimp only
    refine ⟨h.nodes, h.pools, ?_, ?_⟩
    · intro hoff
      exact h.off (by simpa using (Bool.or_eq_false_iff.mp hoff).1)
    · intro gauge labels hsome
      obtain ⟨hmount, hmem⟩ := hlisted gauge labels hsome
      exact ⟨hmount, true, h.nodes ▸ hmem⟩
  | some l =>
    dsimp only
    refine ⟨rfl, rfl, ?_, ?_⟩
    · intro hoff
      simp [listingRead, hoff] at hread
    · intro gauge labels hsome
      refine listed_of_cleared ?_ hsome
      intro gauge labels hwas
      obtain ⟨hmount, hmem⟩ := hlisted gauge labels hwas
      refine ⟨hmount, ?_⟩
      rw [h.pools]
      exact mem_poolsOf hmem

theorem probePods_spec (cfg : Settings) (s : State) (p : Pass) :
    (probePods cfg s p).2.afNodes = s.afNodes ∧ (probePods cfg s p).2.nodePools = s.nodePools ∧
    (probePods cfg s p).2.resultCache = s.resultCache ∧
    (probePods cfg s p).2.series = s.series ∧
    (probePods cfg s p).2.k8sReady = (s.k8sReady || p.initPods) := by
  unfold probePods
  dsimp only
  split
  · exact ⟨rfl, rfl, rfl, rfl, rfl⟩
  · split_ifs <;> exact ⟨rfl, rfl, rfl, rfl, rfl⟩

theorem resultCache_refresh (cfg : Settings) (s : State) (p : Pass) :
    (refreshNodeCaches cfg s p).resultCache = s.resultCache := by
  unfold refreshNodeCaches
  dsimp only
  split <;> rfl

/-- The last results after the pass are those it got, over the older ones. -/
theorem get?_overlay_fetched (h : Sound cfg J s) (key : Key) :
    (s.resultCache.overlay (fetchedIn cfg s p)).get? key =
      lastResult key (J ++ note cfg s p) := by
  rw [Dict.get?_overlay, lastResult_note, h.results]

theorem timed_overlay (h : Sound cfg J s) (hdated : Dated s p) {key : Key} {data : Data}
    (hget : (s.resultCache.overlay (fetchedIn cfg s p)).get? key = some data) : Timed data := by
  rw [Dict.get?_overlay] at hget
  cases hfetched : (fetchedIn cfg s p).get? key with
  | none =>
    rw [hfetched] at hget
    exact h.timed key data hget
  | some answer =>
    rw [hfetched] at hget
    obtain rfl : answer = data := Option.some.inj hget
    have hanswer := mem_fetchAll _ (Dict.mem_of_get? hfetched)
    exact hdated _ (Dict.mem_of_get? hanswer)

theorem mem_cells {rows : List Row} {mount : String} {row : Row} :
    (mount, row) ∈ (mounts.flatMap fun mount => rows.map fun row => (mount, row)) ↔
      mount ∈ mounts ∧ row ∈ rows := by
  simp [List.mem_flatMap]

theorem labels_inj {l? : Option Listing} :
    ∀ a ∈ mounts.flatMap fun mount => (nodesOf l?).map fun row => (mount, row),
    ∀ b ∈ mounts.flatMap fun mount => (nodesOf l?).map fun row => (mount, row),
      labelsOf a = labelsOf b → a = b := by
  rintro ⟨m, a⟩ ha ⟨m', b⟩ hb heq
  obtain ⟨rfl, hname, -⟩ := Labels.mk.inj heq
  rw [nodesOf_inj (mem_cells.mp ha).2 (mem_cells.mp hb).2 hname]

/-- What is exported once the rows of a listing are published over what its refresh left. -/
theorem truthful_publishAll {r : Read} {st series : Series}
    (hlisted : ∀ gauge labels, (st.get? (gauge, labels)).isSome → labels.mountName ∈ mounts ∧
      ∃ ready, ⟨labels.node, labels.nodePool, ready⟩ ∈ nodesOf (lastListing J))
    (hnow : lastPass J = some r.now) (hcache : ∀ key, r.cache.get? key = lastResult key J)
    (htimed : ∀ key data, r.cache.get? key = some data → Timed data)
    (h : publishAll cfg r (nodesOf (lastListing J)) st = .ok series) : Truthful cfg J series := by
  obtain ⟨hkeeps, hpublished⟩ := foldlM_publishRow htimed labels_inj h
  -- An exported label set is of a row, and the row's node is Ready.
  have hrow : ∀ gauge labels, (series.get? (gauge, labels)).isSome →
      labels.mountName ∈ mounts ∧
        ⟨labels.node, labels.nodePool, true⟩ ∈ nodesOf (lastListing J) := by
    intro gauge labels hsome
    by_cases hof : ∃ row ∈ nodesOf (lastListing J), labels.mountName ∈ mounts ∧
        labels = labelsOf (labels.mountName, row)
    · obtain ⟨row, hmem, hmount, hlabels⟩ := hof
      refine ⟨hmount, ?_⟩
      have hpub := hpublished _ (mem_cells.mpr ⟨hmount, hmem⟩)
      have hready : row.ready = true := by
        by_contra hnot
        rw [hlabels, hpub.absent (by simpa using hnot) gauge] at hsome
        cases hsome
      have hsame : (⟨labels.node, labels.nodePool, true⟩ : Row) = row := by
        rw [hlabels, ← hready]
        rfl
      rw [hsame]
      exact hmem
    · rw [hkeeps gauge labels ?_] at hsome
      · obtain ⟨hmount, ready, hmem⟩ := hlisted gauge labels hsome
        exact absurd ⟨_, hmem, hmount, rfl⟩ hof
      · rintro ⟨mount, row⟩ hat rfl
        exact hof ⟨row, (mem_cells.mp hat).2, (mem_cells.mp hat).1, rfl⟩
  refine ⟨?_, ?_⟩
  · intro labels hvalid
    obtain ⟨hmount, hmem⟩ := hrow .valid labels (by rw [hvalid]; rfl)
    have hcell := hpublished _ (mem_cells.mpr ⟨hmount, hmem⟩)
    obtain ⟨hfresh, data, hdata, hbacks⟩ := hcell.backed hvalid
    exact ⟨mem_nodesOf.mp hmem, hfresh, r.now, data, hnow, (hcache _).symm.trans hdata, hbacks⟩
  · intro gauge labels hsome
    obtain ⟨hmount, hmem⟩ := hrow gauge labels hsome
    exact ⟨hmount, mem_nodesOf.mp hmem⟩

/-- What a pass that completes leaves, with what it had read when it came to publish. -/
structure Ends (cfg : Settings) (s : State) (p : Pass) (s' : State) (r : Read) : Prop where
  now : r.now = p.now
  cache : r.cache = s.resultCache.overlay (fetchedIn cfg s p)
  publish : publishAll cfg r (listAfNodes (refreshNodeCaches cfg s p))
    (refreshNodeCaches cfg s p).series = .ok s'.series
  nodes : s'.afNodes = (refreshNodeCaches cfg s p).afNodes
  pools : s'.nodePools = (refreshNodeCaches cfg s p).nodePools
  k8s : s'.k8sReady = false → (refreshNodeCaches cfg s p).k8sReady = false
  results : s'.resultCache = r.cache

theorem ends_of_step (hs : step cfg s p = some s') : ∃ r, Ends cfg s p s' r := by
  obtain ⟨hnodes, hpools, hresults, hseries, hk8s⟩ :=
    probePods_spec cfg (refreshNodeCaches cfg s p) p
  have hcache := resultCache_refresh cfg s p
  unfold step at hs
  cases hu : updateMetrics cfg s p with
  | error e =>
    rw [hu] at hs
    cases hs
  | ok done =>
    rw [hu] at hs
    obtain rfl : done = s' := Option.some.inj hs
    obtain ⟨series, hpublish, hdone⟩ := except_bind_ok hu
    obtain rfl := Except.ok.inj hdone
    rw [hseries, hresults, hcache] at hpublish
    refine ⟨_, rfl, ?_, hpublish, hnodes, hpools, ?_, ?_⟩
    · rfl
    · intro hoff
      have hor : ((refreshNodeCaches cfg s p).k8sReady || p.initPods) = false := hk8s ▸ hoff
      exact (Bool.or_eq_false_iff.mp hor).1
    · show (probePods cfg (refreshNodeCaches cfg s p) p).2.resultCache.overlay _ = _
      rw [hresults, hcache]

theorem sound_pass (h : Sound cfg J s) (hdated : Dated s p) (hs : step cfg s p = some s') :
    Sound cfg (J ++ note cfg s p) s' := by
  obtain ⟨r, hends⟩ := ends_of_step hs
  obtain ⟨hnodes, hpools, hoff, hlisted⟩ := refresh_spec (p := p) h
  have hlist : listAfNodes (refreshNodeCaches cfg s p) =
      nodesOf (lastListing (J ++ note cfg s p)) := by
    unfold listAfNodes
    split_ifs with hready
    · exact hnodes
    · rw [← hnodes, hoff (by simpa using hready)]
  have hcache : ∀ key, r.cache.get? key = lastResult key (J ++ note cfg s p) := by
    intro key
    rw [hends.cache]
    exact get?_overlay_fetched h key
  have htimed : ∀ key data, r.cache.get? key = some data → Timed data := by
    intro key data hget
    rw [hends.cache] at hget
    exact timed_overlay h hdated hget
  have hpublish := hends.publish
  rw [hlist] at hpublish
  rw [hnodes] at hlisted
  refine ⟨hends.nodes.trans hnodes, hends.pools.trans hpools, ?_, ?_, ?_, ?_⟩
  · intro hoff'
    rw [hends.nodes]
    exact hoff (hends.k8s hoff')
  · intro key
    rw [hends.results]
    exact hcache key
  · intro key data hget
    rw [hends.results] at hget
    exact htimed key data hget
  · refine truthful_publishAll hlisted ?_ hcache htimed hpublish
    rw [lastPass_note, hends.now]

theorem sound_start (cfg : Settings) : Sound cfg [] start := by
  refine ⟨rfl, rfl, fun _ => rfl, fun _ => rfl, ?_, ?_, ?_⟩
  · intro key data hget
    cases hget
  · intro labels hvalid
    cases hvalid
  · intro gauge labels hsome
    cases hsome

/-- After every pass, valid is 1 only for a Ready node whose last result says so and is recent,
and every exported label set is of a Ready node under its pool. -/
theorem truthful_of_run {passes : List Pass} (hdated : Along (step cfg) Dated start passes)
    (hrun : run (step cfg) start passes = some s) :
    Truthful cfg (journal (step cfg) (note cfg) start passes) s.series := by
  have hsound : Sound cfg ([] ++ journal (step cfg) (note cfg) start passes) s :=
    run_journal (sound_start cfg) (fun _ _ _ _ h hc hs => sound_pass h hc hs) hdated hrun
  exact hsound.truthful

def readyNode : Node := ⟨"hammer-a", [⟨"Ready", "True"⟩]⟩

def readyPod : Pod :=
  ⟨"depot", "hammer-a", false, none, [("http", 8080)],
    some ⟨"Running", [⟨"Ready", "True"⟩], "10.0.0.7", []⟩⟩

/-- A pass that reads everything, and whose one probe answers `data`. -/
def answeredPass (now : ℚ) (data : Data) : Pass :=
  ⟨true, true, .finite now, .finite now, some [readyNode], some [], some [readyPod],
    [(("depot", "hammer-a"), data)]⟩

/-- A pass in which the client is refused and no probe answers. -/
def missedPass (now : ℚ) : Pass :=
  ⟨true, true, .finite now, .finite now, none, none, none, []⟩

def depotLabels : Labels := ⟨"/depot/", "hammer-a", .prod⟩

/-- A missed pass keeps the verdict of the result before it, which is still recent. -/
theorem truthful_of_run_missed : ∃ s, run (step defaults) start
      [answeredPass 1700000010 [("ok", .bool true), ("timestamp", .int 1700000000)],
        missedPass 1700000070] = some s ∧
    s.series.get? (.valid, depotLabels) = some (.finite 1) ∧
    s.series.get? (.resultFresh, depotLabels) = some (.finite 1) := by
  have hrun : ((run (step defaults) start
      [answeredPass 1700000010 [("ok", .bool true), ("timestamp", .int 1700000000)],
        missedPass 1700000070]).bind fun s =>
      if s.series.get? (.valid, depotLabels) = some (.finite 1) then some () else none) =
      some () := by
    decide +kernel
  simp only [Option.bind_eq_some_iff, Option.ite_none_right_eq_some] at hrun
  obtain ⟨s, hrun, hvalid, -⟩ := hrun
  have htruthful := truthful_of_run (by decide +kernel) hrun
  exact ⟨s, hrun, hvalid, (htruthful.valid depotLabels hvalid).2.1⟩

/-- A result whose timestamp is no number is neither missing nor in the future nor old: it is
published as a recent success. -/
theorem not_truthful_nan : ¬∀ (cfg : Settings) (passes : List Pass) (s : State),
    run (step cfg) start passes = some s →
      Truthful cfg (journal (step cfg) (note cfg) start passes) s.series := by
  intro h
  let passes := [answeredPass 1700000010 [("ok", .bool true), ("timestamp", .str "nan")]]
  have hrun : ((run (step defaults) start passes).bind fun s =>
      if s.series.get? (.valid, depotLabels) = some (.finite 1) then some () else none) =
      some () := by
    decide +kernel
  have hnan : ((lastResult ("depot", "hammer-a")
      (journal (step defaults) (note defaults) start passes)).all undated) = true := by
    decide +kernel
  simp only [Option.bind_eq_some_iff, Option.ite_none_right_eq_some] at hrun
  obtain ⟨s, hrun, hvalid, -⟩ := hrun
  obtain ⟨-, -, now, data, -, hdata, hbacks⟩ := (h defaults passes s hrun).valid depotLabels hvalid
  have hkey : sanitizedMountName depotLabels.mountName = "depot" := by decide +kernel
  rw [hkey] at hdata
  obtain ⟨timestamp, hstamp, hpos, -⟩ := hbacks.recent
  have hundated : undated data = true := by
    have hall := hnan
    rw [show ("depot", "hammer-a") = ("depot", depotLabels.node) from rfl, hdata] at hall
    exact hall
  unfold undated at hundated
  rw [hstamp] at hundated
  cases timestamp with
  | nan => simp [lt] at hpos
  | finite q => simp at hundated
  | infinite negative => simp at hundated

end Passes

end PurdueAF.NodeMonitor
