import PurdueAF.LlmGateCalls

/-!
# Whose turn it is at a gate

Which request is admitted, and when: a request that waited long enough for its class goes before
every later one, and a pause that a model asked for lasts as long as no other shortens it.
-/
namespace PurdueAF.LlmProxy
open Py Binary64 Machine

namespace Gate

/-- The first of the least is before everything ahead of it. -/
theorem leastWaiting_before {now : ℚ} {l r : List (ℕ × ℤ × ℚ)} {d e : ℕ × ℤ × ℚ}
    (h : leastWaiting now (l ++ e :: r) = some d) (hl : d ∉ l) (hne : d ≠ e) :
    before now d e = true := by
  induction l with
  | nil =>
    simp only [List.nil_append, leastWaiting] at h
    split at h
    · next d' hd' =>
      split_ifs at h with hbefore
      · obtain rfl := Option.some.inj h
        exact hbefore
      · exact absurd (Option.some.inj h).symm hne
    · exact absurd (Option.some.inj h).symm hne
  | cons x l ih =>
    have hx : d ≠ x := List.ne_of_not_mem_cons hl
    have hl : d ∉ l := List.not_mem_of_not_mem_cons hl
    simp only [List.cons_append, leastWaiting] at h
    split at h
    · next d' hd' =>
      split_ifs at h with hbefore
      · obtain rfl := Option.some.inj h
        exact ih hd' hl
      · exact absurd (Option.some.inj h).symm hx
    · exact absurd (Option.some.inj h).symm hx

theorem mem_of_leastWaiting {now : ℚ} {l : List (ℕ × ℤ × ℚ)} {d : ℕ × ℤ × ℚ}
    (h : leastWaiting now l = some d) : d ∈ l := by
  induction l generalizing d with
  | nil => cases h
  | cons x l ih =>
    simp only [leastWaiting] at h
    split at h
    · next d' hd' =>
      split_ifs at h with hbefore <;> obtain rfl := Option.some.inj h
      · exact List.mem_cons_of_mem x (ih hd')
      · exact List.mem_cons_self
    · obtain rfl := Option.some.inj h
      exact List.mem_cons_self

theorem before_iff {now : ℚ} {d e : ℕ × ℤ × ℚ} : before now d e = true ↔
    (order now d).1 < (order now e).1 ∨
      (order now d).1 = (order now e).1 ∧ d.2.2 < e.2.2 := by
  simp only [before, Bool.or_eq_true, Bool.and_eq_true, decide_eq_true_eq]
  rfl

/-- A request that waited for its class as long as it takes is in the first class. -/
theorem order_eq_zero {now : ℚ} {e : ℕ × ℤ × ℚ} (h : e.2.1 * aging ≤ now - e.2.2) :
    (order now e).1 = 0 := by
  have haging : (0 : ℚ) < aging := by decide
  have hdiv : (e.2.1 : ℚ) ≤ (now - e.2.2) / aging := (le_div_iff₀ haging).mpr h
  have hfloor : e.2.1 ≤ ⌊(now - e.2.2) / aging⌋ := Int.le_floor.mpr hdiv
  show Max.max 0 (e.2.1 - ⌊(now - e.2.2) / aging⌋) = 0
  omega

theorem not_before_of_aged {now : ℚ} {d e : ℕ × ℤ × ℚ} (hsince : e.2.2 ≤ d.2.2)
    (h : e.2.1 * aging ≤ now - e.2.2) : before now d e ≠ true := by
  intro hbefore
  have hclass : 0 ≤ (order now d).1 := le_max_left _ _
  rw [before_iff, order_eq_zero h] at hbefore
  rcases hbefore with hlt | ⟨-, hlt⟩
  · omega
  · exact absurd hsince (not_le.mpr hlt)

theorem not_before_of_rank {now : ℚ} {d e : ℕ × ℤ × ℚ} (hsince : e.2.2 ≤ d.2.2)
    (h : e.2.1 = d.2.1) : before now d e ≠ true := by
  intro hbefore
  have haging : (0 : ℚ) ≤ aging := by decide
  have hdiv : (now - d.2.2) / aging ≤ (now - e.2.2) / aging :=
    div_le_div_of_nonneg_right (sub_le_sub_left hsince now) haging
  have hfloor : ⌊(now - d.2.2) / aging⌋ ≤ ⌊(now - e.2.2) / aging⌋ := Int.floor_le_floor hdiv
  have hclass : (order now e).1 ≤ (order now d).1 := by
    show Max.max 0 (e.2.1 - _) ≤ Max.max 0 (d.2.1 - _)
    omega
  rw [before_iff] at hbefore
  rcases hbefore with hlt | ⟨-, hlt⟩
  · omega
  · exact absurd hsince (not_le.mpr hlt)

end Gate

namespace GateCalls

/-- The time a step looks at the clock last. -/
def Action.now : Action → ℚ
  | .acquire _ _ _ _ now _ | .wake _ now _ | .release _ _ now | .failed _ now
  | .observe _ _ now => now
  | .recovered => 0

/-- Time does not go back. -/
def Forward (s : Sys) : Action → Prop
  | .acquire _ _ _ since now _ => s.clock ≤ since ∧ since ≤ now
  | .recovered => True
  | a => s.clock ≤ a.now

section Admission
variable {m : Model} {settings : Settings} {s s' : Sys} {a : Action}

/-- The call at `j` has a slot after the step, and had none before it. -/
structure Admitted (s s' : Sys) (j : ℕ) (d : Call) : Prop where
  call : s'.calls[j]? = some d
  holds : d.holds = true
  new : (s.calls[j]?).any Call.holds = false

theorem admitted_look {i j : ℕ} {c d : Call} {now : ℚ} {gone : Bool} (hi : s.calls[i]? = some c)
    (hnew : (s.calls[j]?).any Call.holds = false)
    (hd : (look m s i c now gone).calls[j]? = some d) (hh : d.holds = true) :
    j = i ∧ d = { c with phase := .holding } ∧ answer s.gate m c now gone = .holding := by
  rw [look_eq] at hd
  rcases getElem?_set_cases hi hd with ⟨rfl, rfl⟩ | ⟨-, hd⟩
  · have hp : answer s.gate m c now gone = .holding := by simpa [Call.holds] using hh
    exact ⟨rfl, by rw [hp], hp⟩
  · rw [hd] at hnew
    simp [hh] at hnew

/-- A call is admitted by a pass of its own that finds room for it and no one before it. -/
theorem admitted_cases {j : ℕ} {d : Call} (hs : step m settings s a = some s')
    (h : Admitted s s' j d) :
    ∃ s₀ c gone, (s₀ = s ∨ c.seq = s.gate.seq + 1 ∧ j = s.calls.length ∧ s₀ = enter s c ∧
        (Forward s a → s.clock ≤ c.since)) ∧
      s₀.calls[j]? = some c ∧ c.phase = .waiting ∧ d = { c with phase := .holding } ∧
      answer s₀.gate m c a.now gone = .holding := by
  obtain ⟨hd, hh, hnew⟩ := h
  cases does_of_step hs with
  | @acquire c hseq hw now gone =>
    have hnew' : ((enter s c).calls[j]?).any Call.holds = false := by
      by_cases hlt : j < s.calls.length
      · rwa [enter, List.getElem?_append_left hlt]
      · rw [enter, List.getElem?_append_right (not_lt.mp hlt)]
        cases j - s.calls.length with
        | zero => simp [Call.holds, hw]
        | succ k => rfl
    obtain ⟨rfl, hdc, hp⟩ := admitted_look (getElem?_enter s c) hnew' hd hh
    exact ⟨enter s c, c, gone, .inr ⟨hseq, rfl, rfl, fun hf => hf.1⟩, getElem?_enter s c,
      hw, hdc, hp⟩
  | @wake i c hi hw now gone =>
    obtain ⟨rfl, hdc, hp⟩ := admitted_look hi hnew hd hh
    exact ⟨s, c, gone, .inl rfl, hi, hw, hdc, hp⟩
  | @release i c hi hp completion now =>
    rcases getElem?_set_cases hi hd with ⟨rfl, rfl⟩ | ⟨-, hd⟩
    · cases hh
    · rw [hd] at hnew
      simp [hh] at hnew
  | failed retryAfter now =>
    rw [show s.calls[j]? = some d from hd] at hnew
    simp [hh] at hnew
  | observe ttft decode now =>
    rw [show s.calls[j]? = some d from hd] at hnew
    simp [hh] at hnew
  | recovered =>
    rw [show s.calls[j]? = some d from hd] at hnew
    simp [hh] at hnew

theorem entry_eq_some {c : Call} {e : ℕ × ℤ × ℚ} (h : c.entry = some e) :
    c.phase = .waiting ∧ e = (c.seq, c.rank, c.since) := by
  unfold Call.entry at h
  split_ifs at h with hw
  exact ⟨hw, (Option.some.inj h).symm⟩

/-- Who is admitted is before everyone who began to wait earlier and still does. -/
theorem before_of_answer {i j : ℕ} {c d : Call} {now : ℚ} {gone : Bool} (hq : Queued m s)
    (hij : i < j) (hi : s.calls[i]? = some c) (hc : c.phase = .waiting)
    (hj : s.calls[j]? = some d) (h : answer s.gate m d now gone = .holding) :
    Gate.before now (d.seq, d.rank, d.since) (c.seq, c.rank, c.since) = true := by
  obtain ⟨l, r, hcalls, hlen, -⟩ := split_set hi
  have hdr : d ∈ r := by
    rw [hcalls, List.getElem?_append_right (by omega)] at hj
    obtain ⟨k, hk⟩ : ∃ k, j - l.length = k + 1 := ⟨j - l.length - 1, by omega⟩
    rw [hk, List.getElem?_cons_succ] at hj
    exact List.mem_of_getElem? hj
  have hnodup := hq.nodup
  -- The least of the waiting has the number of `d`, so it is the entry of `d`.
  obtain ⟨-, hfirst⟩ := answer_eq_holding h
  obtain ⟨e, he, heq⟩ := (Option.any_eq_true _ _).mp hfirst
  have hseq : e.1 = d.seq := of_decide_eq_true heq
  rw [hq.waiting] at he
  obtain ⟨d', hd', hentry⟩ := List.mem_filterMap.mp (Gate.mem_of_leastWaiting he)
  obtain ⟨-, rfl⟩ := entry_eq_some hentry
  obtain rfl : d' = d := List.inj_on_of_nodup_map hnodup hd' (List.mem_of_getElem? hj) hseq
  rw [hcalls] at hnodup he
  have hother := seq_ne_of_nodup hnodup
  have hce : c.entry = some (c.seq, c.rank, c.since) := if_pos hc
  rw [List.filterMap_append, List.filterMap_cons_some hce] at he
  refine Gate.leastWaiting_before he ?_ ?_
  · intro hmem
    obtain ⟨x, hx, hxe⟩ := List.mem_filterMap.mp hmem
    have hxseq : d'.seq = x.seq := (Prod.mk.inj (entry_eq_some hxe).2).1
    rw [List.map_append, List.nodup_append] at hnodup
    refine hnodup.2.2 x.seq (List.mem_map_of_mem hx) d'.seq ?_ hxseq.symm
    exact List.mem_map_of_mem (List.mem_cons_of_mem c hdr)
  · intro hsame
    exact hother d' (List.mem_append_right l hdr) (Prod.mk.inj hsame).1

/-- Requests begin in the order of their times, none after the last time read. -/
structure Timed (s : Sys) : Prop where
  past : ∀ t ∈ s.calls.map Call.since, t ≤ s.clock
  sorted : (s.calls.map Call.since).Pairwise (· ≤ ·)

theorem timed_set {i : ℕ} {c : Call} {g : Gate} {p : Phase} {now : ℚ} (hnow : s.clock ≤ now)
    (hi : s.calls[i]? = some c) (h : Timed s) :
    Timed ⟨g, s.calls.set i { c with phase := p }, now⟩ := by
  have hmap := map_set_phase Call.since (p := p) rfl hi
  refine ⟨?_, ?_⟩
  · rw [hmap]
    exact fun t ht => (h.past t ht).trans hnow
  · rw [hmap]
    exact h.sorted

theorem timed_enter {c : Call} (hnow : s.clock ≤ c.since) (h : Timed s) :
    Timed { enter s c with clock := c.since } := by
  refine ⟨?_, ?_⟩
  · simp only [enter, List.map_append, List.map_cons, List.map_nil, List.mem_append,
      List.mem_singleton]
    rintro t (ht | rfl)
    · exact (h.past t ht).trans hnow
    · exact le_rfl
  · simp only [enter, List.map_append, List.map_cons, List.map_nil]
    rw [List.pairwise_append]
    refine ⟨h.sorted, List.pairwise_singleton _ _, fun t ht u hu => ?_⟩
    rw [List.mem_singleton.mp hu]
    exact (h.past t ht).trans hnow

theorem timed_step (h : Timed s) (hf : Forward s a) (hs : step m settings s a = some s') :
    Timed s' := by
  cases does_of_step hs with
  | @acquire c hseq hw now gone =>
    have henter : Timed { enter s c with clock := c.since } := timed_enter hf.1 h
    exact timed_set (s := { enter s c with clock := c.since }) hf.2 (getElem?_enter s c) henter
  | wake hi hw now gone => exact timed_set hf hi h
  | release hi hp completion now => exact timed_set hf hi h
  | failed retryAfter now => exact ⟨fun t ht => (h.past t ht).trans hf, h.sorted⟩
  | observe ttft decode now => exact ⟨fun t ht => (h.past t ht).trans hf, h.sorted⟩
  | recovered => exact ⟨h.past, h.sorted⟩

theorem since_le {i j : ℕ} {c d : Call} (h : Timed s) (hij : i < j) (hi : s.calls[i]? = some c)
    (hj : s.calls[j]? = some d) : c.since ≤ d.since := by
  obtain ⟨hilt, rfl⟩ := List.getElem?_eq_some_iff.mp hi
  obtain ⟨hjlt, rfl⟩ := List.getElem?_eq_some_iff.mp hj
  have hsorted := List.pairwise_iff_getElem.mp h.sorted i j (by simpa using hilt)
    (by simpa using hjlt) hij
  simpa using hsorted

structure Ordered (m : Model) (s : Sys) : Prop where
  queued : Queued m s
  timed : Timed s

theorem ordered_start (m : Model) (clock : ℚ) : Ordered m (start m clock) :=
  ⟨queued_start m clock, by simp [start], by simp [start]⟩

theorem before_of_admitted (h : Ordered m s) (hs : step m settings s a = some s')
    (hfa : Forward s a) {i j : ℕ} {c d : Call} (hij : i < j) (hi : s.calls[i]? = some c)
    (hc : c.phase = .waiting) (hd : Admitted s s' j d) :
    Gate.before a.now (d.seq, d.rank, d.since) (c.seq, c.rank, c.since) = true ∧
      c.since ≤ d.since := by
  obtain ⟨s₀, c₀, gone, hs₀, hj, hw, rfl, hp⟩ := admitted_cases hs hd
  rcases hs₀ with rfl | ⟨hseq, rfl, rfl, hsince⟩
  · have hbefore := before_of_answer h.queued hij hi hc hj hp
    have hsince := since_le h.timed hij hi hj
    exact ⟨hbefore, hsince⟩
  · have hi' : (enter s c₀).calls[i]? = some c := by
      rw [enter, List.getElem?_append_left hij]
      exact hi
    have hpast := h.timed.past c.since (List.mem_map_of_mem (List.mem_of_getElem? hi))
    have hbefore := before_of_answer (queued_enter hseq hw h.queued) hij hi' hc hj hp
    exact ⟨hbefore, hpast.trans (hsince hfa)⟩

/-- In every run in which time does not go back: when a request is admitted, no request that
began to wait before it and still waits had waited for its class as long as it takes, by any
moment until then, and none is of the same rank. -/
theorem not_overtaken_of_run {clock : ℚ} {acts : List Action}
    (hrun : run (step m settings) (start m clock) acts = some s)
    (hf : Along (step m settings) Forward (start m clock) acts)
    (hs : step m settings s a = some s') (hfa : Forward s a) {i j : ℕ} {c d : Call} (hij : i < j)
    (hi : s.calls[i]? = some c) (hc : c.phase = .waiting) (hd : Admitted s s' j d) :
    (∀ t ≤ a.now, t - c.since < c.rank * aging) ∧ c.rank ≠ d.rank := by
  have hordered : Ordered m s := run_invariant (ordered_start m clock)
    (fun _ _ _ h hfm hm => ⟨queued_step h.queued hm, timed_step h.timed hfm hm⟩) hf hrun
  obtain ⟨hbefore, hsince⟩ := before_of_admitted hordered hs hfa hij hi hc hd
  refine ⟨fun t ht => ?_, fun hsame => ?_⟩
  · by_contra hwaited
    have haged : (c.rank : ℚ) * aging ≤ a.now - c.since :=
      (not_lt.mp hwaited).trans (sub_le_sub_right ht c.since)
    exact Gate.not_before_of_aged hsince haged hbefore
  · exact Gate.not_before_of_rank hsince hsame hbefore

end Admission

instance decidableForward (s : Sys) : ∀ a, Decidable (Forward s a)
  | .acquire _ _ _ since now _ => inferInstanceAs (Decidable (s.clock ≤ since ∧ since ≤ now))
  | .wake _ now _ => inferInstanceAs (Decidable (s.clock ≤ now))
  | .release _ _ now => inferInstanceAs (Decidable (s.clock ≤ now))
  | .failed _ now => inferInstanceAs (Decidable (s.clock ≤ now))
  | .observe _ _ now => inferInstanceAs (Decidable (s.clock ≤ now))
  | .recovered => isTrue trivial

/-- One request holds the slot; one of class 2 waits from 1 on and one of class 1 from 2 on. -/
def twoClasses : List Action :=
  [.acquire 10 0 9000 0 0 false, .acquire 10 2 9000 1 1 false, .acquire 10 1 9000 2 2 false,
   .release 0 5 3]

/-- The later one is admitted at 4, well before the other one waited 1200 seconds. -/
theorem not_overtaken_of_run_twoClasses :
    ∃ s s' c d, run (step smallModel smallSettings) (start smallModel 0) twoClasses = some s ∧
      step smallModel smallSettings s (.wake 2 4 false) = some s' ∧ s.calls[1]? = some c ∧
      Admitted s s' 2 d ∧ (∀ t ≤ (4 : ℚ), t - c.since < c.rank * aging) ∧ c.rank ≠ d.rank := by
  have hsome : ((run (step smallModel smallSettings) (start smallModel 0) twoClasses).bind
      fun s => (step smallModel smallSettings s (.wake 2 4 false)).bind fun s' =>
        s.calls[1]?.bind fun c => s'.calls[2]?.bind fun d =>
          if c.phase = .waiting ∧ d.holds ∧ (s.calls[2]?).any Call.holds = false ∧
            Forward s (.wake 2 4 false) then some () else none) = some () := by
    decide +kernel
  simp only [Option.bind_eq_some_iff, Option.ite_none_right_eq_some] at hsome
  obtain ⟨s, hs, s', hs', c, hc, d, hd, ⟨hw, hh, hnew, hf⟩, -⟩ := hsome
  have hadmitted : Admitted s s' 2 d := ⟨hd, hh, hnew⟩
  exact ⟨s, s', c, d, hs, hs', hc, hadmitted,
    not_overtaken_of_run hs (by decide +kernel) hs' hf (by omega) hc hw hadmitted⟩

/-- A refusal that asks for a wait does not end before the pause under way. -/
def Lengthens (s : Sys) : Action → Prop
  | .failed (some r) now => le s.gate.pausedUntil (later now r) = true
  | _ => True

section Pauses
variable {m : Model} {settings : Settings} {s s' : Sys} {a : Action}

theorem pausedUntil_checked (g : Gate) (m : Model) (tokens : ℤ) (now : ℚ) :
    (g.checked m tokens now).pausedUntil = g.pausedUntil := by
  unfold Gate.checked
  split_ifs <;> rfl

theorem pausedUntil_adjust (g : Gate) (m : Model) (now : ℚ) :
    (g.adjust m now).pausedUntil = g.pausedUntil := by
  unfold Gate.adjust
  dsimp only
  generalize (if g.ttfts.isEmpty then Value.finite 0 else median (g.ttfts.map Prod.snd)) = ttft
  split_ifs <;> rfl

theorem pausedUntil_noteFailure (g : Gate) (settings : Settings) (now : ℚ) :
    (g.noteFailure settings now).pausedUntil = g.pausedUntil := by
  unfold Gate.noteFailure
  dsimp only
  split_ifs <;> rfl

theorem pausedUntil_look (m : Model) (s : Sys) (i : ℕ) (c : Call) (now : ℚ) (gone : Bool) :
    (look m s i c now gone).gate.pausedUntil = s.gate.pausedUntil := by
  have hlooked : (lookedAt m s c now gone).pausedUntil = s.gate.pausedUntil := by
    unfold lookedAt
    split_ifs
    · rfl
    · exact pausedUntil_checked ..
  rw [look_eq, ← hlooked]
  cases answer s.gate m c now gone <;> rfl

/-- Only a refusal that asks for a wait moves the end of the pause. -/
theorem pausedUntil_step (hs : step m settings s a = some s') :
    s'.gate.pausedUntil = s.gate.pausedUntil ∨
      ∃ r now, a = .failed (some r) now ∧ s'.gate.pausedUntil = later now r := by
  cases does_of_step hs with
  | acquire hseq hw now gone => exact .inl (pausedUntil_look ..)
  | wake hi hw now gone => exact .inl (pausedUntil_look ..)
  | release hi hp completion now => exact .inl rfl
  | failed retryAfter now =>
    cases retryAfter with
    | none => exact .inl (pausedUntil_noteFailure ..)
    | some r => exact .inr ⟨r, now, rfl, rfl⟩
  | observe ttft decode now => exact .inl (pausedUntil_adjust ..)
  | recovered => exact .inl rfl

/-- The pause lasts to `till` or longer. -/
def PausedTo (till : Value) (s : Sys) : Prop :=
  s.gate.pausedUntil = till ∨ le till s.gate.pausedUntil = true

theorem pausedTo_step {till : Value} (h : PausedTo till s) (hl : Lengthens s a)
    (hs : step m settings s a = some s') : PausedTo till s' := by
  unfold PausedTo at h ⊢
  rcases pausedUntil_step hs with heq | ⟨r, now, rfl, heq⟩
  · rw [heq]
    exact h
  · have hlonger : le s.gate.pausedUntil (later now r) = true := hl
    rw [heq]
    rcases h with rfl | hle
    · exact .inr hlonger
    · exact .inr (value_le_trans hle hlonger)

/-- A call is admitted when the pause is over. -/
theorem unpaused_of_admitted {j : ℕ} {d : Call} (hs : step m settings s a = some s')
    (h : Admitted s s' j d) : le s.gate.pausedUntil (.finite a.now) = true := by
  obtain ⟨s₀, c, gone, hs₀, -, -, -, hp⟩ := admitted_cases hs h
  obtain ⟨hfits, -⟩ := answer_eq_holding hp
  simp only [Gate.fits, Bool.and_eq_true] at hfits
  rcases hs₀ with rfl | ⟨-, -, rfl, -⟩
  · exact hfits.1.2
  · exact hfits.1.2

/-- After a refusal at `t` that asked for a wait of `r` seconds, whatever was before it: as long
as no other one ends the pause under way earlier, no request is admitted before `t + r`. -/
theorem pause_kept_of_run {s₁ s₂ : Sys} {t : ℚ} {r : Value} {acts : List Action}
    (hfailed : step m settings s₁ (.failed (some r) t) = some s₂)
    (hrun : run (step m settings) s₂ acts = some s)
    (hl : Along (step m settings) Lengthens s₂ acts) (hs : step m settings s a = some s')
    {j : ℕ} {d : Call} (hd : Admitted s s' j d) : le (later t r) (.finite a.now) = true := by
  have hstart : PausedTo (later t r) s₂ := by
    obtain rfl := Option.some.inj hfailed
    exact .inl rfl
  have hpaused : PausedTo (later t r) s :=
    run_invariant hstart (fun _ _ _ h hlm hm => pausedTo_step h hlm hm) hl hrun
  have hover := unpaused_of_admitted hs hd
  rcases hpaused with heq | hle
  · rw [← heq]
    exact hover
  · exact value_le_trans hle hover

end Pauses

/-- A request fails with a wait of 100 seconds at 0, another without one at 1. -/
theorem pause_kept_of_run_hundred :
    ∃ s₂ s s' d, step smallModel smallSettings (start smallModel 0)
        (.failed (some (.finite 100)) 0) = some s₂ ∧
      run (step smallModel smallSettings) s₂ [.failed none 1] = some s ∧
      step smallModel smallSettings s (.acquire 10 0 900 100 100 false) = some s' ∧
      Admitted s s' 0 d ∧ le (later 0 (.finite 100)) (.finite 100) = true := by
  have hsome : ((step smallModel smallSettings (start smallModel 0)
      (.failed (some (.finite 100)) 0)).bind fun s₂ =>
        (run (step smallModel smallSettings) s₂ [.failed none 1]).bind fun s =>
          (step smallModel smallSettings s (.acquire 10 0 900 100 100 false)).bind fun s' =>
            s'.calls[0]?.bind fun d =>
              if d.holds ∧ (s.calls[0]?).any Call.holds = false then some () else none) =
      some () := by
    decide +kernel
  simp only [Option.bind_eq_some_iff, Option.ite_none_right_eq_some] at hsome
  obtain ⟨s₂, hs₂, s, hs, s', hs', d, hd, ⟨hh, hnew⟩, -⟩ := hsome
  have hadmitted : Admitted s s' 0 d := ⟨hd, hh, hnew⟩
  have hl : Along (step smallModel smallSettings) Lengthens s₂ [.failed none 1] :=
    ⟨trivial, trivial⟩
  exact ⟨s₂, s, s', d, hs₂, hs, hs', hadmitted, pause_kept_of_run hs₂ hs hl hs' hadmitted⟩

/-- A wait of one second, asked for at 1, ends the pause of 100 seconds at 2. -/
theorem not_pause_kept_shorter :
    ¬∀ (m : Model) (settings : Settings) (clock t : ℚ) (r : Value) (acts : List Action)
      (s₂ s s' : Sys) (a : Action) (j : ℕ) (d : Call),
      step m settings (start m clock) (.failed (some r) t) = some s₂ →
      run (step m settings) s₂ acts = some s → step m settings s a = some s' →
      Admitted s s' j d → le (later t r) (.finite a.now) = true := by
  intro h
  have hsome : ((step smallModel smallSettings (start smallModel 0)
      (.failed (some (.finite 100)) 0)).bind fun s₂ =>
        (run (step smallModel smallSettings) s₂ [.failed (some (.finite 1)) 1]).bind fun s =>
          (step smallModel smallSettings s (.acquire 10 0 900 2 2 false)).bind fun s' =>
            s'.calls[0]?.bind fun d =>
              if d.holds ∧ (s.calls[0]?).any Call.holds = false then some () else none) =
      some () := by
    decide +kernel
  simp only [Option.bind_eq_some_iff, Option.ite_none_right_eq_some] at hsome
  obtain ⟨s₂, hs₂, s, hs, s', hs', d, hd, ⟨hh, hnew⟩, -⟩ := hsome
  have hover := h _ _ _ _ _ _ _ _ _ _ _ _ hs₂ hs hs' ⟨hd, hh, hnew⟩
  exact absurd hover (by decide +kernel)

end GateCalls

end PurdueAF.LlmProxy
