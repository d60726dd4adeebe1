import PurdueAF.LlmGate
import PurdueAF.Machine

/-!
# Calls on one gate

Any number of threads call the methods of one `Gate`, each under its lock. An `acquire` looks
for room when it begins and at every wake-up until it is admitted, its deadline passes or its
client is gone; between two looks the other calls run.
-/
namespace PurdueAF.LlmProxy
open Py Binary64 Machine

namespace Gate

/-- `_fits` drops what left the last minute when it comes to sum the output up. -/
def checked (g : Gate) (m : Model) (tokens : ℤ) (now : ℚ) : Gate :=
  if g.busy < g.slots && (g.held + tokens ≤ m.budget || g.busy = 0) &&
      le g.pausedUntil (.finite now) then
    { g with output := g.output.dropWhile fun e => 60 < now - e.1 }
  else g

/-- `failed`, up to the wait it returns. -/
def failed (g : Gate) (settings : Settings) (retryAfter : Option Value) (now : ℚ) : Gate :=
  match retryAfter with
  | some r => (g.noteFailure settings now).pause r now
  | none => g.noteFailure settings now

end Gate

namespace GateCalls

inductive Phase
  | waiting | holding | refused | released
  deriving DecidableEq, Repr

/-- A call of `acquire` and the release that follows it. -/
structure Call where
  seq : ℕ
  tokens : ℕ
  rank : ℤ
  since : ℚ
  deadline : ℚ
  phase : Phase
  deriving DecidableEq, Repr

/-- What `waiting` keeps of a call in progress. -/
def Call.entry (c : Call) : Option (ℕ × ℤ × ℚ) :=
  if c.phase = .waiting then some (c.seq, c.rank, c.since) else none

def Call.holds (c : Call) : Bool := c.phase = .holding

def Call.held (c : Call) : ℤ := if c.holds then c.tokens else 0

/-- The gate, the calls of `acquire` in the order they began, and the last time read. -/
structure Sys where
  gate : Gate
  calls : List Call
  clock : ℚ

inductive Action
  | acquire (tokens : ℕ) (rank : ℤ) (deadline since now : ℚ) (gone : Bool)
  | wake (i : ℕ) (now : ℚ) (gone : Bool)
  | release (i : ℕ) (completion : ℤ) (now : ℚ)
  | failed (retryAfter : Option Value) (now : ℚ)
  | observe (ttft : Option ℚ) (decode : Option Value) (now : ℚ)
  /-- The first half of `succeeded`; the second is an `observe`. -/
  | recovered

def start (m : Model) (clock : ℚ) : Sys := ⟨{ slots := m.slots.1 }, [], clock⟩

/-- How a look ends. -/
def answer (g : Gate) (m : Model) (c : Call) (now : ℚ) (gone : Bool) : Phase :=
  if gone then .refused
  else if g.fits m c.tokens now && g.first c.seq now then .holding
  else if c.deadline ≤ now then .refused
  else .waiting

def settle (g : Gate) (c : Call) : Phase → Gate
  | .holding => (g.take c.tokens).leave c.seq
  | .refused => g.leave c.seq
  | _ => g

/-- One pass of the loop of `acquire`, of the call at `i`. -/
def look (m : Model) (s : Sys) (i : ℕ) (c : Call) (now : ℚ) (gone : Bool) : Sys :=
  let p := answer s.gate m c now gone
  let g := if gone then s.gate else s.gate.checked m c.tokens now
  ⟨settle g c p, s.calls.set i { c with phase := p }, now⟩

def enter (s : Sys) (c : Call) : Sys :=
  { s with gate := s.gate.enqueue c.rank c.since, calls := s.calls ++ [c] }

def step (m : Model) (settings : Settings) (s : Sys) : Action → Option Sys
  | .acquire tokens rank deadline since now gone =>
    let c : Call := ⟨s.gate.seq + 1, tokens, rank, since, deadline, .waiting⟩
    some (look m (enter s c) s.calls.length c now gone)
  | .wake i now gone =>
    match s.calls[i]? with
    | some c => if c.phase = .waiting then some (look m s i c now gone) else none
    | none => none
  | .release i completion now =>
    match s.calls[i]? with
    | some c =>
      if c.phase = .holding then
        some ⟨s.gate.release c.tokens completion now, s.calls.set i { c with phase := .released },
          now⟩
      else none
    | none => none
  | .failed retryAfter now => some { s with gate := s.gate.failed settings retryAfter now, clock := now }
  | .observe ttft decode now => some { s with gate := s.gate.observe m ttft decode now, clock := now }
  | .recovered => some { s with gate := s.gate.recovered }

/-- The gate counts the same requests, those that wait among them. -/
structure Framed (g g' : Gate) : Prop where
  busy : g'.busy = g.busy
  held : g'.held = g.held
  waiting : g'.waiting = g.waiting
  seq : g'.seq = g.seq

theorem Framed.rfl {g : Gate} : Framed g g := ⟨Eq.refl _, Eq.refl _, Eq.refl _, Eq.refl _⟩

def SlotsIn (m : Model) (g : Gate) : Prop := 1 ≤ g.slots ∧ g.slots ≤ m.slots.2

theorem framed_checked (g : Gate) (m : Model) (tokens : ℤ) (now : ℚ) :
    Framed g (g.checked m tokens now) ∧ (g.checked m tokens now).slots = g.slots := by
  unfold Gate.checked
  split_ifs
  · exact ⟨⟨rfl, rfl, rfl, rfl⟩, rfl⟩
  · exact ⟨.rfl, rfl⟩

theorem framed_halveSlots {m : Model} {g : Gate} (now : ℚ) (h : SlotsIn m g) :
    Framed g (g.halveSlots now) ∧ SlotsIn m (g.halveSlots now) := by
  obtain ⟨hlow, hhigh⟩ := h
  have hmax : 1 ≤ m.slots.2 := m.slots_ok.1.trans m.slots_ok.2
  have hhalf : g.slots / 2 ≤ m.slots.2 := by omega
  exact ⟨⟨rfl, rfl, rfl, rfl⟩, le_max_left _ _, max_le hmax hhalf⟩

theorem framed_adjust {m : Model} {g : Gate} (now : ℚ) (h : SlotsIn m g) :
    Framed g (g.adjust m now) ∧ SlotsIn m (g.adjust m now) := by
  unfold Gate.adjust
  dsimp only
  generalize (if g.ttfts.isEmpty then Value.finite 0 else median (g.ttfts.map Prod.snd)) = ttft
  split_ifs with hfew hslow hgrow
  · exact ⟨.rfl, h⟩
  · exact framed_halveSlots now h
  · have hlt : g.slots < m.slots.2 := by
      simp only [Bool.and_eq_true, decide_eq_true_eq] at hgrow
      exact hgrow.2
    have hlow : 1 ≤ g.slots := h.1
    exact ⟨⟨rfl, rfl, rfl, rfl⟩, show 1 ≤ g.slots + 1 by omega, hlt⟩
  · exact ⟨.rfl, h⟩

theorem framed_observe {m : Model} {g : Gate} (ttft : Option ℚ) (decode : Option Value) (now : ℚ)
    (h : SlotsIn m g) :
    Framed g (g.observe m ttft decode now) ∧ SlotsIn m (g.observe m ttft decode now) := by
  unfold Gate.observe
  dsimp only
  obtain ⟨hframe, hslots⟩ := framed_adjust (m := m) (g := ({ g with
    ttfts := g.ttfts ++ (ttft.map fun t => (now, Value.finite t)).toList
    decodes := g.decodes ++ (decode.map fun d => (now, d)).toList } : Gate).trim now) now h
  exact ⟨⟨hframe.busy, hframe.held, hframe.waiting, hframe.seq⟩, hslots⟩

theorem framed_noteFailure {m : Model} {g : Gate} (settings : Settings) (now : ℚ)
    (h : SlotsIn m g) :
    Framed g (g.noteFailure settings now) ∧ SlotsIn m (g.noteFailure settings now) ∧
      (g.noteFailure settings now).pausedUntil = g.pausedUntil := by
  obtain ⟨hframe, hslots⟩ := framed_halveSlots now h
  unfold Gate.noteFailure
  dsimp only
  split_ifs <;>
    first
    | exact ⟨⟨rfl, rfl, rfl, rfl⟩, h, rfl⟩
    | exact ⟨⟨rfl, rfl, rfl, rfl⟩, hslots, rfl⟩

theorem framed_failed {m : Model} {g : Gate} (settings : Settings) (retryAfter : Option Value)
    (now : ℚ) (h : SlotsIn m g) :
    Framed g (g.failed settings retryAfter now) ∧ SlotsIn m (g.failed settings retryAfter now) := by
  obtain ⟨hframe, hslots, -⟩ := framed_noteFailure settings now h
  cases retryAfter with
  | none => exact ⟨hframe, hslots⟩
  | some r => exact ⟨⟨hframe.busy, hframe.held, hframe.waiting, hframe.seq⟩, hslots⟩

/-- The gate's books: what `busy`, `held`, `slots` and `waiting` say of the calls. -/
structure Accounted (m : Model) (s : Sys) : Prop where
  busy : s.gate.busy = s.calls.countP Call.holds
  held : s.gate.held = (s.calls.map Call.held).sum
  slots : SlotsIn m s.gate
  within : s.gate.busy ≤ m.slots.2
  budget : s.gate.held ≤ m.budget ∨ s.gate.busy = 1
  waiting : s.gate.waiting = s.calls.filterMap Call.entry

/-- What holds of the queue whatever the budget: the calls in progress wait in the order they
began, each with a number of its own, and the gate has the largest. -/
structure Queued (m : Model) (s : Sys) : Prop where
  slots : SlotsIn m s.gate
  waiting : s.gate.waiting = s.calls.filterMap Call.entry
  nodup : (s.calls.map Call.seq).Nodup
  le : ∀ c ∈ s.calls, c.seq ≤ s.gate.seq

/-- What holds of the requests admitted, for a budget that is not negative. -/
structure Counted (m : Model) (s : Sys) : Prop where
  busy : s.gate.busy = s.calls.countP Call.holds
  held : s.gate.held = (s.calls.map Call.held).sum
  within : s.gate.busy ≤ m.slots.2
  budget : s.gate.held ≤ m.budget ∨ s.gate.busy = 1

structure Sound (m : Model) (s : Sys) : Prop where
  queued : Queued m s
  counted : Counted m s

/-- A call keeps its number and the rest when its phase changes. -/
theorem map_set_phase {β : Type*} (f : Call → β) {calls : List Call} {i : ℕ} {c : Call} {p : Phase}
    (hf : f { c with phase := p } = f c) (hi : calls[i]? = some c) :
    (calls.set i { c with phase := p }).map f = calls.map f := by
  obtain ⟨l, r, rfl, -, hset⟩ := split_set hi
  rw [hset, List.map_append, List.map_cons, List.map_append, List.map_cons, hf]

theorem queued_set {m : Model} {s : Sys} {i : ℕ} {c : Call} {g : Gate} {p : Phase} {now : ℚ}
    (hi : s.calls[i]? = some c) (hseq : g.seq = s.gate.seq) (hin : SlotsIn m g)
    (hwaiting : g.waiting = (s.calls.set i { c with phase := p }).filterMap Call.entry)
    (h : Queued m s) : Queued m ⟨g, s.calls.set i { c with phase := p }, now⟩ := by
  have hmap := map_set_phase Call.seq (p := p) rfl hi
  refine ⟨hin, hwaiting, by rw [hmap]; exact h.nodup, fun d hd => ?_⟩
  have hmem : d.seq ∈ s.calls.map Call.seq := by
    rw [← hmap]
    exact List.mem_map_of_mem hd
  obtain ⟨e, he, heq⟩ := List.mem_map.mp hmem
  have hle := h.le e he
  rw [heq] at hle
  exact hseq ▸ hle

theorem filterMap_entry_filter {calls : List Call} {n : ℕ} (h : ∀ c ∈ calls, c.seq ≠ n) :
    (calls.filterMap Call.entry).filter (fun e => e.1 ≠ n) = calls.filterMap Call.entry := by
  rw [List.filter_eq_self]
  intro e he
  obtain ⟨c, hc, hce⟩ := List.mem_filterMap.mp he
  unfold Call.entry at hce
  split_ifs at hce
  obtain rfl := Option.some.inj hce
  simpa using h c hc

theorem seq_ne_of_nodup {l r : List Call} {c : Call} (h : ((l ++ c :: r).map Call.seq).Nodup) :
    ∀ d ∈ l ++ r, d.seq ≠ c.seq := by
  intro d hd heq
  rw [List.map_append, List.map_cons, List.nodup_middle, List.nodup_cons, ← List.map_append] at h
  exact h.1 (List.mem_map.mpr ⟨d, hd, heq⟩)

/-- A call that leaves is the only one that does. -/
theorem filter_waiting {l r : List Call} {c : Call} (hc : c.phase = .waiting)
    (hn : ((l ++ c :: r).map Call.seq).Nodup) :
    ((l ++ c :: r).filterMap Call.entry).filter (fun e => e.1 ≠ c.seq) =
      (l ++ r).filterMap Call.entry := by
  have hother := seq_ne_of_nodup hn
  have hl := filterMap_entry_filter fun d hd => hother d (List.mem_append_left r hd)
  have hr := filterMap_entry_filter fun d hd => hother d (List.mem_append_right l hd)
  have hentry : c.entry = some (c.seq, c.rank, c.since) := if_pos hc
  rw [List.filterMap_append, List.filterMap_cons_some hentry, List.filter_append, hl,
    List.filter_cons_of_neg (by simp), hr, List.filterMap_append]

section Middle
variable (l r : List Call) (c : Call)

theorem countP_holds_middle : ((l ++ c :: r).countP Call.holds : ℤ) =
    (l ++ r).countP Call.holds + if c.holds then 1 else 0 := by
  cases hc : c.holds <;> simp [List.countP_append, hc, add_assoc]

theorem sum_held_middle : ((l ++ c :: r).map Call.held).sum =
    ((l ++ r).map Call.held).sum + c.held := by
  simp only [List.map_append, List.map_cons, List.sum_append, List.sum_cons]
  ring

theorem filterMap_entry_middle (h : c.phase ≠ .waiting) :
    (l ++ c :: r).filterMap Call.entry = (l ++ r).filterMap Call.entry := by
  have hnone : c.entry = none := if_neg h
  rw [List.filterMap_append, List.filterMap_cons_none hnone, List.filterMap_append]

end Middle

theorem sum_held_eq_zero {calls : List Call} (h : calls.countP Call.holds = 0) :
    (calls.map Call.held).sum = 0 := by
  rw [List.countP_eq_zero] at h
  apply List.sum_eq_zero
  intro n hn
  obtain ⟨c, hc, rfl⟩ := List.mem_map.mp hn
  simp [Call.held, h c hc]

theorem answer_eq_holding {g : Gate} {m : Model} {c : Call} {now : ℚ} {gone : Bool}
    (h : answer g m c now gone = .holding) :
    g.fits m c.tokens now = true ∧ g.first c.seq now = true := by
  unfold answer at h
  split_ifs at h with hgone hroom
  exact Bool.and_eq_true _ _ ▸ hroom

theorem answer_ne_released {g : Gate} {m : Model} {c : Call} {now : ℚ} {gone : Bool} :
    answer g m c now gone ≠ .released := by
  unfold answer
  split_ifs <;> decide

section Settle
variable (g : Gate) (c : Call)

@[simp] theorem settle_refused_busy : (settle g c .refused).busy = g.busy := rfl

@[simp] theorem settle_refused_held : (settle g c .refused).held = g.held := rfl

@[simp] theorem settle_holding_busy : (settle g c .holding).busy = g.busy + 1 := rfl

@[simp] theorem settle_holding_held : (settle g c .holding).held = g.held + c.tokens := rfl

end Settle

section Look
variable {m : Model} {s : Sys} {i : ℕ} {c : Call} (now : ℚ) (gone : Bool)

/-- The gate a pass settles on, before the call is counted or leaves. -/
def lookedAt (m : Model) (s : Sys) (c : Call) (now : ℚ) (gone : Bool) : Gate :=
  if gone then s.gate else s.gate.checked m c.tokens now

theorem look_eq : look m s i c now gone =
    ⟨settle (lookedAt m s c now gone) c (answer s.gate m c now gone),
      s.calls.set i { c with phase := answer s.gate m c now gone }, now⟩ := rfl

theorem framed_lookedAt : Framed s.gate (lookedAt m s c now gone) ∧
    (lookedAt m s c now gone).slots = s.gate.slots := by
  unfold lookedAt
  split_ifs
  · exact ⟨.rfl, rfl⟩
  · exact framed_checked s.gate m c.tokens now

theorem queued_look (hi : s.calls[i]? = some c) (hw : c.phase = .waiting) (h : Queued m s) :
    Queued m (look m s i c now gone) := by
  obtain ⟨l, r, hcalls, -, hset⟩ := split_set hi
  obtain ⟨hframe, hslots⟩ := framed_lookedAt (m := m) (s := s) (c := c) now gone
  have hin : SlotsIn m (lookedAt m s c now gone) := by
    unfold SlotsIn
    rw [hslots]
    exact h.slots
  have hleft := filter_waiting hw (hcalls ▸ h.nodup)
  rw [← hcalls, ← h.waiting, ← hframe.waiting] at hleft
  rw [look_eq]
  cases hp : answer s.gate m c now gone with
  | waiting =>
    have hsame : ({ c with phase := .waiting } : Call) = c := by rw [← hw]
    have hkept : (lookedAt m s c now gone).waiting =
        (s.calls.set i { c with phase := .waiting }).filterMap Call.entry := by
      rw [hset, hsame, ← hcalls, hframe.waiting, h.waiting]
    exact queued_set hi hframe.seq hin hkept h
  | refused =>
    refine queued_set hi hframe.seq hin ?_ h
    rw [hset, filterMap_entry_middle _ _ _ (by simp)]
    exact hleft
  | holding =>
    refine queued_set hi hframe.seq hin ?_ h
    rw [hset, filterMap_entry_middle _ _ _ (by simp)]
    exact hleft
  | released => exact absurd hp answer_ne_released

theorem counted_look (hi : s.calls[i]? = some c) (hw : c.phase = .waiting) (hin : SlotsIn m s.gate)
    (h : Counted m s) : Counted m (look m s i c now gone) := by
  obtain ⟨l, r, hcalls, -, hset⟩ := split_set hi
  obtain ⟨hframe, -⟩ := framed_lookedAt (m := m) (s := s) (c := c) now gone
  obtain ⟨hbusy, hheld, hwithin, hbudget⟩ := h
  -- The books without the call, which waits.
  have hnot : c.holds = false := by simp [Call.holds, hw]
  have hzero : c.held = 0 := by simp [Call.held, hnot]
  have hbusy' : s.gate.busy = (l ++ r).countP Call.holds := by
    rw [hbusy, hcalls, countP_holds_middle, hnot]
    simp
  have hheld' : s.gate.held = ((l ++ r).map Call.held).sum := by
    rw [hheld, hcalls, sum_held_middle, hzero, add_zero]
  rw [look_eq, hset]
  cases hp : answer s.gate m c now gone with
  | waiting =>
    have hsame : ({ c with phase := .waiting } : Call) = c := by rw [← hw]
    rw [hsame, ← hcalls]
    refine ⟨hframe.busy.trans hbusy, hframe.held.trans hheld, ?_, ?_⟩
    · exact hframe.busy ▸ hwithin
    · exact (hframe.busy ▸ hframe.held ▸ hbudget :)
  | refused =>
    refine ⟨?_, ?_, ?_, ?_⟩
    · rw [countP_holds_middle]
      simpa [Call.holds] using hframe.busy.trans hbusy'
    · rw [sum_held_middle]
      simpa [Call.held, Call.holds] using hframe.held.trans hheld'
    · exact hframe.busy ▸ hwithin
    · exact (hframe.busy ▸ hframe.held ▸ hbudget :)
  | holding =>
    obtain ⟨hfits, -⟩ := answer_eq_holding hp
    simp only [Gate.fits, Bool.and_eq_true, Bool.or_eq_true, decide_eq_true_eq] at hfits
    obtain ⟨⟨⟨hroom, htokens⟩, -⟩, -⟩ := hfits
    refine ⟨?_, ?_, ?_, ?_⟩
    · rw [countP_holds_middle, settle_holding_busy, hframe.busy, hbusy']
      rfl
    · rw [sum_held_middle, settle_holding_held, hframe.held, hheld']
      rfl
    · rw [settle_holding_busy, hframe.busy]
      have hmax := hin.2
      omega
    · rw [settle_holding_busy, settle_holding_held, hframe.busy, hframe.held]
      omega
  | released => exact absurd hp answer_ne_released

end Look

theorem queued_enter {m : Model} {s : Sys} {c : Call} (hc : c.seq = s.gate.seq + 1)
    (hw : c.phase = .waiting) (h : Queued m s) : Queued m (enter s c) := by
  refine ⟨h.slots, ?_, ?_, ?_⟩
  · simp [enter, Gate.enqueue, h.waiting, Call.entry, hw, hc]
  · have hnew : ∀ d ∈ s.calls, d.seq ≠ c.seq := by
      intro d hd
      have hle := h.le d hd
      omega
    simp only [enter, List.map_append, List.map_cons, List.map_nil]
    rw [List.nodup_append]
    refine ⟨h.nodup, by simp, ?_⟩
    intro a ha b hb heq
    obtain ⟨d, hd, rfl⟩ := List.mem_map.mp ha
    exact hnew d hd (heq.trans (by simpa using hb))
  · intro d hd
    simp only [enter, List.mem_append, List.mem_singleton, Gate.enqueue] at hd ⊢
    rcases hd with hd | rfl
    · have hle := h.le d hd
      omega
    · omega

theorem counted_enter {m : Model} {s : Sys} {c : Call} (hw : c.phase = .waiting)
    (h : Counted m s) : Counted m (enter s c) := by
  have hnot : c.holds = false := by simp [Call.holds, hw]
  obtain ⟨hbusy, hheld, hwithin, hbudget⟩ := h
  refine ⟨?_, ?_, hwithin, hbudget⟩
  · simpa [enter, Gate.enqueue, List.countP_append, hnot] using hbusy
  · simpa [enter, Gate.enqueue, Call.held, hnot] using hheld

theorem queued_release {m : Model} {s : Sys} {i : ℕ} {c : Call} {completion : ℤ} {now : ℚ}
    (hi : s.calls[i]? = some c) (hp : c.phase = .holding) (h : Queued m s) :
    Queued m ⟨s.gate.release c.tokens completion now,
      s.calls.set i { c with phase := .released }, now⟩ := by
  obtain ⟨l, r, hcalls, -, hset⟩ := split_set hi
  refine queued_set hi rfl h.slots ?_ h
  rw [hset, filterMap_entry_middle _ _ _ (by simp)]
  exact h.waiting.trans (by rw [hcalls, filterMap_entry_middle _ _ _ (by simp [hp])])

theorem counted_release {m : Model} {s : Sys} {i : ℕ} {c : Call} {completion : ℤ} {now : ℚ}
    (hb : 0 ≤ m.budget) (hi : s.calls[i]? = some c) (hp : c.phase = .holding)
    (h : Counted m s) :
    Counted m ⟨s.gate.release c.tokens completion now,
      s.calls.set i { c with phase := .released }, now⟩ := by
  obtain ⟨l, r, hcalls, -, hset⟩ := split_set hi
  obtain ⟨hbusy, hheld, hwithin, hbudget⟩ := h
  have hholds : c.holds = true := by simp [Call.holds, hp]
  have htokens : c.held = c.tokens := by simp [Call.held, hholds]
  have hbusy' : s.gate.busy - 1 = (l ++ r).countP Call.holds := by
    rw [hbusy, hcalls, countP_holds_middle, hholds]
    simp
  have hheld' : s.gate.held - c.tokens = ((l ++ r).map Call.held).sum := by
    rw [hheld, hcalls, sum_held_middle, htokens, add_sub_cancel_right]
  rw [hset]
  refine ⟨?_, ?_, ?_, ?_⟩
  · rw [countP_holds_middle]
    exact hbusy'.trans (add_zero _).symm
  · rw [sum_held_middle]
    exact hheld'.trans (add_zero _).symm
  · show s.gate.busy - 1 ≤ m.slots.2
    omega
  · -- The one request above the budget was alone: nothing is held without it.
    rcases hbudget with hle | hone
    · refine .inl (show s.gate.held - c.tokens ≤ m.budget from ?_)
      omega
    · have hnone : (l ++ r).countP Call.holds = 0 := by omega
      refine .inl (show s.gate.held - c.tokens ≤ m.budget from ?_)
      rw [hheld', sum_held_eq_zero hnone]
      exact hb

/-- What a step does, by its action. -/
inductive Does (m : Model) (settings : Settings) (s : Sys) : Action → Sys → Prop
  | acquire {c : Call} (hseq : c.seq = s.gate.seq + 1) (hw : c.phase = .waiting) (now : ℚ)
      (gone : Bool) : Does m settings s
        (.acquire c.tokens c.rank c.deadline c.since now gone)
        (look m (enter s c) s.calls.length c now gone)
  | wake {i : ℕ} {c : Call} (hi : s.calls[i]? = some c) (hw : c.phase = .waiting) (now : ℚ)
      (gone : Bool) : Does m settings s (.wake i now gone) (look m s i c now gone)
  | release {i : ℕ} {c : Call} (hi : s.calls[i]? = some c) (hp : c.phase = .holding)
      (completion : ℤ) (now : ℚ) : Does m settings s (.release i completion now)
        ⟨s.gate.release c.tokens completion now, s.calls.set i { c with phase := .released }, now⟩
  | failed (retryAfter : Option Value) (now : ℚ) : Does m settings s (.failed retryAfter now)
      { s with gate := s.gate.failed settings retryAfter now, clock := now }
  | observe (ttft : Option ℚ) (decode : Option Value) (now : ℚ) : Does m settings s
      (.observe ttft decode now) { s with gate := s.gate.observe m ttft decode now, clock := now }
  | recovered : Does m settings s .recovered { s with gate := s.gate.recovered }

section Steps
variable {m : Model} {settings : Settings} {s s' : Sys} {a : Action}

theorem does_of_step (h : step m settings s a = some s') : Does m settings s a s' := by
  cases a with
  | acquire tokens rank deadline since now gone =>
    obtain rfl := Option.some.inj h
    exact .acquire (c := ⟨s.gate.seq + 1, tokens, rank, since, deadline, .waiting⟩) rfl rfl now gone
  | wake i now gone =>
    simp only [step] at h
    split at h
    · next c hi =>
      split_ifs at h with hw
      obtain rfl := Option.some.inj h
      exact .wake hi hw now gone
    · cases h
  | release i completion now =>
    simp only [step] at h
    split at h
    · next c hi =>
      split_ifs at h with hp
      obtain rfl := Option.some.inj h
      exact .release hi hp completion now
    · cases h
  | failed retryAfter now =>
    obtain rfl := Option.some.inj h
    exact .failed retryAfter now
  | observe ttft decode now =>
    obtain rfl := Option.some.inj h
    exact .observe ttft decode now
  | recovered =>
    obtain rfl := Option.some.inj h
    exact .recovered

theorem getElem?_enter (s : Sys) (c : Call) : (enter s c).calls[s.calls.length]? = some c := by
  simp [enter]

/-- A method that moves no call keeps the books. -/
theorem counted_framed {g : Gate} {now : ℚ} (hframe : Framed s.gate g) (h : Counted m s) :
    Counted m { s with gate := g, clock := now } := by
  obtain ⟨hbusy, hheld, hwithin, hbudget⟩ := h
  refine ⟨hframe.busy.trans hbusy, hframe.held.trans hheld, ?_, ?_⟩
  · exact hframe.busy ▸ hwithin
  · exact (hframe.busy ▸ hframe.held ▸ hbudget :)

theorem queued_framed {g : Gate} {now : ℚ} (hframe : Framed s.gate g) (hin : SlotsIn m g)
    (h : Queued m s) : Queued m { s with gate := g, clock := now } :=
  ⟨hin, hframe.waiting.trans h.waiting, h.nodup, fun c hc => hframe.seq ▸ h.le c hc⟩

theorem queued_step (h : Queued m s) (hs : step m settings s a = some s') : Queued m s' := by
  cases does_of_step hs with
  | acquire hseq hw now gone =>
    exact queued_look now gone (getElem?_enter s _) hw (queued_enter hseq hw h)
  | wake hi hw now gone => exact queued_look now gone hi hw h
  | release hi hp completion now => exact queued_release hi hp h
  | failed retryAfter now =>
    obtain ⟨hframe, hin⟩ := framed_failed settings retryAfter now h.slots
    exact queued_framed hframe hin h
  | observe ttft decode now =>
    obtain ⟨hframe, hin⟩ := framed_observe ttft decode now h.slots
    exact queued_framed hframe hin h
  | recovered => exact queued_framed ⟨rfl, rfl, rfl, rfl⟩ h.slots h

theorem counted_step (hb : 0 ≤ m.budget) (h : Sound m s) (hs : step m settings s a = some s') :
    Counted m s' := by
  obtain ⟨hq, h⟩ := h
  cases does_of_step hs with
  | acquire hseq hw now gone =>
    exact counted_look now gone (getElem?_enter s _) hw hq.slots (counted_enter hw h)
  | wake hi hw now gone => exact counted_look now gone hi hw hq.slots h
  | release hi hp completion now => exact counted_release hb hi hp h
  | failed retryAfter now =>
    exact counted_framed (framed_failed settings retryAfter now hq.slots).1 h
  | observe ttft decode now => exact counted_framed (framed_observe ttft decode now hq.slots).1 h
  | recovered => exact counted_framed ⟨rfl, rfl, rfl, rfl⟩ h

/-- The call of `acquire` that a step is part of. -/
def Action.acquiring (s : Sys) : Action → Option ℕ
  | .acquire .. => some s.calls.length
  | .wake i _ _ => some i
  | _ => none

/-- A pass that does not admit its call counts nothing. -/
theorem look_uncounted {i : ℕ} {c : Call} {now : ℚ} {gone : Bool} (hi : s.calls[i]? = some c)
    (h : ((look m s i c now gone).calls[i]?).any Call.holds = false) :
    (look m s i c now gone).gate.busy = s.gate.busy ∧
      (look m s i c now gone).gate.held = s.gate.held ∧
      (look m s i c now gone).gate.slots = s.gate.slots := by
  obtain ⟨hframe, hslots⟩ := framed_lookedAt (m := m) (s := s) (c := c) now gone
  obtain ⟨hlt, -⟩ := List.getElem?_eq_some_iff.mp hi
  rw [look_eq] at h ⊢
  cases hp : answer s.gate m c now gone with
  | holding => simp [hp, hlt, Call.holds] at h
  | waiting => exact ⟨hframe.busy, hframe.held, hslots⟩
  | refused => exact ⟨hframe.busy, hframe.held, hslots⟩
  | released => exact ⟨hframe.busy, hframe.held, hslots⟩

theorem acquiring_uncounted {i : ℕ} (hs : step m settings s a = some s')
    (hi : a.acquiring s = some i) (h : (s'.calls[i]?).any Call.holds = false) :
    s'.gate.busy = s.gate.busy ∧ s'.gate.held = s.gate.held ∧ s'.gate.slots = s.gate.slots := by
  cases does_of_step hs with
  | acquire hseq hw now gone =>
    obtain rfl := Option.some.inj hi
    exact look_uncounted (getElem?_enter s _) h
  | wake hget hw now gone =>
    obtain rfl := Option.some.inj hi
    exact look_uncounted hget h
  | release hget hp completion now => cases hi
  | failed retryAfter now => cases hi
  | observe ttft decode now => cases hi
  | recovered => cases hi

theorem queued_start (m : Model) (clock : ℚ) : Queued m (start m clock) :=
  ⟨m.slots_ok, rfl, List.nodup_nil, by simp [start]⟩

theorem sound_start (hb : 0 ≤ m.budget) (clock : ℚ) : Sound m (start m clock) := by
  have hmax : (0 : ℤ) ≤ m.slots.2 := by
    have hok := m.slots_ok
    omega
  exact ⟨queued_start m clock, ⟨rfl, rfl, hmax, .inl hb⟩⟩

/-- In every state that calls on a gate lead to, `busy` and `held` count the requests admitted
and not released, within the slots and the budget, one larger request alone excepted, and
`waiting` has those in progress; no step of an `acquire` that does not admit it counts. -/
theorem accounted_of_run (hb : 0 ≤ m.budget) {clock : ℚ} {acts : List Action}
    (hrun : run (step m settings) (start m clock) acts = some s) :
    Accounted m s ∧ ∀ a s' i, step m settings s a = some s' → a.acquiring s = some i →
      (s'.calls[i]?).any Call.holds = false →
      s'.gate.busy = s.gate.busy ∧ s'.gate.held = s.gate.held ∧ s'.gate.slots = s.gate.slots := by
  have hsound : Sound m s := run_invariant (sound_start hb clock)
    (fun _ _ _ h _ hs => ⟨queued_step h.queued hs, counted_step hb h hs⟩) (along_true _ _ acts) hrun
  obtain ⟨hq, hc⟩ := hsound
  exact ⟨⟨hc.busy, hc.held, hq.slots, hc.within, hc.budget, hq.waiting⟩,
    fun a s' i hs hi h => acquiring_uncounted hs hi h⟩

end Steps

def smallModel : Model where
  name := "m"
  context := 1000
  slots := (1, 2)
  budget := 100
  outputPerMinute := 1000
  maxTokens := (1, 10)
  imageTokens := 0
  ttft := (1, 2)
  decode := (10, 5)
  variants := []
  slots_ok := by decide
  maxTokens_ok := by decide

def smallSettings : Settings := ⟨4, 1, 60, 60, 5, 60, 1⟩

/-- A request above the budget is let in alone, and the next once it is released. -/
def oversized : List Action :=
  [.acquire 150 0 9 0 0 false, .acquire 60 0 9 1 1 false, .release 0 5 2, .wake 1 3 false]

theorem accounted_of_run_oversized :
    ∃ s, run (step smallModel smallSettings) (start smallModel 0) oversized = some s ∧
      Accounted smallModel s ∧ ∀ a s' i, step smallModel smallSettings s a = some s' →
        a.acquiring s = some i → (s'.calls[i]?).any Call.holds = false →
        s'.gate.busy = s.gate.busy ∧ s'.gate.held = s.gate.held ∧
          s'.gate.slots = s.gate.slots := by
  have hsome : (run (step smallModel smallSettings) (start smallModel 0) oversized).isSome := by
    decide +kernel
  obtain ⟨s, hs⟩ := Option.isSome_iff_exists.mp hsome
  exact ⟨s, hs, accounted_of_run (by decide) hs⟩

end GateCalls

end PurdueAF.LlmProxy
