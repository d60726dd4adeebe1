import Mathlib.Data.List.Basic
import Mathlib.Data.List.Induction
import Mathlib.Algebra.BigOperators.Group.List.Basic
import Mathlib.Algebra.Order.BigOperators.Group.List
import Mathlib.Tactic.Ring

/-!
# Cooperative coroutines over a linearizable service

A coroutine runs without interruption from one await to the next. What it awaits
is served by the world at one moment, and the coroutine sees the answer at a later
one: between sending, serving and resuming, every other coroutine and the
environment may move. Runs are lists of actions executed by `step`.
-/
namespace PurdueAF.Coroutine

/-- What a coroutine leaves behind when it stops running: the memory it shares with
the others, where it is suspended unless it ended, and what it did on the way. -/
structure Ran (G π ο : Type*) where
  mem : G
  next : Option π
  events : List ο

/-- `W` is the world behind the awaits and `G` the memory the coroutines share;
`π` are the awaits at which one is suspended, `α` the answers, `χ` the ways in which
the world may answer, `ι` the calls that start one, and `ε` the environment's moves. -/
structure Program (W G π α ι ο χ ε : Type*) where
  start : W → G → ι → Option (Ran G π ο)
  serve : W → π → χ → Option (W × α)
  resume : W → G → π → α → Option (Ran G π ο)
  env : W → G → ε → Option (W × G)

structure Suspended (π α : Type*) where
  pc : π
  reply : Option α
  deriving DecidableEq

structure State (W G π α : Type*) where
  world : W
  mem : G
  threads : List (Option (Suspended π α))

inductive Action (ι χ ε : Type*)
  | call (arg : ι)
  | serve (thread : ℕ) (choice : χ)
  | resume (thread : ℕ)
  | env (move : ε)

variable {W G π α ι ο χ ε : Type*}

/-- The suspended coroutine of that number, if it has not ended. -/
def State.at (s : State W G π α) (t : ℕ) : Option (Suspended π α) := (s.threads[t]?).join

def State.suspended (s : State W G π α) : List (Suspended π α) := s.threads.filterMap id

def suspend (pc : Option π) : Option (Suspended π α) := pc.map fun p => ⟨p, none⟩

namespace Program
variable (P : Program W G π α ι ο χ ε)

def step (s : State W G π α) : Action ι χ ε → Option (State W G π α)
  | .call i => (P.start s.world s.mem i).map fun r =>
      ⟨s.world, r.mem, s.threads ++ [suspend r.next]⟩
  | .serve t c =>
    match s.at t with
    | some ⟨pc, none⟩ => (P.serve s.world pc c).map fun wa =>
        ⟨wa.1, s.mem, s.threads.set t (some ⟨pc, some wa.2⟩)⟩
    | _ => none
  | .resume t =>
    match s.at t with
    | some ⟨pc, some a⟩ => (P.resume s.world s.mem pc a).map fun r =>
        ⟨s.world, r.mem, s.threads.set t (suspend r.next)⟩
    | _ => none
  | .env e => (P.env s.world s.mem e).map fun wg => ⟨wg.1, wg.2, s.threads⟩

/-- What the action's coroutine does before it is suspended again or ends. -/
def emits (s : State W G π α) : Action ι χ ε → List ο
  | .call i => (P.start s.world s.mem i).elim [] Ran.events
  | .resume t =>
    match s.at t with
    | some ⟨pc, some a⟩ => (P.resume s.world s.mem pc a).elim [] Ran.events
    | _ => []
  | _ => []

def run (s : State W G π α) : List (Action ι χ ε) → Option (State W G π α)
  | [] => some s
  | a :: acts => (P.step s a).bind fun s' => run s' acts

/-- Every step of the run meets `C` in the state it is made in. -/
def Along (C : State W G π α → Action ι χ ε → Prop) (s : State W G π α) :
    List (Action ι χ ε) → Prop
  | [] => True
  | a :: acts => C s a ∧
    match P.step s a with
    | some s' => Along C s' acts
    | none => True

instance decidableAlong (C : State W G π α → Action ι χ ε → Prop)
    [∀ s a, Decidable (C s a)] : ∀ s acts, Decidable (P.Along C s acts)
  | _, [] => .isTrue trivial
  | s, a :: acts =>
    haveI : Decidable (match P.step s a with
        | some s' => P.Along C s' acts
        | none => True) :=
      match P.step s a with
      | some s' => decidableAlong C s' acts
      | none => .isTrue trivial
    inferInstanceAs (Decidable (_ ∧ _))

variable {P} {s s' : State W G π α}

theorem step_call {i : ι} (h : P.step s (.call i) = some s') :
    ∃ r, P.start s.world s.mem i = some r ∧
      s' = ⟨s.world, r.mem, s.threads ++ [suspend r.next]⟩ := by
  simp only [step, Option.map_eq_some_iff] at h
  obtain ⟨r, hr, rfl⟩ := h
  exact ⟨r, hr, rfl⟩

theorem step_serve {t : ℕ} {c : χ} (h : P.step s (.serve t c) = some s') :
    ∃ pc w a, s.at t = some ⟨pc, none⟩ ∧ P.serve s.world pc c = some (w, a) ∧
      s' = ⟨w, s.mem, s.threads.set t (some ⟨pc, some a⟩)⟩ := by
  simp only [step] at h
  split at h
  · rename_i pc ht
    obtain ⟨⟨w, a⟩, hs, rfl⟩ := Option.map_eq_some_iff.mp h
    exact ⟨pc, w, a, ht, hs, rfl⟩
  · cases h

theorem step_resume {t : ℕ} (h : P.step s (.resume t) = some s') :
    ∃ pc a r, s.at t = some ⟨pc, some a⟩ ∧ P.resume s.world s.mem pc a = some r ∧
      s' = ⟨s.world, r.mem, s.threads.set t (suspend r.next)⟩ := by
  simp only [step] at h
  split at h
  · rename_i pc a ht
    obtain ⟨r, hr, rfl⟩ := Option.map_eq_some_iff.mp h
    exact ⟨pc, a, r, ht, hr, rfl⟩
  · cases h

theorem step_env {e : ε} (h : P.step s (.env e) = some s') :
    ∃ w g, P.env s.world s.mem e = some (w, g) ∧ s' = ⟨w, g, s.threads⟩ := by
  simp only [step, Option.map_eq_some_iff] at h
  obtain ⟨⟨w, g⟩, he, rfl⟩ := h
  exact ⟨w, g, he, rfl⟩

theorem mem_emits {a : Action ι χ ε} {e : ο} (h : e ∈ P.emits s a) :
    (∃ i r, a = .call i ∧ P.start s.world s.mem i = some r ∧ e ∈ r.events) ∨
    ∃ t pc x r, a = .resume t ∧ s.at t = some ⟨pc, some x⟩ ∧
      P.resume s.world s.mem pc x = some r ∧ e ∈ r.events := by
  cases a with
  | call i =>
    simp only [emits] at h
    cases hr : P.start s.world s.mem i with
    | none => simp [hr] at h
    | some r => exact .inl ⟨i, r, rfl, hr, by simpa [hr] using h⟩
  | resume t =>
    simp only [emits] at h
    split at h
    · rename_i pc x ht
      cases hr : P.resume s.world s.mem pc x with
      | none => simp [hr] at h
      | some r => exact .inr ⟨t, pc, x, r, rfl, ht, hr, by simpa [hr] using h⟩
    · simp at h
  | serve t c => simp [emits] at h
  | env e => simp [emits] at h

theorem run_cons {a : Action ι χ ε} {acts : List (Action ι χ ε)}
    (h : P.run s (a :: acts) = some s') :
    ∃ m, P.step s a = some m ∧ P.run m acts = some s' := Option.bind_eq_some_iff.mp h

theorem run_append (acts more : List (Action ι χ ε)) :
    P.run s (acts ++ more) = (P.run s acts).bind fun m => P.run m more := by
  induction acts generalizing s with
  | nil => rfl
  | cons a acts ih =>
    simp only [List.cons_append, run]
    cases P.step s a with
    | none => rfl
    | some m => exact ih

theorem Along.tail {C : State W G π α → Action ι χ ε → Prop} {a : Action ι χ ε}
    {acts : List (Action ι χ ε)} (h : P.Along C s (a :: acts)) {m : State W G π α}
    (hm : P.step s a = some m) : P.Along C m acts := by
  have hr := h.2
  rwa [hm] at hr

theorem Along.of_forall_mem {C : State W G π α → Action ι χ ε → Prop}
    {acts : List (Action ι χ ε)} (h : ∀ a ∈ acts, ∀ s, C s a) : P.Along C s acts := by
  induction acts generalizing s with
  | nil => trivial
  | cons a acts ih =>
    refine ⟨h a List.mem_cons_self s, ?_⟩
    split
    · exact ih fun b hb => h b (List.mem_cons_of_mem a hb)
    · trivial

/-- The condition at the last step of a run. -/
theorem Along.last {C : State W G π α → Action ι χ ε → Prop} {a : Action ι χ ε}
    {acts : List (Action ι χ ε)} (h : P.Along C s (acts ++ [a]))
    (hr : P.run s acts = some s') : P.Along C s acts ∧ C s' a := by
  induction acts generalizing s with
  | nil =>
    obtain rfl : s = s' := Option.some.inj hr
    exact ⟨trivial, h.1⟩
  | cons b acts ih =>
    obtain ⟨m, hm, hr⟩ := run_cons hr
    obtain ⟨ht, hc⟩ := ih (h.tail hm) hr
    refine ⟨⟨h.1, ?_⟩, hc⟩
    rw [hm]
    exact ht

/-- What every step that meets `C` preserves holds wherever such a run leads. -/
theorem run_invariant {C : State W G π α → Action ι χ ε → Prop}
    {Inv : State W G π α → Prop}
    (hstep : ∀ s a s', Inv s → C s a → P.step s a = some s' → Inv s')
    {acts : List (Action ι χ ε)} (hi : Inv s) (hc : P.Along C s acts)
    (hr : P.run s acts = some s') : Inv s' := by
  induction acts generalizing s with
  | nil =>
    obtain rfl : s = s' := Option.some.inj hr
    exact hi
  | cons a acts ih =>
    obtain ⟨m, hm, hr⟩ := run_cons hr
    exact ih (hstep s a m hi hc.1 hm) (hc.tail hm) hr

/-- The actions of a run, each with the state it is made in. -/
def trail (P : Program W G π α ι ο χ ε) (s : State W G π α) :
    List (Action ι χ ε) → List (State W G π α × Action ι χ ε)
  | [] => []
  | a :: acts => (s, a) ::
    match P.step s a with
    | some s' => trail P s' acts
    | none => []

theorem trail_snoc {acts : List (Action ι χ ε)} (a : Action ι χ ε)
    (hr : P.run s acts = some s') : P.trail s (acts ++ [a]) = P.trail s acts ++ [(s', a)] := by
  induction acts generalizing s with
  | nil =>
    obtain rfl : s = s' := Option.some.inj hr
    cases h : P.step s a <;> simp [trail, h]
  | cons b acts ih =>
    obtain ⟨m, hm, hr⟩ := run_cons hr
    simp only [List.cons_append, trail, hm, ih hr]

/-- What each step that meets `C` preserves, said of the run so far and of the state it
led to. -/
theorem run_history_along {C : State W G π α → Action ι χ ε → Prop}
    {Inv : List (Action ι χ ε) → State W G π α → Prop} (hi : Inv [] s)
    (hstep : ∀ acts m a m', P.run s acts = some m → C m a → Inv acts m → P.step m a = some m' →
      Inv (acts ++ [a]) m')
    {acts : List (Action ι χ ε)} (hc : P.Along C s acts) (hr : P.run s acts = some s') :
    Inv acts s' := by
  induction acts using List.reverseRecOn generalizing s' with
  | nil =>
    obtain rfl : s = s' := Option.some.inj hr
    exact hi
  | append_singleton acts a ih =>
    rw [run_append] at hr
    obtain ⟨m, hm, hs⟩ := Option.bind_eq_some_iff.mp hr
    obtain ⟨m', hm', he⟩ := run_cons hs
    obtain rfl : m' = s' := Option.some.inj he
    obtain ⟨hbefore, hlast⟩ := hc.last hm
    exact hstep acts m a m' hm hlast (ih hbefore hm) hm'

theorem run_history {Inv : List (Action ι χ ε) → State W G π α → Prop} (hi : Inv [] s)
    (hstep : ∀ acts m a m', P.run s acts = some m → Inv acts m → P.step m a = some m' →
      Inv (acts ++ [a]) m')
    {acts : List (Action ι χ ε)} (hr : P.run s acts = some s') : Inv acts s' :=
  run_history_along (C := fun _ _ => True) hi
    (fun acts m a m' hrun _ hinv hs => hstep acts m a m' hrun hinv hs)
    (Along.of_forall_mem fun _ _ _ => trivial) hr

/-- What an observer has noted of a run, one step after the other, each in the state it is
made in. -/
def noted {H : Type*} (P : Program W G π α ι ο χ ε)
    (note : H → State W G π α → Action ι χ ε → H) (h : H) (s : State W G π α) :
    List (Action ι χ ε) → H
  | [] => h
  | a :: acts =>
    match P.step s a with
    | some s' => noted P note (note h s a) s' acts
    | none => h

/-- Every step of the run meets `C` in the state it is made in, given what was noted before. -/
def Watched {H : Type*} (P : Program W G π α ι ο χ ε)
    (note : H → State W G π α → Action ι χ ε → H)
    (C : H → State W G π α → Action ι χ ε → Prop) (h : H) (s : State W G π α) :
    List (Action ι χ ε) → Prop
  | [] => True
  | a :: acts => C h s a ∧
    match P.step s a with
    | some s' => Watched P note C (note h s a) s' acts
    | none => True

instance decidableWatched {H : Type*} (note : H → State W G π α → Action ι χ ε → H)
    (C : H → State W G π α → Action ι χ ε → Prop) [∀ h s a, Decidable (C h s a)] :
    ∀ h s acts, Decidable (P.Watched note C h s acts)
  | _, _, [] => .isTrue trivial
  | h, s, a :: acts =>
    haveI : Decidable (match P.step s a with
        | some s' => P.Watched note C (note h s a) s' acts
        | none => True) :=
      match P.step s a with
      | some s' => decidableWatched note C (note h s a) s' acts
      | none => .isTrue trivial
    inferInstanceAs (Decidable (_ ∧ _))

section Observer
variable {H : Type*} {note : H → State W G π α → Action ι χ ε → H}
  {C : H → State W G π α → Action ι χ ε → Prop} {h : H}

theorem Watched.tail {a : Action ι χ ε} {acts : List (Action ι χ ε)}
    (hc : P.Watched note C h s (a :: acts)) {m : State W G π α} (hm : P.step s a = some m) :
    P.Watched note C (note h s a) m acts := by
  have hr := hc.2
  rwa [hm] at hr

theorem noted_cons {a : Action ι χ ε} (acts : List (Action ι χ ε)) {m : State W G π α}
    (hm : P.step s a = some m) :
    P.noted note h s (a :: acts) = P.noted note (note h s a) m acts := by
  simp only [noted, hm]

/-- The condition at the last step of a run, with all that was noted before it. -/
theorem Watched.last {a : Action ι χ ε} {acts : List (Action ι χ ε)}
    (hc : P.Watched note C h s (acts ++ [a])) (hr : P.run s acts = some s') :
    P.Watched note C h s acts ∧ C (P.noted note h s acts) s' a := by
  induction acts generalizing s h with
  | nil =>
    obtain rfl : s = s' := Option.some.inj hr
    exact ⟨trivial, hc.1⟩
  | cons b acts ih =>
    obtain ⟨m, hm, hr⟩ := run_cons hr
    obtain ⟨ht, hlast⟩ := ih (hc.tail hm) hr
    rw [noted_cons acts hm]
    refine ⟨⟨hc.1, ?_⟩, hlast⟩
    rw [hm]
    exact ht

/-- What every step that meets `C` preserves, of the state and of what was noted, holds
wherever such a run leads. -/
theorem run_noted {I : H → State W G π α → Prop}
    (hstep : ∀ h s a s', I h s → C h s a → P.step s a = some s' → I (note h s a) s')
    {acts : List (Action ι χ ε)} (hi : I h s) (hc : P.Watched note C h s acts)
    (hr : P.run s acts = some s') : I (P.noted note h s acts) s' := by
  induction acts generalizing s h with
  | nil =>
    obtain rfl : s = s' := Option.some.inj hr
    exact hi
  | cons a acts ih =>
    obtain ⟨m, hm, hr⟩ := run_cons hr
    rw [noted_cons acts hm]
    exact ih (hstep h s a m hi hc.1 hm) (hc.tail hm) hr

end Observer

end Program

theorem at_set (s : State W G π α) (w : W) (g : G) (t j : ℕ)
    (x : Option (Suspended π α)) (ht : (s.at t).isSome) :
    State.at ⟨w, g, s.threads.set t x⟩ j = if t = j then x else s.at j := by
  have hlt : t < s.threads.length := by
    by_contra hge
    simp [State.at, List.getElem?_eq_none (Nat.not_lt.mp hge)] at ht
  simp only [State.at, List.getElem?_set]
  by_cases h : t = j
  · simp [h, h ▸ hlt]
  · simp [h]

theorem at_append (s : State W G π α) (w : W) (g : G) (x : Option (Suspended π α)) (j : ℕ) :
    State.at ⟨w, g, s.threads ++ [x]⟩ j = if s.threads.length = j then x else s.at j := by
  simp only [State.at]
  split_ifs with h
  · simp [← h]
  · rcases Nat.lt_or_gt_of_ne (Ne.symm h) with hj | hj
    · rw [List.getElem?_append_left hj]
    · rw [List.getElem?_eq_none (by simp; omega), List.getElem?_eq_none (by omega)]

theorem suspend_eq_some {pc : Option π} {th : Suspended π α} (h : suspend pc = some th) :
    pc = some th.pc ∧ th.reply = none := by
  obtain ⟨p, rfl, rfl⟩ := Option.map_eq_some_iff.mp h
  exact ⟨rfl, rfl⟩

theorem mem_suspended {s : State W G π α} {th : Suspended π α} :
    th ∈ s.suspended ↔ ∃ t, s.at t = some th := by
  have hm : th ∈ s.suspended ↔ some th ∈ s.threads := by simp [State.suspended]
  rw [hm, List.mem_iff_getElem?]
  simp only [State.at, Option.join_eq_some_iff]

/-- An invariant of the shared state together with an assertion at each await, which
holds of every coroutine suspended there. -/
structure Holds (I : W → G → Prop) (L : W → G → π → Option α → Prop)
    (s : State W G π α) : Prop where
  shared : I s.world s.mem
  each : ∀ t th, s.at t = some th → L s.world s.mem th.pc th.reply

/-- One step leads from one invariant of that form to another: it makes the new shared part
true and the new assertion of the coroutine it moves, and the others' hold with their old ones. -/
theorem Holds.move {P : Program W G π α ι ο χ ε} {I I' : W → G → Prop}
    {L L' : W → G → π → Option α → Prop} {s s' : State W G π α} {a : Action ι χ ε}
    (start : ∀ i r, a = .call i → P.start s.world s.mem i = some r →
      I' s.world r.mem ∧ (∀ pc, r.next = some pc → L' s.world r.mem pc none) ∧
      ∀ t pc a, s.at t = some ⟨pc, a⟩ → L s.world s.mem pc a → L' s.world r.mem pc a)
    (serve : ∀ t c pc w b, a = .serve t c → s.at t = some ⟨pc, none⟩ →
      P.serve s.world pc c = some (w, b) → I' w s.mem ∧ L' w s.mem pc (some b) ∧
      ∀ j pc a, j ≠ t → s.at j = some ⟨pc, a⟩ → L s.world s.mem pc a → L' w s.mem pc a)
    (resume : ∀ t pc b r, a = .resume t → s.at t = some ⟨pc, some b⟩ →
      P.resume s.world s.mem pc b = some r →
      I' s.world r.mem ∧ (∀ pc, r.next = some pc → L' s.world r.mem pc none) ∧
      ∀ j pc a, j ≠ t → s.at j = some ⟨pc, a⟩ → L s.world s.mem pc a → L' s.world r.mem pc a)
    (env : ∀ e w g, a = .env e → P.env s.world s.mem e = some (w, g) →
      I' w g ∧ ∀ t pc a, s.at t = some ⟨pc, a⟩ → L s.world s.mem pc a → L' w g pc a)
    (h : Holds I L s) (hs : P.step s a = some s') : Holds I' L' s' := by
  cases a with
  | call i =>
    obtain ⟨r, hr, rfl⟩ := Program.step_call hs
    obtain ⟨hI, hn, ho⟩ := start i r rfl hr
    refine ⟨hI, fun t th ht => ?_⟩
    rw [at_append] at ht
    split_ifs at ht
    · obtain ⟨hp, hnone⟩ := suspend_eq_some ht
      rw [hnone]
      exact hn _ hp
    · exact ho t th.pc th.reply ht (h.each t th ht)
  | serve t c =>
    obtain ⟨pc, w, a, ht, hv, rfl⟩ := Program.step_serve hs
    obtain ⟨hI, hn, ho⟩ := serve t c pc w a rfl ht hv
    refine ⟨hI, fun j th hj => ?_⟩
    rw [at_set s _ _ t j _ (by simp [ht])] at hj
    split_ifs at hj with htj
    · obtain rfl := Option.some.inj hj
      exact hn
    · exact ho j th.pc th.reply (Ne.symm htj) hj (h.each j th hj)
  | resume t =>
    obtain ⟨pc, a, r, ht, hr, rfl⟩ := Program.step_resume hs
    obtain ⟨hI, hn, ho⟩ := resume t pc a r rfl ht hr
    refine ⟨hI, fun j th hj => ?_⟩
    rw [at_set s _ _ t j _ (by simp [ht])] at hj
    split_ifs at hj with htj
    · obtain ⟨hp, hnone⟩ := suspend_eq_some hj
      rw [hnone]
      exact hn _ hp
    · exact ho j th.pc th.reply (Ne.symm htj) hj (h.each j th hj)
  | env e =>
    obtain ⟨w, g, he, rfl⟩ := Program.step_env hs
    obtain ⟨hI, ho⟩ := env e w g rfl he
    exact ⟨hI, fun t th ht => ho t th.pc th.reply ht (h.each t th ht)⟩

/-- One rule for every invariant of that form: each step keeps the shared part, makes
the assertion of the coroutine it moves true, and leaves those of the others true. -/
theorem Holds.step {P : Program W G π α ι ο χ ε} {C : State W G π α → Action ι χ ε → Prop}
    {I : W → G → Prop} {L : W → G → π → Option α → Prop}
    (start : ∀ s i r, Holds I L s → C s (.call i) → P.start s.world s.mem i = some r →
      I s.world r.mem ∧ (∀ pc, r.next = some pc → L s.world r.mem pc none) ∧
      ∀ t pc a, s.at t = some ⟨pc, a⟩ → L s.world s.mem pc a → L s.world r.mem pc a)
    (serve : ∀ s t c pc w a, Holds I L s → C s (.serve t c) → s.at t = some ⟨pc, none⟩ →
      P.serve s.world pc c = some (w, a) →
      I w s.mem ∧ L w s.mem pc (some a) ∧
      ∀ j pc a, j ≠ t → s.at j = some ⟨pc, a⟩ → L s.world s.mem pc a → L w s.mem pc a)
    (resume : ∀ s t pc a r, Holds I L s → C s (.resume t) → s.at t = some ⟨pc, some a⟩ →
      P.resume s.world s.mem pc a = some r →
      I s.world r.mem ∧ (∀ pc, r.next = some pc → L s.world r.mem pc none) ∧
      ∀ j pc a, j ≠ t → s.at j = some ⟨pc, a⟩ → L s.world s.mem pc a → L s.world r.mem pc a)
    (env : ∀ s e w g, Holds I L s → C s (.env e) → P.env s.world s.mem e = some (w, g) →
      I w g ∧ ∀ t pc a, s.at t = some ⟨pc, a⟩ → L s.world s.mem pc a → L w g pc a)
    (s : State W G π α) (a : Action ι χ ε) (s' : State W G π α)
    (h : Holds I L s) (hc : C s a) (hs : P.step s a = some s') : Holds I L s' := by
  refine Holds.move ?_ ?_ ?_ ?_ h hs
  · rintro i r rfl hr
    exact start s i r h hc hr
  · rintro t c pc w b rfl ht hv
    exact serve s t c pc w b h hc ht hv
  · rintro t pc b r rfl ht hr
    exact resume s t pc b r h hc ht hr
  · rintro e w g rfl he
    exact env s e w g h hc he

/-- What the suspended coroutines weigh together, each by where it is suspended. -/
def State.total (f : π → ℤ) (s : State W G π α) : ℤ :=
  (s.threads.map fun th => th.elim 0 fun x => f x.pc).sum

theorem elim_suspend (f : π → ℤ) (next : Option π) :
    ((suspend next : Option (Suspended π α)).elim 0 fun x => f x.pc) = next.elim 0 f := by
  cases next <;> rfl

theorem total_append (f : π → ℤ) (s : State W G π α) (w : W) (g : G)
    (x : Option (Suspended π α)) :
    State.total f ⟨w, g, s.threads ++ [x]⟩ = s.total f + x.elim 0 fun y => f y.pc := by
  simp [State.total]

theorem total_set (f : π → ℤ) (s : State W G π α) (w : W) (g : G) {t : ℕ}
    {th : Suspended π α} (ht : s.at t = some th) (x : Option (Suspended π α)) :
    State.total f ⟨w, g, s.threads.set t x⟩ =
      s.total f - f th.pc + x.elim 0 fun y => f y.pc := by
  have hget : s.threads[t]? = some (some th) := Option.join_eq_some_iff.mp ht
  have hlt : t < s.threads.length := by
    by_contra hge
    simp [List.getElem?_eq_none (Nat.not_lt.mp hge)] at hget
  have hel : s.threads[t] = some th := by
    rw [List.getElem?_eq_getElem hlt] at hget
    exact Option.some.inj hget
  simp only [State.total, List.map_set, List.sum_set', List.length_map, hlt, dite_true,
    List.getElem_map, hel, Option.elim_some]
  ring

theorem total_nonneg {f : π → ℤ} {s : State W G π α}
    (h : ∀ t th, s.at t = some th → 0 ≤ f th.pc) : 0 ≤ s.total f := by
  apply List.sum_nonneg
  intro x hx
  obtain ⟨th, hth, rfl⟩ := List.mem_map.mp hx
  cases th with
  | none => exact le_refl _
  | some th =>
    obtain ⟨t, ht⟩ := mem_suspended.mp (List.mem_filterMap.mpr ⟨_, hth, rfl⟩ : th ∈ s.suspended)
    exact h t th ht

/-- Weights that are never negative are each at most their sum. -/
theorem le_total {f : π → ℤ} {s : State W G π α}
    (h : ∀ t th, s.at t = some th → 0 ≤ f th.pc) {t : ℕ} {th : Suspended π α}
    (ht : s.at t = some th) : f th.pc ≤ s.total f := by
  have hset := total_set f s s.world s.mem ht none
  have hrest : 0 ≤ State.total f ⟨s.world, s.mem, s.threads.set t none⟩ := by
    apply total_nonneg
    intro j y hj
    rw [at_set s _ _ t j _ (by simp [ht])] at hj
    split_ifs at hj
    exact h j y hj
  simp only [Option.elim_none] at hset
  omega

theorem total_eq_zero {f : π → ℤ} {s : State W G π α}
    (h : ∀ t th, s.at t = some th → f th.pc = 0) : s.total f = 0 := by
  apply List.sum_eq_zero
  intro x hx
  obtain ⟨th, hth, rfl⟩ := List.mem_map.mp hx
  cases th with
  | none => rfl
  | some th =>
    obtain ⟨t, ht⟩ := mem_suspended.mp (List.mem_filterMap.mpr ⟨_, hth, rfl⟩ : th ∈ s.suspended)
    exact h t th ht

theorem total_congr {f g : π → ℤ} {s : State W G π α}
    (h : ∀ t th, s.at t = some th → f th.pc = g th.pc) : s.total f = s.total g := by
  unfold State.total
  congr 1
  apply List.map_congr_left
  intro x hx
  cases x with
  | none => rfl
  | some th =>
    obtain ⟨t, ht⟩ := mem_suspended.mp (List.mem_filterMap.mpr ⟨_, hx, rfl⟩ : th ∈ s.suspended)
    exact h t th ht

/-- The coroutine that an action runs, a call the one it starts. -/
def Action.mover (s : State W G π α) : Action ι χ ε → Option ℕ
  | .call _ => some s.threads.length
  | .resume t => some t
  | _ => none

def Action.resumes (t : ℕ) : Action ι χ ε → Bool
  | .resume j => j = t
  | _ => false

/-- All that one coroutine did in a run. -/
def Program.told (P : Program W G π α ι ο χ ε) (s : State W G π α)
    (acts : List (Action ι χ ε)) (t : ℕ) : List ο :=
  (P.trail s acts).flatMap fun e => if e.2.mover e.1 = some t then P.emits e.1 e.2 else []

theorem told_snoc {P : Program W G π α ι ο χ ε} {s s' : State W G π α}
    {acts : List (Action ι χ ε)} (a : Action ι χ ε) (hr : P.run s acts = some s') (t : ℕ) :
    P.told s (acts ++ [a]) t =
      P.told s acts t ++ if a.mover s' = some t then P.emits s' a else [] := by
  unfold Program.told
  rw [Program.trail_snoc a hr, List.flatMap_append]
  simp

/-- The number of coroutines never falls. -/
theorem length_le_of_step {P : Program W G π α ι ο χ ε} {s s' : State W G π α}
    {a : Action ι χ ε} (h : P.step s a = some s') : s.threads.length ≤ s'.threads.length := by
  cases a with
  | call i =>
    obtain ⟨r, _, rfl⟩ := Program.step_call h
    simp
  | serve t c =>
    obtain ⟨pc, w, a, _, _, rfl⟩ := Program.step_serve h
    simp
  | resume t =>
    obtain ⟨pc, a, r, _, _, rfl⟩ := Program.step_resume h
    simp
  | env e =>
    obtain ⟨w, g, _, rfl⟩ := Program.step_env h
    exact le_refl _

/-- Only resuming a coroutine takes it from where it is suspended. -/
theorem pc_of_step {P : Program W G π α ι ο χ ε} {s s' : State W G π α} {a : Action ι χ ε}
    (h : P.step s a = some s') {t : ℕ} (ht : t < s.threads.length) (ha : a.resumes t = false) :
    (s'.at t).map Suspended.pc = (s.at t).map Suspended.pc := by
  cases a with
  | call i =>
    obtain ⟨r, _, rfl⟩ := Program.step_call h
    rw [at_append, if_neg (by omega)]
  | serve j c =>
    obtain ⟨pc, w, a, hj, _, rfl⟩ := Program.step_serve h
    rw [at_set s _ _ j t _ (by simp [hj])]
    split_ifs with hjt
    · subst hjt
      rw [hj]
      rfl
    · rfl
  | resume j =>
    obtain ⟨pc, a, r, hj, _, rfl⟩ := Program.step_resume h
    have hjt : j ≠ t := by simpa [Action.resumes] using ha
    rw [at_set s _ _ j t _ (by simp [hj]), if_neg hjt]
  | env e =>
    obtain ⟨w, g, _, rfl⟩ := Program.step_env h
    rfl

/-- A coroutine that has ended stays so. -/
theorem at_none_of_run {P : Program W G π α ι ο χ ε} {s s' : State W G π α}
    {acts : List (Action ι χ ε)} (hr : P.run s acts = some s') {t : ℕ}
    (ht : t < s.threads.length) (hn : s.at t = none) : s'.at t = none := by
  induction acts generalizing s with
  | nil =>
    obtain rfl : s = s' := Option.some.inj hr
    exact hn
  | cons a acts ih =>
    obtain ⟨m, hm, hr⟩ := Program.run_cons hr
    have hres : a.resumes t = false := by
      cases a with
      | resume j =>
        obtain ⟨pc, x, r, hj, _, _⟩ := Program.step_resume hm
        have hjt : j ≠ t := by
          rintro rfl
          rw [hn] at hj
          cases hj
        simp [Action.resumes, hjt]
      | _ => rfl
    have hpc := pc_of_step hm ht hres
    rw [hn] at hpc
    exact ih hr (ht.trans_le (length_le_of_step hm)) (by simpa using hpc)

theorem lt_of_at {s : State W G π α} {t : ℕ} {th : Suspended π α} (h : s.at t = some th) :
    t < s.threads.length := by
  by_contra hge
  simp [State.at, List.getElem?_eq_none (Nat.not_lt.mp hge)] at h

/-- A coroutine of which every resumption lowers a rank is resumed at most that often. -/
theorem ends_of_rank {P : Program W G π α ι ο χ ε} {C : State W G π α → Action ι χ ε → Prop}
    {Inv : State W G π α → Prop} {rank : π → ℕ} {t : ℕ}
    (hstep : ∀ s a s', Inv s → C s a → P.step s a = some s' → Inv s')
    (hpos : ∀ pc, 0 < rank pc)
    (hdown : ∀ s s' th th', Inv s → C s (.resume t) → P.step s (.resume t) = some s' →
      s.at t = some th → s'.at t = some th' → rank th'.pc < rank th.pc)
    {s s' : State W G π α} {th : Suspended π α} {acts : List (Action ι χ ε)} (hi : Inv s)
    (hc : P.Along C s acts) (hr : P.run s acts = some s') (ht : s.at t = some th)
    (hlong : rank th.pc ≤ acts.countP (Action.resumes t)) : s'.at t = none := by
  induction acts generalizing s th with
  | nil =>
    have := hpos th.pc
    simp only [List.countP_nil] at hlong
    omega
  | cons a acts ih =>
    obtain ⟨m, hm, hr⟩ := Program.run_cons hr
    have him := hstep s a m hi hc.1 hm
    have hlen := (lt_of_at ht).trans_le (length_le_of_step hm)
    cases hat : m.at t with
    | none => exact at_none_of_run hr hlen hat
    | some th' =>
      refine ih him (hc.tail hm) hr hat ?_
      rw [List.countP_cons] at hlong
      by_cases ha : a.resumes t = true
      · obtain rfl : a = .resume t := by
          cases a with
          | resume j => simpa [Action.resumes] using ha
          | _ => cases ha
        have hlt := hdown s m th th' hi hc.1 hm ht hat
        rw [if_pos ha] at hlong
        omega
      · have hpc := pc_of_step hm (lt_of_at ht) (by simpa using ha)
        rw [hat, ht] at hpc
        have heq : th'.pc = th.pc := Option.some.inj hpc
        rw [if_neg ha] at hlong
        rw [heq]
        exact hlong

/-- What one action of a run counts for a coroutine: only its own resumptions count. -/
def due (f : W → G → π → α → ℕ) (t : ℕ) (e : State W G π α × Action ι χ ε) : ℕ :=
  match e.2, e.1.at t with
  | .resume j, some ⟨pc, some a⟩ => if j = t then f e.1.world e.1.mem pc a else 0
  | _, _ => 0

/-- What a coroutine's resumptions in a run count together. -/
def Program.tally (P : Program W G π α ι ο χ ε) (f : W → G → π → α → ℕ) (s : State W G π α)
    (acts : List (Action ι χ ε)) (t : ℕ) : ℕ := ((P.trail s acts).map (due f t)).sum

section Tally
variable {P : Program W G π α ι ο χ ε} {s s' : State W G π α} {acts : List (Action ι χ ε)}
  {f : W → G → π → α → ℕ} {t : ℕ}

theorem tally_snoc (a : Action ι χ ε) (hr : P.run s acts = some s') :
    P.tally f s (acts ++ [a]) t = P.tally f s acts t + due f t (s', a) := by
  unfold Program.tally
  rw [Program.trail_snoc a hr, List.map_append, List.sum_append]
  simp

theorem tally_mono {h : W → G → π → α → ℕ} (hle : ∀ w g pc a, f w g pc a ≤ h w g pc a) :
    P.tally f s acts t ≤ P.tally h s acts t := by
  apply List.sum_le_sum
  intro e _
  unfold due
  split
  · split_ifs
    · exact hle _ _ _ _
    · exact le_refl _
  · exact le_refl _

theorem due_of_not_resumes {a : Action ι χ ε} (h : a.resumes t = false) :
    due f t (s, a) = 0 := by
  cases a with
  | resume j =>
    have hj : j ≠ t := by simpa [Action.resumes] using h
    unfold due
    split
    · rename_i heq _
      obtain rfl : j = _ := by simpa using heq
      rw [if_neg hj]
    · rfl
  | _ => rfl

theorem due_resume {pc : π} {a : α} (h : s.at t = some ⟨pc, some a⟩) :
    due f t (s, (.resume t : Action ι χ ε)) = f s.world s.mem pc a := by
  simp [due, h]

/-- Every action that starts a coroutine starts another one. -/
theorem called_once (hr : P.run s acts = some s') {e e' : State W G π α × Action ι χ ε}
    (he : e ∈ P.trail s acts) (he' : e' ∈ P.trail s acts) (hc : ∃ i, e.2 = .call i)
    (hc' : ∃ i, e'.2 = .call i) (hlen : e.1.threads.length = e'.1.threads.length) : e = e' := by
  have hboth : (∀ e ∈ P.trail s acts, (∃ i, e.2 = .call i) →
      e.1.threads.length < s'.threads.length) ∧
      ∀ e ∈ P.trail s acts, ∀ e' ∈ P.trail s acts, (∃ i, e.2 = .call i) → (∃ i, e'.2 = .call i) →
        e.1.threads.length = e'.1.threads.length → e = e' := by
    apply Program.run_history (s := s) _ _ hr
    · simp [Program.trail]
    · intro acts m a m' hrun hinv hstep
      obtain ⟨hlt, huniq⟩ := hinv
      rw [Program.trail_snoc a hrun]
      refine ⟨?_, ?_⟩
      · intro e he hc
        rcases List.mem_append.mp he with he | he
        · exact (hlt e he hc).trans_le (length_le_of_step hstep)
        · obtain rfl := List.mem_singleton.mp he
          obtain ⟨i, rfl⟩ := hc
          obtain ⟨r, _, rfl⟩ := Program.step_call hstep
          simp
      · intro e he e' he' hc hc' hlen
        rcases List.mem_append.mp he with he | he
        · rcases List.mem_append.mp he' with he' | he'
          · exact huniq e he e' he' hc hc' hlen
          · obtain rfl := List.mem_singleton.mp he'
            exact absurd hlen (hlt e he hc).ne
        · obtain rfl := List.mem_singleton.mp he
          rcases List.mem_append.mp he' with he' | he'
          · exact absurd hlen.symm (hlt e' he' hc').ne
          · exact (List.mem_singleton.mp he').symm
  exact hboth.2 e he e' he' hc hc' hlen

/-- An assertion about the run so far and where a coroutine is suspended: each step of a run
makes it true of the coroutine it moves and leaves it true of the others. -/
theorem run_each {L : List (Action ι χ ε) → ℕ → W → π → Option α → Prop} (hs : s.threads = [])
    (start : ∀ acts m i r pc, P.run s acts = some m → P.start m.world m.mem i = some r →
      r.next = some pc → L (acts ++ [.call i]) m.threads.length m.world pc none)
    (serve : ∀ acts m t c pc w a, P.run s acts = some m → m.at t = some ⟨pc, none⟩ →
      L acts t m.world pc none → P.serve m.world pc c = some (w, a) →
      L (acts ++ [.serve t c]) t w pc (some a))
    (resume : ∀ acts m t pc a r pc', P.run s acts = some m → m.at t = some ⟨pc, some a⟩ →
      L acts t m.world pc (some a) → P.resume m.world m.mem pc a = some r → r.next = some pc' →
      L (acts ++ [.resume t]) t m.world pc' none)
    (still : ∀ acts m a m' t pc x, P.run s acts = some m → P.step m a = some m' →
      (∀ c, a ≠ .serve t c) → a ≠ .resume t → m.at t = some ⟨pc, x⟩ → L acts t m.world pc x →
      L (acts ++ [a]) t m'.world pc x)
    (hr : P.run s acts = some s') : ∀ t th, s'.at t = some th → L acts t s'.world th.pc th.reply := by
  apply Program.run_history (s := s) _ _ hr
  · intro t th ht
    simp [State.at, hs] at ht
  · intro acts m a m' hrun hinv hstep t th ht
    cases a with
    | call i =>
      obtain ⟨r, hstart, rfl⟩ := Program.step_call hstep
      rw [at_append] at ht
      split_ifs at ht with hlen
      · obtain ⟨hpc, hnone⟩ := suspend_eq_some ht
        rw [hnone, ← hlen]
        exact start acts m i r th.pc hrun hstart hpc
      · exact still acts m _ _ t th.pc th.reply hrun hstep (by simp) (by simp) ht (hinv t th ht)
    | serve j c =>
      obtain ⟨pc, w, a, hj, hv, rfl⟩ := Program.step_serve hstep
      rw [at_set m w m.mem j t _ (by simp [hj])] at ht
      split_ifs at ht with hjt
      · subst hjt
        obtain rfl := Option.some.inj ht
        exact serve acts m j c pc w a hrun hj (hinv j _ hj) hv
      · exact still acts m _ _ t th.pc th.reply hrun hstep (by simp [hjt]) (by simp) ht (hinv t th ht)
    | resume j =>
      obtain ⟨pc, a, r, hj, hre, rfl⟩ := Program.step_resume hstep
      rw [at_set m m.world r.mem j t _ (by simp [hj])] at ht
      split_ifs at ht with hjt
      · subst hjt
        obtain ⟨hpc, hnone⟩ := suspend_eq_some ht
        rw [hnone]
        exact resume acts m j pc a r th.pc hrun hj (hinv j _ hj) hre hpc
      · exact still acts m _ _ t th.pc th.reply hrun hstep (by simp) (by simp [hjt]) ht (hinv t th ht)
    | env e =>
      obtain ⟨w, g, _, rfl⟩ := Program.step_env hstep
      exact still acts m _ _ t th.pc th.reply hrun hstep (by simp) (by simp) ht (hinv t th ht)

/-- Where each resumption is paid for out of a potential that nothing else raises, a coroutine
counts at most the potential it starts with. -/
theorem tally_le {L : List (Action ι χ ε) → ℕ → W → π → Option α → Prop} {Φ : W → π → ℕ} {N : ℕ}
    (hs : s.threads = [])
    (hL : ∀ acts m, P.run s acts = some m → ∀ t th, m.at t = some th →
      L acts t m.world th.pc th.reply)
    (start : ∀ w g i r pc, P.start w g i = some r → r.next = some pc → Φ w pc ≤ N)
    (serve : ∀ w pc c w' a pc', P.serve w pc c = some (w', a) → Φ w' pc' ≤ Φ w pc')
    (env : ∀ w g e w' g' pc, P.env w g e = some (w', g') → Φ w' pc ≤ Φ w pc)
    (resume : ∀ acts t w g pc a r, L acts t w pc (some a) → P.resume w g pc a = some r →
      f w g pc a + r.next.elim 0 (Φ w) ≤ Φ w pc)
    (hr : P.run s acts = some s') (t : ℕ) :
    P.tally f s acts t + (s'.at t).elim 0 (fun th => Φ s'.world th.pc) ≤ N := by
  have hboth : (s'.threads.length ≤ t → P.tally f s acts t = 0) ∧
      P.tally f s acts t + (s'.at t).elim 0 (fun th => Φ s'.world th.pc) ≤ N := by
    apply Program.run_history (s := s) _ _ hr
    · simp [Program.tally, Program.trail, State.at, hs]
    · intro acts m a m' hrun hinv hstep
      obtain ⟨hzero, hle⟩ := hinv
      rw [tally_snoc a hrun]
      by_cases ha : a.resumes t = true
      · obtain rfl : a = .resume t := by
          cases a with
          | resume j => simpa [Action.resumes] using ha
          | _ => cases ha
        obtain ⟨pc, x, r, ht, hre, rfl⟩ := Program.step_resume hstep
        have hlt := lt_of_at ht
        have hpay := resume acts t m.world m.mem pc x r (hL acts m hrun t _ ht) hre
        rw [due_resume ht, at_set m m.world r.mem t t _ (by simp [ht]), if_pos rfl]
        rw [ht] at hle
        have hnext : ((suspend r.next : Option (Suspended π α)).elim 0 fun th => Φ m.world th.pc) =
            r.next.elim 0 (Φ m.world) := by
          cases r.next <;> rfl
        refine ⟨fun hlen => ?_, ?_⟩
        · simp only [List.length_set] at hlen
          omega
        · rw [hnext]
          simp only [Option.elim_some] at hle
          omega
      · have hnot : a.resumes t = false := by simpa using ha
        rw [due_of_not_resumes hnot, Nat.add_zero]
        refine ⟨fun hlen => hzero ((length_le_of_step hstep).trans hlen), ?_⟩
        by_cases hlt : t < m.threads.length
        · have hpc := pc_of_step hstep hlt hnot
          have hworld : ∀ pc, Φ m'.world pc ≤ Φ m.world pc := by
            intro pc
            cases a with
            | call i =>
              obtain ⟨r, _, rfl⟩ := Program.step_call hstep
              exact le_refl _
            | serve j c =>
              obtain ⟨pc', w, x, _, hv, rfl⟩ := Program.step_serve hstep
              exact serve _ _ _ _ _ pc hv
            | resume j =>
              obtain ⟨pc', x, r, _, _, rfl⟩ := Program.step_resume hstep
              exact le_refl _
            | env e =>
              obtain ⟨w, g, he, rfl⟩ := Program.step_env hstep
              exact env _ _ _ _ _ pc he
          cases hat : m.at t with
          | none =>
            rw [hat] at hpc hle
            have hnone : m'.at t = none := by simpa using hpc
            rw [hnone]
            exact hle
          | some th =>
            rw [hat] at hpc hle
            obtain ⟨th', hth', heq⟩ := Option.map_eq_some_iff.mp hpc
            rw [hth']
            simp only [Option.elim_some] at hle ⊢
            rw [heq]
            have := hworld th.pc
            omega
        · rw [hzero (by omega)]
          cases hat : m'.at t with
          | none => simp
          | some th =>
            -- A coroutine that was not there is one that this call started.
            have hlt' := lt_of_at hat
            cases a with
            | call i =>
              obtain ⟨r, hstart, rfl⟩ := Program.step_call hstep
              rw [at_append, if_pos (by simp at hlt'; omega)] at hat
              have hle' := start _ _ _ _ _ hstart (suspend_eq_some hat).1
              simpa using hle'
            | serve j c =>
              obtain ⟨pc', w, x, _, _, rfl⟩ := Program.step_serve hstep
              simp at hlt'
              omega
            | resume j =>
              obtain ⟨pc', x, r, _, _, rfl⟩ := Program.step_resume hstep
              simp at hlt'
              omega
            | env e =>
              obtain ⟨w, g, _, rfl⟩ := Program.step_env hstep
              exact absurd hlt' hlt
  exact hboth.2

end Tally

/-- What a coroutine did, and the world it did it in. -/
structure Note (W ο : Type*) where
  world : W
  thread : ℕ
  event : ο

def Program.notes (P : Program W G π α ι ο χ ε) (s : State W G π α) (a : Action ι χ ε) :
    List (Note W ο) :=
  match a.mover s with
  | some t => (P.emits s a).map fun e => ⟨s.world, t, e⟩
  | none => []

/-- All that was done in a run, in its order. -/
def Program.journal (P : Program W G π α ι ο χ ε) (s : State W G π α)
    (acts : List (Action ι χ ε)) : List (Note W ο) :=
  (P.trail s acts).flatMap fun e => P.notes e.1 e.2

theorem journal_snoc {P : Program W G π α ι ο χ ε} {s s' : State W G π α}
    {acts : List (Action ι χ ε)} (a : Action ι χ ε) (hr : P.run s acts = some s') :
    P.journal s (acts ++ [a]) = P.journal s acts ++ P.notes s' a := by
  unfold Program.journal
  rw [Program.trail_snoc a hr, List.flatMap_append]
  simp

/-- What each step preserves, said of what was done so far and of the state it led to. -/
theorem run_journal {P : Program W G π α ι ο χ ε} {s s' : State W G π α}
    {Inv : List (Note W ο) → State W G π α → Prop} (hi : Inv [] s)
    (hstep : ∀ J m a m', Inv J m → P.step m a = some m' → Inv (J ++ P.notes m a) m')
    {acts : List (Action ι χ ε)} (hr : P.run s acts = some s') : Inv (P.journal s acts) s' := by
  apply Program.run_history (s := s) _ _ hr
  · exact hi
  · intro acts m a m' hrun hinv hs
    rw [journal_snoc a hrun]
    exact hstep _ m a m' hinv hs

/-- What is noted of a step happened in the state it was made in. -/
theorem emits_of_notes {P : Program W G π α ι ο χ ε} {s : State W G π α} {a : Action ι χ ε}
    {n : Note W ο} (h : n ∈ P.notes s a) : n.world = s.world ∧ n.event ∈ P.emits s a := by
  unfold Program.notes at h
  split at h
  · obtain ⟨e, he, rfl⟩ := List.mem_map.mp h
    exact ⟨rfl, he⟩
  · cases h

/-- What an invariant makes true of all that a step does is true of all that was done. -/
theorem run_notes {P : Program W G π α ι ο χ ε} {s s' : State W G π α}
    {I : State W G π α → Prop} {E : W → ο → Prop} (hi : I s)
    (hstep : ∀ m a m', I m → P.step m a = some m' → I m')
    (hemits : ∀ m a e, I m → e ∈ P.emits m a → E m.world e)
    {acts : List (Action ι χ ε)} (hr : P.run s acts = some s') :
    I s' ∧ ∀ n ∈ P.journal s acts, E n.world n.event := by
  apply Program.run_history (s := s) _ _ hr
  · exact ⟨hi, by simp [Program.journal, Program.trail]⟩
  · intro acts m a m' hrun hinv hs
    rw [journal_snoc a hrun]
    refine ⟨hstep m a m' hinv.1 hs, fun n hn => ?_⟩
    rcases List.mem_append.mp hn with hn | hn
    · exact hinv.2 n hn
    · obtain ⟨hworld, he⟩ := emits_of_notes hn
      rw [hworld]
      exact hemits m a n.event hinv.1 he

/-- The coroutines suspended at awaits where they hold a key find its flag set, and no
two hold the same key. -/
structure Exclusive {κ : Type*} (flag : G → κ → Bool) (holds : π → κ → Prop)
    (s : State W G π α) : Prop where
  flagged : ∀ t th k, s.at t = some th → holds th.pc k → flag s.mem k = true
  one : ∀ t t' th th' k, s.at t = some th → s.at t' = some th' → holds th.pc k →
    holds th'.pc k → t = t'

/-- Coroutine `t` ran on to `next`; the others are where they were. -/
theorem Exclusive.moved {κ : Type*} {flag : G → κ → Bool} {holds : π → κ → Prop}
    {s s' : State W G π α} (h : Exclusive flag holds s) {next : Option π} (t : ℕ)
    (hat : ∀ j, s'.at j = if t = j then suspend next else s.at j)
    (hothers : ∀ j th k, j ≠ t → s.at j = some th → holds th.pc k → flag s'.mem k = true)
    (hown : ∀ pc k, next = some pc → holds pc k → flag s'.mem k = true ∧
      ∀ j th, j ≠ t → s.at j = some th → ¬holds th.pc k) :
    Exclusive flag holds s' := by
  constructor
  · intro j th k hj hk
    rw [hat] at hj
    split_ifs at hj with htj
    · exact (hown _ k (suspend_eq_some hj).1 hk).1
    · exact hothers j th k (Ne.symm htj) hj hk
  · intro j j' th th' k hj hj' hk hk'
    rw [hat] at hj hj'
    split_ifs at hj hj' with htj htj' htj'
    · rw [← htj, ← htj']
    · exact absurd hk' ((hown _ k (suspend_eq_some hj).1 hk).2 j' th' (Ne.symm htj') hj')
    · exact absurd hk ((hown _ k (suspend_eq_some hj').1 hk').2 j th (Ne.symm htj) hj)
    · exact h.one j j' th th' k hj hj' hk hk'

/-- A coroutine that held some keys takes another only while its flag is down, raises the
flag when it does, and lowers no flag but those of keys it held and gives up. -/
structure Locks {κ : Type*} (flag : G → κ → Bool) (holds : π → κ → Prop) (g : G)
    (held : κ → Prop) (r : Ran G π ο) : Prop where
  others : ∀ k, ¬held k → flag g k = true → flag r.mem k = true
  taken : ∀ k pc, r.next = some pc → holds pc k → ¬held k → flag g k = false ∧ flag r.mem k = true
  kept : ∀ k pc, r.next = some pc → holds pc k → held k → flag g k = true → flag r.mem k = true

theorem Locks.of_eq {κ : Type*} {flag : G → κ → Bool} {holds : π → κ → Prop} {g : G}
    {held : κ → Prop} {r : Ran G π ο} (hf : flag r.mem = flag g)
    (hn : ∀ k pc, r.next = some pc → holds pc k → held k) : Locks flag holds g held r where
  others k _ h := by rwa [hf]
  taken k pc hp hk hnot := absurd (hn k pc hp hk) hnot
  kept k pc _ _ _ h := by rwa [hf]

theorem Exclusive.step {κ : Type*} {flag : G → κ → Bool} {holds : π → κ → Prop}
    {P : Program W G π α ι ο χ ε}
    (start : ∀ w g i r, P.start w g i = some r → Locks flag holds g (fun _ => False) r)
    (resume : ∀ w g pc a r, P.resume w g pc a = some r → Locks flag holds g (holds pc) r)
    (env : ∀ w g e w' g', P.env w g e = some (w', g') → ∀ k, flag g k = true → flag g' k = true)
    {s s' : State W G π α} {a : Action ι χ ε} (h : Exclusive flag holds s)
    (hs : P.step s a = some s') : Exclusive flag holds s' := by
  cases a with
  | call i =>
    obtain ⟨r, hr, rfl⟩ := Program.step_call hs
    have hst := start _ _ _ _ hr
    refine h.moved s.threads.length (at_append s _ _ _) (fun t th k _ ht hk => ?_) fun pc k hp hk => ?_
    · exact hst.others k not_false (h.flagged t th k ht hk)
    · obtain ⟨hoff, hon⟩ := hst.taken k pc hp hk not_false
      refine ⟨hon, fun t th _ ht hk' => ?_⟩
      simp [h.flagged t th k ht hk'] at hoff
  | serve t c =>
    obtain ⟨pc, w, a, ht, _, rfl⟩ := Program.step_serve hs
    have hpc (j : ℕ) (th : Suspended π α)
        (hj : State.at ⟨w, s.mem, s.threads.set t (some ⟨pc, some a⟩)⟩ j = some th) :
        ∃ th', s.at j = some th' ∧ th'.pc = th.pc := by
      rw [at_set s _ _ t j _ (by simp [ht])] at hj
      split_ifs at hj with htj
      · exact ⟨_, htj ▸ ht, by rw [← Option.some.inj hj]⟩
      · exact ⟨th, hj, rfl⟩
    constructor
    · intro j th k hj hk
      obtain ⟨th', hj', he⟩ := hpc j th hj
      exact h.flagged j th' k hj' (he ▸ hk)
    · intro j j' th th' k hj hj' hk hk'
      obtain ⟨_, hj, he⟩ := hpc j th hj
      obtain ⟨_, hj', he'⟩ := hpc j' th' hj'
      exact h.one j j' _ _ k hj hj' (he ▸ hk) (he' ▸ hk')
  | resume t =>
    obtain ⟨pc, a, r, ht, hr, rfl⟩ := Program.step_resume hs
    have hre := resume _ _ _ _ _ hr
    have hother (j : ℕ) (th : Suspended π α) (k : κ) (hjt : j ≠ t) (hj : s.at j = some th)
        (hk : holds th.pc k) : ¬holds pc k := fun hpc => hjt (h.one j t th _ k hj ht hk hpc)
    refine h.moved t (fun j => at_set s _ _ t j _ (by simp [ht])) (fun j th k hjt hj hk => ?_)
      fun pc' k hp hk => ?_
    · exact hre.others k (hother j th k hjt hj hk) (h.flagged j th k hj hk)
    · by_cases hpc : holds pc k
      · refine ⟨hre.kept k pc' hp hk hpc (h.flagged t _ k ht hpc), fun j th hjt hj hk' => ?_⟩
        exact hother j th k hjt hj hk' hpc
      · obtain ⟨hoff, hon⟩ := hre.taken k pc' hp hk hpc
        refine ⟨hon, fun j th _ hj hk' => ?_⟩
        simp [h.flagged j th k hj hk'] at hoff
  | env e =>
    obtain ⟨w, g, he, rfl⟩ := Program.step_env hs
    exact ⟨fun t th k ht hk => env _ _ _ _ _ he k (h.flagged t th k ht hk), h.one⟩

end PurdueAF.Coroutine
