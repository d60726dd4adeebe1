import Mathlib.Data.List.Basic
import Mathlib.Data.List.Induction
import Mathlib.Tactic.SplitIfs

/-!
# Programs that ask services

A program asks one request at a time and goes on with what it got: the answer, an error that it
may handle, or the news that it is cancelled, which it may not. A service answers from a state
of its own. What a program asks in every run is proved by one rule for each way to build one.
-/
namespace PurdueAF.Asking

inductive Got (β : Type)
  | value (answer : β)
  | error
  | cancelled
  deriving DecidableEq, Repr

/-- What a program gets that handles the error. -/
def Got.ofOption {β : Type} : Option β → Got β
  | some answer => .value answer
  | none => .error

/-- `β r` is what the request `r` is answered with. -/
inductive Dialogue (ρ : Type) (β : ρ → Type) (α : Type)
  | done (value : α)
  | fail
  | ask (request : ρ) (next : Got (β request) → Dialogue ρ β α)

variable {ρ : Type} {β : ρ → Type} {α γ σ : Type}

namespace Dialogue

def bind : Dialogue ρ β α → (α → Dialogue ρ β γ) → Dialogue ρ β γ
  | .done value, f => f value
  | .fail, _ => .fail
  | .ask r next, f => .ask r fun got => (next got).bind f

instance : Monad (Dialogue ρ β) where
  pure := .done
  bind := .bind

/-- The program fails where the request does. -/
def need (r : ρ) : Dialogue ρ β (β r) :=
  .ask r fun
    | .value b => .done b
    | _ => .fail

/-- The program handles the request's error. -/
def attempt (r : ρ) : Dialogue ρ β (Option (β r)) :=
  .ask r fun
    | .value b => .done (some b)
    | .error => .done none
    | .cancelled => .fail

/-- The failures of the program handled from outside, cancellation among them. -/
def guarded : Dialogue ρ β α → Dialogue ρ β (Option α)
  | .done value => .done (some value)
  | .fail => .done none
  | .ask r next => .ask r fun got => (next got).guarded

end Dialogue
open Dialogue

abbrev Service (ρ : Type) (β : ρ → Type) (σ : Type) := σ → (r : ρ) → Got (β r) × σ

/-- A request with what it got. -/
abbrev Exchange (ρ : Type) (β : ρ → Type) := Σ r : ρ, Got (β r)

structure Outcome (ρ : Type) (β : ρ → Type) (σ α : Type) where
  log : List (Exchange ρ β)
  state : σ
  value : Option α

def Outcome.asked (o : Outcome ρ β σ α) : List ρ := o.log.map (·.1)

def run (S : Service ρ β σ) : Dialogue ρ β α → σ → Outcome ρ β σ α
  | .done value, s => ⟨[], s, some value⟩
  | .fail, s => ⟨[], s, none⟩
  | .ask r next, s =>
    let after := run S (next (S s r).1) (S s r).2
    ⟨⟨r, (S s r).1⟩ :: after.log, after.state, after.value⟩

/-- One run and then another, which a failure of the first leaves out. -/
def Outcome.andThen (o : Outcome ρ β σ α) (next : α → σ → Outcome ρ β σ γ) : Outcome ρ β σ γ :=
  match o.value with
  | some a => ⟨o.log ++ (next a o.state).log, (next a o.state).state, (next a o.state).value⟩
  | none => ⟨o.log, o.state, none⟩

theorem run_bind (S : Service ρ β σ) (p : Dialogue ρ β α) (f : α → Dialogue ρ β γ) (s : σ) :
    run S (p >>= f) s = (run S p s).andThen fun a s => run S (f a) s := by
  change run S (p.bind f) s = _
  induction p generalizing s with
  | done value => rfl
  | fail => rfl
  | ask r next ih =>
    simp only [Dialogue.bind, run, ih]
    unfold Outcome.andThen
    dsimp only
    cases (run S (next (S s r).1) (S s r).2).value <;> rfl

theorem run_guarded (S : Service ρ β σ) (p : Dialogue ρ β α) (s : σ) :
    run S p.guarded s = ⟨(run S p s).log, (run S p s).state, some (run S p s).value⟩ := by
  induction p generalizing s with
  | done value => rfl
  | fail => rfl
  | ask r next ih => simp only [Dialogue.guarded, run, ih]

/-- Whatever it gets, the program asks only what `P` allows after what was asked before, and what
it ends with meets `Q`. -/
def Holds (P : List (Exchange ρ β) → ρ → Prop) (Q : List (Exchange ρ β) → α → Prop)
    (h : List (Exchange ρ β)) : Dialogue ρ β α → Prop
  | .done value => Q h value
  | .fail => True
  | .ask r next => P h r ∧ ∀ got, Holds P Q (h ++ [⟨r, got⟩]) (next got)

section Rules
variable {P : List (Exchange ρ β) → ρ → Prop} {Q R : List (Exchange ρ β) → α → Prop}
  {h : List (Exchange ρ β)} {p : Dialogue ρ β α}

theorem Holds.mono {P' : List (Exchange ρ β) → ρ → Prop} (hp : Holds P Q h p)
    (hP : ∀ h' r, P h' r → P' h' r) (hQ : ∀ h' a, Q h' a → R h' a) : Holds P' R h p := by
  induction p generalizing h with
  | done value => exact hQ h value hp
  | fail => trivial
  | ask r next ih => exact ⟨hP h r hp.1, fun got => ih got (hp.2 got)⟩

theorem Holds.bind {f : α → Dialogue ρ β γ} {T : List (Exchange ρ β) → γ → Prop}
    (hp : Holds P Q h p) (hf : ∀ h' a, Q h' a → Holds P T h' (f a)) : Holds P T h (p >>= f) := by
  change Holds P T h (p.bind f)
  induction p generalizing h with
  | done value => exact hf h value hp
  | fail => trivial
  | ask r next ih => exact ⟨hp.1, fun got => ih got (hp.2 got)⟩

theorem Holds.need {r : ρ} {T : List (Exchange ρ β) → β r → Prop} (hr : P h r)
    (hT : ∀ b, T (h ++ [⟨r, .value b⟩]) b) : Holds P T h (Dialogue.need r) := by
  refine ⟨hr, fun got => ?_⟩
  cases got with
  | value b => exact hT b
  | error => trivial
  | cancelled => trivial

theorem Holds.attempt {r : ρ} {T : List (Exchange ρ β) → Option (β r) → Prop} (hr : P h r)
    (hT : ∀ b, T (h ++ [⟨r, .value b⟩]) (some b)) (hnone : T (h ++ [⟨r, .error⟩]) none) :
    Holds P T h (Dialogue.attempt r) := by
  refine ⟨hr, fun got => ?_⟩
  cases got with
  | value b => exact hT b
  | error => exact hnone
  | cancelled => trivial

/-- A program whose failure is handled may have failed anywhere. -/
theorem Holds.guarded {I : List (Exchange ρ β) → Prop} (hp : Holds P Q h p)
    (hI : ∀ h' r got, I h' → P h' r → I (h' ++ [⟨r, got⟩])) (h0 : I h) :
    Holds P (fun h' value => I h' ∧ ∀ a, value = some a → Q h' a) h p.guarded := by
  induction p generalizing h with
  | done value => exact ⟨h0, fun a ha => Option.some.inj ha ▸ hp⟩
  | fail => exact ⟨h0, fun a ha => by cases ha⟩
  | ask r next ih => exact ⟨hp.1, fun got => ih got (hp.2 got) (hI h r got h0 hp.1)⟩

/-- What is so of every run of the program is so of the run with a service. -/
theorem Holds.run (S : Service ρ β σ) (hp : Holds P Q h p) (s : σ) :
    (∀ before r got after, (run S p s).log = before ++ ⟨r, got⟩ :: after → P (h ++ before) r) ∧
      ∀ a, (Asking.run S p s).value = some a → Q (h ++ (Asking.run S p s).log) a := by
  induction p generalizing h s with
  | done value =>
    refine ⟨fun before r got after hlog => ?_, fun a ha => ?_⟩
    · simp [Asking.run] at hlog
    · obtain rfl : value = a := Option.some.inj ha
      simpa [Asking.run, Holds] using hp
  | fail =>
    refine ⟨fun before r got after hlog => ?_, fun a ha => by cases ha⟩
    simp [Asking.run] at hlog
  | ask r next ih =>
    obtain ⟨hasked, hvalue⟩ := ih (S s r).1 (hp.2 (S s r).1) (S s r).2
    refine ⟨fun before r' got after hlog => ?_, fun a ha => ?_⟩
    · cases before with
      | nil =>
        obtain ⟨heq, -⟩ := List.cons.inj hlog
        obtain rfl : r = r' := congrArg Sigma.fst heq
        simpa using hp.1
      | cons e before =>
        obtain ⟨rfl, hrest⟩ := List.cons.inj hlog
        simpa using hasked before r' got after hrest
    · simpa [Asking.run] using hvalue a ha

/-- Two services that answer alike all that a program may ask give it the same run. -/
theorem Holds.run_eq {S T : Service ρ β σ} (hp : Holds (fun _ r => ∀ s, S s r = T s r) Q h p)
    (s : σ) : Asking.run S p s = Asking.run T p s := by
  induction p generalizing h s with
  | done value => rfl
  | fail => rfl
  | ask r next ih =>
    simp only [Asking.run, ← hp.1 s]
    rw [ih (S s r).1 (hp.2 (S s r).1)]

end Rules

/-- What holds before each entry that is counted bounds how many there are. -/
theorem countP_le_of_forall {p : α → Bool} {n : ℕ} {l : List α}
    (h : ∀ before e after, l = before ++ e :: after → p e = true → before.countP p ≤ n) :
    l.countP p ≤ n + 1 := by
  induction l using List.reverseRecOn with
  | nil => simp
  | append_singleton l e ih =>
    rw [List.countP_append, List.countP_singleton]
    split_ifs with he
    · exact Nat.succ_le_succ (h l e [] rfl he)
    · exact ih fun before e' after hl he' => h before e' (after ++ [e]) (by simp [hl]) he'

-- Two runs that differ in what must not matter: `acts` are the requests that do.
section TwoRuns
variable {acts : ρ → Bool} {a b : Outcome ρ β σ α} {n m : α → σ → Outcome ρ β σ γ}

/-- The same requests, the same effects and the same end. -/
structure SameWork (a b : Outcome ρ β σ α) : Prop where
  asked : a.asked = b.asked
  state : a.state = b.state
  value : a.value = b.value

def Idle (acts : ρ → Bool) (a : Outcome ρ β σ α) : Prop := ∀ r ∈ a.asked, acts r = false

/-- The difference changed nothing at all, or else nothing was done that matters. -/
def Unsteered (acts : ρ → Bool) (a b : Outcome ρ β σ α) : Prop :=
  SameWork a b ∨ Idle acts a ∧ Idle acts b

theorem SameWork.of_eq (h : a = b) : SameWork a b := h ▸ ⟨rfl, rfl, rfl⟩

theorem asked_andThen :
    (a.andThen n).asked = a.asked ++ a.value.elim [] fun x => (n x a.state).asked := by
  unfold Outcome.andThen Outcome.asked
  cases a.value <;> simp

theorem SameWork.andThen (h : SameWork a b) (hn : ∀ x s, SameWork (n x s) (m x s)) :
    SameWork (a.andThen n) (b.andThen m) := by
  obtain ⟨log, state, value⟩ := a
  obtain ⟨log', state', value'⟩ := b
  obtain ⟨hasked, hstate, hvalue⟩ := h
  dsimp only at hstate hvalue
  subst hstate hvalue
  refine ⟨?_, ?_, ?_⟩
  · rw [asked_andThen, asked_andThen, hasked]
    cases value with
    | none => rfl
    | some x => simp [(hn x state).asked]
  · cases value with
    | none => rfl
    | some x => exact (hn x state).state
  · cases value with
    | none => rfl
    | some x => exact (hn x state).value

theorem Idle.andThen (h : Idle acts a) (hn : ∀ x s, Idle acts (n x s)) :
    Idle acts (a.andThen n) := by
  intro r hr
  rw [asked_andThen, List.mem_append] at hr
  rcases hr with hr | hr
  · exact h r hr
  · cases hv : a.value with
    | none => simp [hv] at hr
    | some x => exact hn x _ r (by simpa [hv] using hr)

/-- A first part that is the same and does nothing that matters. -/
theorem Unsteered.after (h : SameWork a b) (hidle : Idle acts a)
    (hn : ∀ x, a.value = some x → Unsteered acts (n x a.state) (m x a.state)) :
    Unsteered acts (a.andThen n) (b.andThen m) := by
  have hother : Idle acts b := fun r hr => hidle r (h.asked ▸ hr)
  obtain ⟨log, state, value⟩ := a
  obtain ⟨log', state', value'⟩ := b
  obtain ⟨hasked, hstate, hvalue⟩ := h
  dsimp only at hstate hvalue
  subst hstate hvalue
  cases value with
  | none => exact .inl ⟨hasked, rfl, rfl⟩
  | some x =>
    rcases hn x rfl with hsame | ⟨hleft, hright⟩
    · refine .inl ⟨?_, hsame.state, hsame.value⟩
      rw [asked_andThen, asked_andThen, hasked]
      simp [hsame.asked]
    · refine .inr ⟨fun r hr => ?_, fun r hr => ?_⟩
      · rw [asked_andThen, List.mem_append] at hr
        exact hr.elim (hidle r) (hleft r)
      · rw [asked_andThen, List.mem_append] at hr
        exact hr.elim (hother r) (hright r)

/-- A last part that is the same from the same start, and does nothing that matters. -/
theorem Unsteered.andThen (h : Unsteered acts a b) (hn : ∀ x s, SameWork (n x s) (m x s))
    (hidle : ∀ x s, Idle acts (n x s)) : Unsteered acts (a.andThen n) (b.andThen m) := by
  rcases h with hsame | ⟨hleft, hright⟩
  · exact .inl (hsame.andThen hn)
  · exact .inr ⟨hleft.andThen hidle, hright.andThen fun x s r hr =>
      hidle x s r ((hn x s).asked ▸ hr)⟩

section Services
variable {S T : Service ρ β σ} {s : σ} {r : ρ} {f f' : β r → Dialogue ρ β γ} {p p' : Dialogue ρ β α}

theorem asked_need : (run S (Dialogue.need r) s).asked = [r] := by
  unfold Dialogue.need run Outcome.asked
  cases (S s r).1 <;> rfl

theorem idle_need (hr : acts r = false) : Idle acts (run S (Dialogue.need r) s) := by
  intro r' hr'
  rw [asked_need, List.mem_singleton] at hr'
  rw [hr', hr]

/-- A request that does not matter, after which what it got may make a difference. -/
theorem Unsteered.need (hr : acts r = false) (hstate : (S s r).2 = (T s r).2)
    (hgot : (∃ b b', (S s r).1 = .value b ∧ (T s r).1 = .value b' ∧
        Unsteered acts (run S (f b) (S s r).2) (run T (f' b') (S s r).2)) ∨
      (S s r).1 = (T s r).1 ∧
        ∀ b, Unsteered acts (run S (f b) (S s r).2) (run T (f' b) (S s r).2)) :
    Unsteered acts (run S (Dialogue.need r >>= f) s) (run T (Dialogue.need r >>= f') s) := by
  have hafter {o o' : Outcome ρ β σ γ} (x y : Got (β r)) (h : Unsteered acts o o') :
      Unsteered acts ⟨⟨r, x⟩ :: o.log, o.state, o.value⟩ ⟨⟨r, y⟩ :: o'.log, o'.state, o'.value⟩ := by
    rcases h with hsame | ⟨hleft, hright⟩
    · exact .inl ⟨congrArg (r :: ·) hsame.asked, hsame.state, hsame.value⟩
    · refine .inr ⟨fun r' hr' => ?_, fun r' hr' => ?_⟩
      · rcases List.mem_cons.mp hr' with rfl | hr'
        · exact hr
        · exact hleft r' hr'
      · rcases List.mem_cons.mp hr' with rfl | hr'
        · exact hr
        · exact hright r' hr'
  change Unsteered acts (run S ((Dialogue.need r).bind f) s) (run T ((Dialogue.need r).bind f') s)
  simp only [Dialogue.need, Dialogue.bind, run, ← hstate]
  rcases hgot with ⟨b, b', hb, hb', h⟩ | ⟨hsame, h⟩
  · rw [hb, hb']
    exact hafter _ _ h
  · rw [← hsame]
    cases (S s r).1 with
    | value b => exact hafter _ _ (h b)
    | error => exact .inl (.of_eq rfl)
    | cancelled => exact .inl (.of_eq rfl)

theorem Unsteered.guarded (h : Unsteered acts (run S p s) (run T p' s)) :
    Unsteered acts (run S p.guarded s) (run T p'.guarded s) := by
  rw [run_guarded, run_guarded]
  rcases h with hsame | hidle
  · exact .inl ⟨hsame.asked, hsame.state, congrArg some hsame.value⟩
  · exact .inr hidle

end Services

end TwoRuns

end PurdueAF.Asking
