import PurdueAF.Asking
import Mathlib.Algebra.Order.Ring.Rat
import Mathlib.Tactic.Linarith

/-!
# Programs that raise, and that wait

A program may raise what its caller handles. A wait looks until it has seen enough or its
deadline has passed, and sleeps between two looks. By a clock that keeps going a number of looks
known beforehand is enough, and then more make no difference.
-/
namespace PurdueAF.Asking
open Dialogue

variable {ρ : Type} {β : ρ → Type} {α γ σ ε τ : Type}

abbrev Raising (ρ : Type) (β : ρ → Type) (ε : Type) := ExceptT ε (Dialogue ρ β)

/-- The program goes on only with an answer. -/
def ask (r : ρ) : Raising ρ β ε (β r) := ExceptT.lift (need r)

def Ends (E : ε → Prop) (Q : α → Prop) : Except ε α → Prop
  | .ok a => Q a
  | .error e => E e

/-- As `Holds`, of a program that meets `E` with what it raises. -/
def Meets (P : List (Exchange ρ β) → ρ → Prop) (E : List (Exchange ρ β) → ε → Prop)
    (Q : List (Exchange ρ β) → α → Prop) (h : List (Exchange ρ β)) (p : Raising ρ β ε α) : Prop :=
  Holds P (fun h' r => Ends (E h') (Q h') r) h p.run

section Rules
variable {P : List (Exchange ρ β) → ρ → Prop} {E D : List (Exchange ρ β) → ε → Prop}
  {Q R : List (Exchange ρ β) → α → Prop} {T : List (Exchange ρ β) → γ → Prop}
  {h : List (Exchange ρ β)} {p : Raising ρ β ε α}

theorem Meets.pure {a : α} (ha : Q h a) : Meets P E Q h (pure a : Raising ρ β ε α) := ha

theorem Meets.throw {e : ε} (he : E h e) : Meets P E Q h (throw e : Raising ρ β ε α) := he

theorem Meets.mono (hp : Meets P D Q h p) (hE : ∀ h' e, D h' e → E h' e)
    (hQ : ∀ h' a, Q h' a → R h' a) : Meets P E R h p := by
  refine Holds.mono hp (fun _ _ hr => hr) fun h' r hr => ?_
  cases r with
  | ok a => exact hQ h' a hr
  | error e => exact hE h' e hr

theorem Meets.bind {f : α → Raising ρ β ε γ} (hp : Meets P E Q h p)
    (hf : ∀ h' a, Q h' a → Meets P E T h' (f a)) : Meets P E T h (p >>= f) := by
  refine Holds.bind hp fun h' r hr => ?_
  cases r with
  | ok a => exact hf h' a hr
  | error e => exact hr

theorem Meets.tryCatch {f : ε → Raising ρ β ε α} (hp : Meets P D Q h p)
    (hf : ∀ h' e, D h' e → Meets P E Q h' (f e)) : Meets P E Q h (tryCatch p f) := by
  refine Holds.bind hp fun h' r hr => ?_
  cases r with
  | ok a => exact hr
  | error e => exact hf h' e hr

theorem Meets.lift {q : Dialogue ρ β α} (hq : Holds P Q h q) :
    Meets P E Q h (ExceptT.lift q : Raising ρ β ε α) :=
  Holds.bind hq fun _ _ ha => ha

theorem Meets.ask {r : ρ} {T : List (Exchange ρ β) → β r → Prop} (hr : P h r)
    (hT : ∀ b, T (h ++ [⟨r, .value b⟩]) b) : Meets P E T h (Asking.ask r : Raising ρ β ε (β r)) :=
  Meets.lift (Holds.need hr hT)

/-- What is so of every run of the program is so of the run with a service. -/
theorem Meets.of_run (S : Service ρ β σ) (hp : Meets P E Q [] p) (s : σ) :
    (∀ before r got after, (run S p.run s).log = before ++ ⟨r, got⟩ :: after → P before r) ∧
      (∀ a, (run S p.run s).value = some (.ok a) → Q (run S p.run s).log a) ∧
      ∀ e, (run S p.run s).value = some (.error e) → E (run S p.run s).log e := by
  obtain ⟨hasked, hvalue⟩ := Holds.run S hp s
  exact ⟨hasked, fun a ha => hvalue _ ha, fun e he => hvalue _ he⟩

end Rules

-- Only the rules look into it, so that no program is evaluated where one is applied.
attribute [irreducible] Meets

theorem run_raising_bind (S : Service ρ β σ) (p : Raising ρ β ε α) (f : α → Raising ρ β ε γ)
    (s : σ) : run S (p >>= f).run s = (run S p.run s).andThen fun r s =>
      match r with
      | .ok a => run S (f a).run s
      | .error e => ⟨[], s, some (.error e)⟩ := by
  change run S (p.run >>= ExceptT.bindCont f) s = _
  rw [run_bind]
  congr 1
  funext r s
  cases r <;> rfl

theorem run_ask_bind (S : Service ρ β σ) (r : ρ) (f : β r → Raising ρ β ε γ) (s : σ) :
    run S (ask r >>= f).run s =
      match (S s r).1 with
      | .value b =>
        let after := run S (f b).run (S s r).2
        ⟨⟨r, .value b⟩ :: after.log, after.state, after.value⟩
      | got => ⟨[⟨r, got⟩], (S s r).2, none⟩ := by
  have hrun : run S (ask r >>= f).run s =
      let after := run S ((match (S s r).1 with
        | .value b => (f b).run
        | _ => .fail) : Dialogue ρ β (Except ε γ)) (S s r).2
      ⟨⟨r, (S s r).1⟩ :: after.log, after.state, after.value⟩ := by
    change run S (((need r).bind fun b => .done (.ok b)).bind (ExceptT.bindCont f)) s = _
    simp only [need, Dialogue.bind, run]
    cases (S s r).1 <;> rfl
  rw [hrun]
  cases (S s r).1 <;> rfl

/-- The clock and the sleep among the requests. -/
structure Clock (ρ : Type) (β : ρ → Type) where
  now : ρ
  time : β now → ℚ
  sleep : ℚ → ρ

/-- What ended a wait: a look; the deadline, with what the looks had made of `t`; or nothing, after
all the looks it was given. -/
inductive Waited (τ α : Type)
  | seen (found : α)
  | expired (t : τ)
  | unfinished

section Wait
variable (clock : Clock ρ β) (interval deadline : ℚ) (look : τ → Raising ρ β ε (τ ⊕ α))

/-- What follows a look that did not end the wait. -/
def rest (next : τ → Raising ρ β ε (Waited τ α)) (t : τ) : Raising ρ β ε (Waited τ α) := do
  let now ← ask clock.now
  let remaining := deadline - clock.time now
  if remaining ≤ 0 then return .expired t
  else
    let _ ← ask (clock.sleep (min interval remaining))
    next t

def wait : ℕ → τ → Raising ρ β ε (Waited τ α)
  | 0, _ => return .unfinished
  | looks + 1, t => do
    match ← look t with
    | .inr found => return .seen found
    | .inl t => rest clock interval deadline (wait looks) t

end Wait

section Rule
variable {clock : Clock ρ β} {interval deadline : ℚ} {look : τ → Raising ρ β ε (τ ⊕ α)}
  {P : List (Exchange ρ β) → ρ → Prop} {E : List (Exchange ρ β) → ε → Prop}
  {I : List (Exchange ρ β) → τ → Prop} {Q : List (Exchange ρ β) → α → Prop}

/-- `I` is what the looks keep, and the clock leaves alone. -/
theorem Meets.wait
    (hlook : ∀ h t, I h t → Meets P E (fun h' r => Sum.elim (I h') (Q h') r) h (look t))
    (hnow : ∀ h t, I h t → P h clock.now ∧ ∀ b, I (h ++ [⟨clock.now, .value b⟩]) t)
    (hsleep : ∀ h t d, I h t → P h (clock.sleep d) ∧ ∀ b, I (h ++ [⟨clock.sleep d, .value b⟩]) t)
    (looks : ℕ) {h : List (Exchange ρ β)} {t : τ} (hi : I h t) :
    Meets P E (fun h' r => match r with
      | .seen found => Q h' found
      | .expired t => I h' t
      | .unfinished => True) h (wait clock interval deadline look looks t) := by
  induction looks generalizing h t with
  | zero => exact Meets.pure trivial
  | succ looks ih =>
    refine Meets.bind (hlook h t hi) fun h₁ r hr => ?_
    cases r with
    | inr found => exact Meets.pure hr
    | inl t =>
      unfold rest
      refine Meets.bind (Meets.ask (hnow h₁ t hr).1 (T := fun h' _ => I h' t) (hnow h₁ t hr).2)
        fun h₂ now h₂i => ?_
      dsimp only
      split_ifs with hlate
      · exact Meets.pure h₂i
      · refine Meets.bind (Meets.ask (hsleep h₂ t _ h₂i).1 (T := fun h' _ => I h' t)
          (hsleep h₂ t _ h₂i).2) fun h₃ _ h₃i => ?_
        exact ih h₃i

end Rule

/-- The time of a service that shows it, and lets it pass while a program sleeps. -/
structure Timed (clock : Clock ρ β) (S : Service ρ β σ) (time : σ → ℚ) : Prop where
  onward : ∀ s r, time s ≤ time (S s r).2
  shown : ∀ s b, (S s clock.now).1 = .value b →
    time s ≤ clock.time b ∧ clock.time b ≤ time (S s clock.now).2
  slept : ∀ s d b, (S s (clock.sleep d)).1 = .value b → time s + d ≤ time (S s (clock.sleep d)).2

section Runs
variable {clock : Clock ρ β} {interval deadline : ℚ} {look : τ → Raising ρ β ε (τ ⊕ α)}
  {S : Service ρ β σ} {time : σ → ℚ} {s : σ} {t : τ}

theorem run_wait (looks : ℕ) :
    run S (wait clock interval deadline look (looks + 1) t).run s =
      (run S (look t).run s).andThen fun r s =>
        match r with
        | .ok (.inr found) => ⟨[], s, some (.ok (.seen found))⟩
        | .ok (.inl t) =>
          run S (rest clock interval deadline (wait clock interval deadline look looks) t).run s
        | .error e => ⟨[], s, some (.error e)⟩ := by
  unfold wait
  rw [run_raising_bind]
  congr 1
  funext r s
  cases r with
  | error e => rfl
  | ok r => cases r <;> rfl

theorem run_onward (hT : Timed clock S time) (p : Dialogue ρ β α) (s : σ) :
    time s ≤ time (run S p s).state := by
  induction p generalizing s with
  | done value => exact le_refl _
  | fail => exact le_refl _
  | ask r next ih => exact (hT.onward s r).trans (ih _ _)

variable (α ε interval deadline) in
/-- Between two looks the clock and the sleep may go unanswered, or the deadline has passed, or else
time has, by the interval or up to the deadline. -/
theorem run_rest (hT : Timed clock S time) (s : σ) (t : τ) :
    ∃ log s', ((∀ next : τ → Raising ρ β ε (Waited τ α),
          run S (rest clock interval deadline next t).run s = ⟨log, s', none⟩) ∨
        (deadline ≤ time s' ∧ ∀ next : τ → Raising ρ β ε (Waited τ α),
          run S (rest clock interval deadline next t).run s =
            ⟨log, s', some (.ok (.expired t))⟩) ∨
        (time s < deadline ∧ (time s + interval ≤ time s' ∨ deadline ≤ time s') ∧
          ∀ next : τ → Raising ρ β ε (Waited τ α),
            run S (rest clock interval deadline next t).run s =
              ⟨log ++ (run S (next t).run s').log, (run S (next t).run s').state,
                (run S (next t).run s').value⟩)) := by
  cases hnow : (S s clock.now).1 with
  | error =>
    refine ⟨[⟨clock.now, .error⟩], (S s clock.now).2, .inl fun next => ?_⟩
    simp only [rest, run_ask_bind, hnow]
  | cancelled =>
    refine ⟨[⟨clock.now, .cancelled⟩], (S s clock.now).2, .inl fun next => ?_⟩
    simp only [rest, run_ask_bind, hnow]
  | value b =>
    obtain ⟨hbefore, hafter⟩ := hT.shown s b hnow
    by_cases hlate : deadline - clock.time b ≤ 0
    · refine ⟨[⟨clock.now, .value b⟩], (S s clock.now).2,
        .inr (.inl ⟨by linarith, fun next => ?_⟩)⟩
      simp only [rest, run_ask_bind, hnow, if_pos hlate]
      rfl
    · have hopen : clock.time b < deadline := by linarith [not_le.mp hlate]
      let d := min interval (deadline - clock.time b)
      cases hsleep : (S (S s clock.now).2 (clock.sleep d)).1 with
      | error =>
        refine ⟨[⟨clock.now, .value b⟩, ⟨clock.sleep d, .error⟩],
          (S (S s clock.now).2 (clock.sleep d)).2, .inl fun next => ?_⟩
        simp only [rest, run_ask_bind, hnow, if_neg hlate, d, hsleep]
      | cancelled =>
        refine ⟨[⟨clock.now, .value b⟩, ⟨clock.sleep d, .cancelled⟩],
          (S (S s clock.now).2 (clock.sleep d)).2, .inl fun next => ?_⟩
        simp only [rest, run_ask_bind, hnow, if_neg hlate, d, hsleep]
      | value u =>
        have hslept := hT.slept _ d u hsleep
        refine ⟨[⟨clock.now, .value b⟩, ⟨clock.sleep d, .value u⟩],
          (S (S s clock.now).2 (clock.sleep d)).2,
          .inr (.inr ⟨by linarith, ?_, fun next => ?_⟩)⟩
        · generalize time (S (S s clock.now).2 (clock.sleep d)).2 = later at hslept ⊢
          have hd : d = interval ∨ d = deadline - clock.time b := min_choice _ _
          rcases hd with hd | hd
          · exact .inl (by linarith)
          · exact .inr (by linarith)
        · simp only [rest, run_ask_bind, hnow, if_neg hlate, d, hsleep, List.cons_append,
            List.nil_append]

/-- Two numbers of looks that make no difference later make none now. -/
theorem wait_succ (hT : Timed clock S time) {n m : ℕ} (hnext : ∀ s' t, time s < deadline →
      time s + interval ≤ time s' ∨ deadline ≤ time s' →
      run S (wait clock interval deadline look n t).run s' =
        run S (wait clock interval deadline look m t).run s' ∧
      (run S (wait clock interval deadline look m t).run s').value ≠ some (.ok .unfinished)) :
    run S (wait clock interval deadline look (n + 1) t).run s =
        run S (wait clock interval deadline look (m + 1) t).run s ∧
      (run S (wait clock interval deadline look (m + 1) t).run s).value ≠
        some (.ok .unfinished) := by
  rw [run_wait, run_wait]
  have hlook := run_onward hT (look t).run s
  generalize run S (look t).run s = o at hlook
  obtain ⟨log, s₁, value⟩ := o
  cases value with
  | none => exact ⟨rfl, nofun⟩
  | some r =>
    cases r with
    | error e => exact ⟨rfl, nofun⟩
    | ok r =>
      cases r with
      | inr found => exact ⟨rfl, nofun⟩
      | inl t =>
        obtain ⟨log', s₂, hgone | ⟨-, hlate⟩ | ⟨hopen, hpassed, hrun⟩⟩ :=
          run_rest α ε interval deadline hT s₁ t
        · simp [Outcome.andThen, hgone]
        · simp [Outcome.andThen, hlate]
        · dsimp only at hlook
          have hmore := hnext s₂ t (by linarith) (hpassed.imp (fun h => by linarith) id)
          simp only [Outcome.andThen, hrun, hmore.1]
          exact ⟨trivial, hmore.2⟩

variable (look) in
/-- Once the looks are enough the wait ends, and more would change nothing. -/
theorem wait_enough (hT : Timed clock S time) (hinterval : 0 ≤ interval) {n : ℕ}
    (h : deadline ≤ time s + n * interval) (k : ℕ) (t : τ) :
    run S (wait clock interval deadline look (n + 1 + k) t).run s =
        run S (wait clock interval deadline look (n + 1) t).run s ∧
      (run S (wait clock interval deadline look (n + 1) t).run s).value ≠
        some (.ok .unfinished) := by
  induction n generalizing s t with
  | zero =>
    rw [show 0 + 1 + k = k + 1 by omega]
    refine wait_succ hT fun s' t hopen _ => ?_
    rw [Nat.cast_zero, zero_mul, add_zero] at h
    exact absurd hopen (not_lt.mpr h)
  | succ n ih =>
    rw [show n + 1 + 1 + k = n + 1 + k + 1 by omega]
    refine wait_succ hT fun s' t _ hpassed => ih ?_ t
    rw [Nat.cast_succ, add_mul, one_mul] at h
    have hsum : 0 ≤ (n : ℚ) * interval := mul_nonneg (Nat.cast_nonneg n) hinterval
    rcases hpassed with hpassed | hpassed <;> linarith

end Runs

end PurdueAF.Asking
