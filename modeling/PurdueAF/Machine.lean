import Mathlib.Data.List.Basic

/-!
# Machines that take labelled steps

A machine is its step function: in a state, an action leads to at most one next
state. Runs are lists of actions. Conditions on the steps of a run, what is noted
along it, and the two rules by which a fact about one step becomes one about runs.
-/
namespace PurdueAF.Machine

variable {S A ο : Type*}

def run (step : S → A → Option S) (s : S) : List A → Option S
  | [] => some s
  | a :: acts => (step s a).bind fun s' => run step s' acts

/-- Every step of the run meets `C` in the state it is made in. -/
def Along (step : S → A → Option S) (C : S → A → Prop) (s : S) : List A → Prop
  | [] => True
  | a :: acts => C s a ∧
    match step s a with
    | some s' => Along step C s' acts
    | none => True

instance decidableAlong (step : S → A → Option S) (C : S → A → Prop)
    [∀ s a, Decidable (C s a)] : ∀ s acts, Decidable (Along step C s acts)
  | _, [] => .isTrue trivial
  | s, a :: acts =>
    haveI : Decidable (match step s a with
        | some s' => Along step C s' acts
        | none => True) :=
      match step s a with
      | some s' => decidableAlong step C s' acts
      | none => .isTrue trivial
    inferInstanceAs (Decidable (_ ∧ _))

/-- What the steps of a run note, in their order. -/
def journal (step : S → A → Option S) (note : S → A → List ο) (s : S) : List A → List ο
  | [] => []
  | a :: acts => note s a ++
    match step s a with
    | some s' => journal step note s' acts
    | none => []

variable {step : S → A → Option S} {s s' : S} {a : A} {acts : List A}

theorem run_cons (h : run step s (a :: acts) = some s') :
    ∃ m, step s a = some m ∧ run step m acts = some s' := Option.bind_eq_some_iff.mp h

theorem Along.tail {C : S → A → Prop} (h : Along step C s (a :: acts)) {m : S}
    (hm : step s a = some m) : Along step C m acts := by
  have h2 := h.2
  rwa [hm] at h2

theorem Along.and {C D : S → A → Prop} (hC : Along step C s acts) (hD : Along step D s acts) :
    Along step (fun m a => C m a ∧ D m a) s acts := by
  induction acts generalizing s with
  | nil => trivial
  | cons a acts ih =>
    refine ⟨⟨hC.1, hD.1⟩, ?_⟩
    cases hm : step s a with
    | none => trivial
    | some m => exact ih (hC.tail hm) (hD.tail hm)

theorem along_true (step : S → A → Option S) (s : S) (acts : List A) :
    Along step (fun _ _ => True) s acts := by
  induction acts generalizing s with
  | nil => trivial
  | cons a acts ih =>
    refine ⟨trivial, ?_⟩
    cases step s a with
    | none => trivial
    | some m => exact ih m

theorem along_of_forall_mem {C : A → Prop} (h : ∀ a ∈ acts, C a) :
    Along step (fun _ a => C a) s acts := by
  induction acts generalizing s with
  | nil => trivial
  | cons a acts ih =>
    refine ⟨h a (by simp), ?_⟩
    cases step s a with
    | none => trivial
    | some m => exact ih fun b hb => h b (by simp [hb])

theorem journal_cons (note : S → A → List ο) {m : S} (hm : step s a = some m) :
    journal step note s (a :: acts) = note s a ++ journal step note m acts := by
  simp only [journal, hm]

/-- What every step that meets `C` preserves, every run that meets it does. -/
theorem run_invariant {C : S → A → Prop} {Inv : S → Prop} (hi : Inv s)
    (hstep : ∀ m a m', Inv m → C m a → step m a = some m' → Inv m')
    (hc : Along step C s acts) (hr : run step s acts = some s') : Inv s' := by
  induction acts generalizing s with
  | nil =>
    obtain rfl : s = s' := Option.some.inj hr
    exact hi
  | cons a acts ih =>
    obtain ⟨m, hm, hr⟩ := run_cons hr
    exact ih (hstep s a m hi hc.1 hm) (hc.tail hm) hr

/-- The same of a fact about the state and all that was noted before it. -/
theorem run_journal {C : S → A → Prop} {note : S → A → List ο} {Inv : List ο → S → Prop}
    {J : List ο} (hi : Inv J s)
    (hstep : ∀ J m a m', Inv J m → C m a → step m a = some m' → Inv (J ++ note m a) m')
    (hc : Along step C s acts) (hr : run step s acts = some s') :
    Inv (J ++ journal step note s acts) s' := by
  induction acts generalizing s J with
  | nil =>
    obtain rfl : s = s' := Option.some.inj hr
    simpa [journal] using hi
  | cons a acts ih =>
    obtain ⟨m, hm, hr⟩ := run_cons hr
    rw [journal_cons note hm, ← List.append_assoc]
    exact ih (hstep J s a m hi hc.1 hm) (hc.tail hm) hr

section Refines
variable {T B : Type*} {move : T → B → Option T} {view : S → T} {seen : A → Option B}

/-- Each step is a move of the simpler machine, or leaves what is seen of the state as it is. -/
def Refines (step : S → A → Option S) (move : T → B → Option T) (view : S → T)
    (seen : A → Option B) : Prop :=
  ∀ s a s', step s a = some s' →
    match seen a with
    | some b => move (view s) b = some (view s')
    | none => view s' = view s

/-- A run is one of the simpler machine. -/
theorem Refines.run (h : Refines step move view seen) (hr : run step s acts = some s') :
    Machine.run move (view s) (acts.filterMap seen) = some (view s') := by
  induction acts generalizing s with
  | nil =>
    obtain rfl : s = s' := Option.some.inj hr
    rfl
  | cons a acts ih =>
    obtain ⟨m, hm, hr⟩ := run_cons hr
    have hstep := h s a m hm
    cases hseen : seen a with
    | none =>
      simp only [hseen] at hstep
      rw [List.filterMap_cons_none hseen, ← hstep]
      exact ih hr
    | some b =>
      simp only [hseen] at hstep
      rw [List.filterMap_cons_some hseen]
      exact Option.bind_eq_some_iff.mpr ⟨_, hstep, ih hr⟩

/-- A run notes what the simpler machine notes of its moves. -/
theorem Refines.journal {note : T → B → List ο} (h : Refines step move view seen)
    (hr : Machine.run step s acts = some s') :
    Machine.journal step (fun m a => (seen a).elim [] (note (view m))) s acts =
      Machine.journal move note (view s) (acts.filterMap seen) := by
  induction acts generalizing s with
  | nil => rfl
  | cons a acts ih =>
    obtain ⟨m, hm, hr⟩ := run_cons hr
    have hstep := h s a m hm
    rw [journal_cons _ hm, ih hr]
    cases hseen : seen a with
    | none =>
      simp only [hseen] at hstep
      rw [List.filterMap_cons_none hseen, ← hstep]
      rfl
    | some b =>
      simp only [hseen] at hstep
      rw [List.filterMap_cons_some hseen, journal_cons _ hstep]
      rfl

end Refines

/-- A list in two parts around the entry at `i`, which replacing that entry keeps. -/
theorem split_set {α : Type*} {l : List α} {i : ℕ} {x : α} (h : l[i]? = some x) :
    ∃ front back, l = front ++ x :: back ∧ front.length = i ∧
      ∀ y, l.set i y = front ++ y :: back := by
  obtain ⟨hi, hx⟩ := List.getElem?_eq_some_iff.mp h
  refine ⟨l.take i, l.drop (i + 1), ?_, ?_, fun y => ?_⟩
  · rw [← hx, List.getElem_cons_drop, List.take_append_drop]
  · rw [List.length_take, Nat.min_eq_left (Nat.le_of_lt hi)]
  · rw [List.set_eq_take_append_cons_drop, if_pos hi]

/-- Every entry of the list after the move is the one that moved or one that did not. -/
theorem getElem?_set_cases {α : Type*} {l : List α} {i j : ℕ} {x y z : α} (h : l[i]? = some x)
    (hj : (l.set i y)[j]? = some z) : j = i ∧ z = y ∨ j ≠ i ∧ l[j]? = some z := by
  obtain ⟨hi, -⟩ := List.getElem?_eq_some_iff.mp h
  by_cases heq : i = j
  · subst heq
    rw [List.getElem?_set_self hi] at hj
    exact .inl ⟨rfl, (Option.some.inj hj).symm⟩
  · rw [List.getElem?_set_ne heq] at hj
    exact .inr ⟨fun h => heq h.symm, hj⟩

/-- No two processes that are busy have the same key. -/
def Exclusive {α κ : Type*} (busy : α → Bool) (key : α → κ) (l : List α) : Prop :=
  ∀ (i j : ℕ) (x y : α), i ≠ j → l[i]? = some x → l[j]? = some y → busy x = true →
    busy y = true → key x ≠ key y

/-- Besides the process at `i`, none that is busy has the key of `x`. -/
def Alone {α κ : Type*} (busy : α → Bool) (key : α → κ) (l : List α) (i : ℕ) (x : α) : Prop :=
  ∀ (j : ℕ) (y : α), j ≠ i → l[j]? = some y → busy y = true → key y ≠ key x

section Exclusive
variable {α κ : Type*} {busy : α → Bool} {key : α → κ} {l : List α} {i : ℕ} {x y : α}

theorem Exclusive.alone (h : Exclusive busy key l) (hi : l[i]? = some x) (hb : busy x = true) :
    Alone busy key l i x :=
  fun j z hj hz hbz => h j i z x hj hz hi hbz hb

/-- A process that keeps its key may become busy where it is alone. -/
theorem Exclusive.set (h : Exclusive busy key l) (hi : l[i]? = some x) (hkey : key y = key x)
    (halone : busy y = true → Alone busy key l i x) : Exclusive busy key (l.set i y) := by
  intro a b v w hab hv hw hbv hbw
  rcases getElem?_set_cases hi hv with ⟨rfl, rfl⟩ | ⟨ha, hv'⟩ <;>
    rcases getElem?_set_cases hi hw with ⟨rfl, rfl⟩ | ⟨hb, hw'⟩
  · exact absurd rfl hab
  · rw [hkey]
    exact (halone hbv b w hb hw' hbw).symm
  · rw [hkey]
    exact halone hbw a v ha hv' hbv
  · exact h a b v w hab hv' hw' hbv hbw

theorem Exclusive.append_idle (h : Exclusive busy key l) (hy : busy y = false) :
    Exclusive busy key (l ++ [y]) := by
  have hold : ∀ {k : ℕ} {z : α}, (l ++ [y])[k]? = some z → busy z = true → l[k]? = some z := by
    intro k z hz hbz
    rw [List.getElem?_append] at hz
    split_ifs at hz with hk
    · exact hz
    · obtain rfl := List.mem_singleton.mp (List.mem_of_getElem? hz)
      rw [hy] at hbz
      cases hbz
  intro a b v w hab hv hw hbv hbw
  exact h a b v w hab (hold hv hbv) (hold hw hbw) hbv hbw

theorem exclusive_nil (busy : α → Bool) (key : α → κ) : Exclusive busy key [] := by
  intro a b v w _ hv
  simp at hv

end Exclusive

end PurdueAF.Machine
