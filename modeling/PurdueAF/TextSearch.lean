import Mathlib.Data.List.Infix

/-!
# Where one text is in another

The first occurrence of a part in a text of any alphabet. Where the part does not hold some
separator, an occurrence never reaches over one.
-/
namespace PurdueAF.TextSearch

variable {α : Type*} [DecidableEq α]

/-- Where `part` first is in the text. -/
def find (part : List α) : List α → Option ℕ
  | [] => if part = [] then some 0 else none
  | c :: text => if part.isPrefixOf (c :: text) then some 0 else (find part text).map (· + 1)

/-- The same from a place on. -/
def findFrom (part text : List α) (start : ℕ) : Option ℕ :=
  (find part (text.drop start)).map (· + start)

variable {part text a b : List α} {sep : α}

theorem find_eq_none : find part text = none ↔ ¬part <:+: text := by
  induction text with
  | nil => simp [find]
  | cons c text ih =>
    rw [find, List.infix_cons_iff, ← List.isPrefixOf_iff_prefix]
    by_cases hp : part.isPrefixOf (c :: text) = true
    · simp [hp]
    · simp [hp, ih]

theorem find_append_self (hne : part ≠ []) : find part (part ++ b) = some 0 := by
  cases part with
  | nil => exact absurd rfl hne
  | cons c part =>
    rw [List.cons_append, find, if_pos]
    rw [List.isPrefixOf_iff_prefix]
    exact List.prefix_append (c :: part) b

omit [DecidableEq α] in
theorem prefix_sep (hsep : sep ∉ part) (h : part <+: a ++ sep :: b) : part <+: a := by
  obtain ⟨rest, hrest⟩ := h
  rcases List.append_eq_append_iff.mp hrest with ⟨x, hx, -⟩ | ⟨x, hx, hx'⟩
  · exact ⟨x, hx.symm⟩
  · cases x with
    | nil => exact ⟨[], by simpa using hx⟩
    | cons d x =>
      obtain ⟨rfl, -⟩ := List.cons.inj hx'
      exact absurd (by simp [hx]) hsep

omit [DecidableEq α] in
/-- A part that has no separator is on one side of it. -/
theorem infix_sep (hsep : sep ∉ part) (hne : part ≠ []) (h : part <:+: a ++ sep :: b) :
    part <:+: a ∨ part <:+: b := by
  induction a with
  | nil =>
    rcases List.infix_cons_iff.mp h with hp | hb
    · exact absurd (List.prefix_nil.mp (prefix_sep (a := []) hsep hp)) hne
    · exact .inr hb
  | cons c a ih =>
    rcases List.infix_cons_iff.mp h with hp | ha
    · exact .inl (prefix_sep (a := c :: a) hsep hp).isInfix
    · exact (ih ha).imp List.infix_cons id

/-- The first occurrence after a line that has none. -/
theorem find_sep (hsep : sep ∉ part) (hne : part ≠ []) (ha : ¬part <:+: a) :
    find part (a ++ sep :: b) = (find part b).map (· + (a.length + 1)) := by
  induction a with
  | nil =>
    have hp : part.isPrefixOf (sep :: b) = false := by
      cases part with
      | nil => exact absurd rfl hne
      | cons c part =>
        have hc : c ≠ sep := fun heq => hsep (by simp [heq])
        simp [List.isPrefixOf, hc]
    simp [find, hp]
  | cons c a ih =>
    have hp : part.isPrefixOf (c :: a ++ sep :: b) = false := by
      rw [Bool.eq_false_iff, ne_eq, List.isPrefixOf_iff_prefix]
      exact fun hprefix => ha (prefix_sep hsep hprefix).isInfix
    have hrest : ¬part <:+: a := fun h => ha (List.infix_cons h)
    rw [List.cons_append, find, ← List.cons_append, hp, ih hrest]
    cases find part b with
    | none => rfl
    | some i =>
      simp only [Bool.false_eq_true, if_false, Option.map_some, List.length_cons]
      congr 1

/-- Before its first occurrence there is no other, and after it the text goes on. -/
theorem of_find {i : ℕ} (h : find part text = some i) :
    i + part.length ≤ text.length ∧ part <+: text.drop i ∧ (part ≠ [] → ¬part <:+: text.take i) := by
  induction text generalizing i with
  | nil =>
    simp only [find] at h
    split_ifs at h with hpart
    obtain rfl := Option.some.inj h
    simp [hpart]
  | cons c text ih =>
    simp only [find] at h
    split_ifs at h with hp
    · obtain rfl := Option.some.inj h
      rw [List.isPrefixOf_iff_prefix] at hp
      exact ⟨by simpa using hp.length_le, hp, fun hne hin => hne (by simpa using hin)⟩
    · obtain ⟨j, hj, rfl⟩ := Option.map_eq_some_iff.mp h
      obtain ⟨hle, hprefix, hnone⟩ := ih hj
      refine ⟨by simp only [List.length_cons]; omega, by simpa using hprefix, fun hne hin => ?_⟩
      rw [List.take_succ_cons] at hin
      rcases List.infix_cons_iff.mp hin with hfirst | hlater
      · refine hp (List.isPrefixOf_iff_prefix.mpr (hfirst.trans ?_))
        exact ⟨text.drop j, by simp⟩
      · exact hnone hne hlater

/-- A first occurrence stays the first when text is appended. -/
theorem find_append {i : ℕ} (h : find part a = some i) : find part (a ++ b) = some i := by
  induction a generalizing i with
  | nil =>
    simp only [find] at h
    split_ifs at h with hpart
    obtain rfl := Option.some.inj h
    cases b <;> simp [find, hpart]
  | cons c a ih =>
    simp only [find] at h
    split_ifs at h with hp
    · rw [List.isPrefixOf_iff_prefix] at hp
      rw [List.cons_append, find, if_pos]
      · exact h
      · rw [List.isPrefixOf_iff_prefix]
        exact hp.trans (List.prefix_append (c :: a) b)
    · obtain ⟨j, hj, rfl⟩ := Option.map_eq_some_iff.mp h
      have hlen := (of_find hj).1
      rw [List.cons_append, find, if_neg, ih hj]
      · rfl
      · rw [List.isPrefixOf_iff_prefix]
        intro hprefix
        refine hp (List.isPrefixOf_iff_prefix.mpr ?_)
        exact List.prefix_of_prefix_length_le hprefix (List.prefix_append (c :: a) b)
          (by simp only [List.length_cons]; omega)

end PurdueAF.TextSearch
