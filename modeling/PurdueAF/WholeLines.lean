import Mathlib.Data.List.Basic

/-!
# Whole lines of a text that grows

A text is its complete lines, each with its end, and a last one that is unfinished. What is added
at its end finishes lines and leaves those that were complete as they are.
-/
namespace PurdueAF.WholeLines

section Lines
variable {α : Type*} [DecidableEq α] (nl : α)

/-- Up to the last end of a line. -/
def whole (text : List α) : List α := (text.reverse.dropWhile (· ≠ nl)).reverse

def complete (text : List α) : List (List α) := (text.splitOn nl).dropLast

def unfinished (text : List α) : List α := (text.splitOn nl).getLastD []

def unlines (lines : List (List α)) : List α := lines.flatMap (· ++ [nl])

end Lines

section Lines
variable {α : Type*} {nl : α}

theorem unlines_append (lines lines' : List (List α)) :
    unlines nl (lines ++ lines') = unlines nl lines ++ unlines nl lines' := List.flatMap_append

theorem unlines_cons (line : List α) (lines : List (List α)) :
    unlines nl (line :: lines) = line ++ nl :: unlines nl lines := by simp [unlines]

theorem unlines_append_eq (lines : List (List α)) (rest : List α) :
    unlines nl lines ++ rest = List.intercalate [nl] (lines ++ [rest]) := by
  induction lines with
  | nil => simp [unlines, List.intercalate]
  | cons line lines ih =>
    obtain ⟨next, more, hnext⟩ := List.exists_cons_of_ne_nil (List.append_ne_nil_of_right_ne_nil lines
      (List.cons_ne_nil rest []))
    rw [unlines_cons, List.cons_append, hnext]
    rw [hnext] at ih
    simp only [List.intercalate, List.intersperse_cons_cons, List.flatten_cons] at ih ⊢
    rw [← ih]
    simp

variable [DecidableEq α]

/-- The lines of a text that is put together from lines. -/
theorem splitOn_unlines {lines : List (List α)} {rest : List α} (hlines : ∀ l ∈ lines, nl ∉ l)
    (hrest : nl ∉ rest) : (unlines nl lines ++ rest).splitOn nl = lines ++ [rest] := by
  rw [unlines_append_eq]
  refine List.splitOn_intercalate nl ?_ (by simp)
  intro l hl
  rcases List.mem_append.mp hl with hl | hl
  · exact hlines l hl
  · rwa [List.mem_singleton.mp hl]

theorem complete_unlines {lines : List (List α)} {rest : List α} (hlines : ∀ l ∈ lines, nl ∉ l)
    (hrest : nl ∉ rest) : complete nl (unlines nl lines ++ rest) = lines := by
  rw [complete, splitOn_unlines hlines hrest, List.dropLast_concat]

theorem unfinished_unlines {lines : List (List α)} {rest : List α} (hlines : ∀ l ∈ lines, nl ∉ l)
    (hrest : nl ∉ rest) : unfinished nl (unlines nl lines ++ rest) = rest := by
  rw [unfinished, splitOn_unlines hlines hrest]
  simp

/-- A text is its complete lines and the unfinished one. -/
theorem exists_lines (nl : α) (text : List α) : ∃ lines rest, text = unlines nl lines ++ rest ∧
    (∀ l ∈ lines, nl ∉ l) ∧ nl ∉ rest := by
  induction text with
  | nil => exact ⟨[], [], rfl, by simp, by simp⟩
  | cons c text ih =>
    obtain ⟨lines, rest, rfl, hlines, hrest⟩ := ih
    by_cases hc : c = nl
    · subst hc
      refine ⟨[] :: lines, rest, by rw [unlines_cons]; rfl, ?_, hrest⟩
      simpa using hlines
    · cases lines with
      | nil =>
        refine ⟨[], c :: rest, rfl, by simp, ?_⟩
        simpa [Ne.symm hc] using hrest
      | cons line lines =>
        refine ⟨(c :: line) :: lines, rest, by simp [unlines_cons], ?_, hrest⟩
        intro l hl
        rcases List.mem_cons.mp hl with rfl | hl
        · simpa [Ne.symm hc] using hlines line (by simp)
        · exact hlines l (by simp [hl])

theorem unlines_complete (nl : α) (text : List α) :
    text = unlines nl (complete nl text) ++ unfinished nl text := by
  obtain ⟨lines, rest, rfl, hlines, hrest⟩ := exists_lines nl text
  rw [complete_unlines hlines hrest, unfinished_unlines hlines hrest]

theorem notMem_of_mem_complete {text l : List α} (h : l ∈ complete nl text) : nl ∉ l := by
  obtain ⟨lines, rest, rfl, hlines, hrest⟩ := exists_lines nl text
  rw [complete_unlines hlines hrest] at h
  exact hlines l h

/-- What comes before the unfinished line. -/
theorem whole_eq (nl : α) (text : List α) : whole nl text = unlines nl (complete nl text) := by
  obtain ⟨lines, rest, rfl, hlines, hrest⟩ := exists_lines nl text
  rw [complete_unlines hlines hrest, whole, List.reverse_append]
  have hdrop : ∀ c ∈ rest.reverse, decide (c ≠ nl) = true := by
    intro c hc
    refine decide_eq_true ?_
    rintro rfl
    exact hrest (List.mem_reverse.mp hc)
  rw [List.dropWhile_append_of_pos hdrop]
  rcases List.eq_nil_or_concat lines with rfl | ⟨front, last, rfl⟩
  · rfl
  · rw [List.concat_eq_append, unlines_append, List.reverse_append, unlines, unlines]
    simp

/-- Lines that have been complete stay the first ones. -/
theorem complete_append {lines : List (List α)} (hlines : ∀ l ∈ lines, nl ∉ l) (text : List α) :
    complete nl (unlines nl lines ++ text) = lines ++ complete nl text ∧
      unfinished nl (unlines nl lines ++ text) = unfinished nl text := by
  obtain ⟨more, rest, rfl, hmore, hrest⟩ := exists_lines nl text
  have hall : ∀ l ∈ lines ++ more, nl ∉ l := by
    intro l hl
    rcases List.mem_append.mp hl with hl | hl
    · exact hlines l hl
    · exact hmore l hl
  rw [← List.append_assoc, ← unlines_append, complete_unlines hall hrest,
    unfinished_unlines hall hrest, complete_unlines hmore hrest, unfinished_unlines hmore hrest]
  exact ⟨rfl, rfl⟩

end Lines

end PurdueAF.WholeLines
