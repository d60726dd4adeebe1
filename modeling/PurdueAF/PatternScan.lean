import Mathlib.Data.List.Basic

/-!
# Matching and scanning with backtracking

A pattern is a row of items: a character of a class, as many characters of a class as there are,
the start of a line. Its matches at a place come in the order in which a backtracking matcher
tries them, and a scan takes the first of them, goes on behind it and leaves out nothing else.
-/
namespace PurdueAF.PatternScan

abbrev Text := List Char

inductive Item
  | one (p : Char → Bool)
  /-- Greedy. -/
  | many (p : Char → Bool)
  /-- `^` with `re.MULTILINE`. -/
  | lineStart

/-- The characters of a text, one after the other. -/
def lit (text : String) : List Item := text.toList.map fun c => .one (· = c)

/-- The character before what follows `taken`. -/
def behind (prev : Option Char) (taken : Text) : Option Char := taken.getLast?.or prev

/-- Results in the matcher's order: what is taken, and the rest. -/
abbrev Results := List (Text × Text)

/-- With `c` taken first. -/
def Results.push (c : Char) (rs : Results) : Results := rs.map fun r => (c :: r.1, r.2)

/-- As many characters as there are, or one less, and so on down to none, and then `k`. -/
def star (p : Char → Bool) (k : Option Char → Text → Results) : Option Char → Text → Results
  | prev, [] => k prev []
  | prev, c :: text =>
    if p c then (star p k (some c) text).push c ++ k prev (c :: text) else k prev (c :: text)

/-- The matches of items where `prev` is the character before the text. -/
def runs : List Item → Option Char → Text → Results
  | [] => fun _ text => [([], text)]
  | .lineStart :: items => fun prev text =>
    if prev = none ∨ prev = some '\n' then runs items prev text else []
  | .one p :: items => fun _ text =>
    match text with
    | [] => []
    | c :: text => if p c then (runs items (some c) text).push c else []
  | .many p :: items => star p (runs items)

/-- A match of the whole text. -/
def accepts (items : List Item) (prev : Option Char) (text : Text) : Bool :=
  (runs items prev text).any fun r => r.2.isEmpty

/-- A substitution puts something in the place of the middle. -/
structure Pattern where
  before : List Item
  middle : List Item
  after : List Item

structure Match where
  before : Text
  middle : Text
  after : Text
  deriving DecidableEq

def Match.text (m : Match) : Text := m.before ++ m.middle ++ m.after

def Pattern.allAt (P : Pattern) (prev : Option Char) (text : Text) : List (Match × Text) :=
  (runs P.before prev text).flatMap fun b =>
    (runs P.middle (behind prev b.1) b.2).flatMap fun m =>
      (runs P.after (behind (behind prev b.1) m.1) m.2).map fun a => (⟨b.1, m.1, a.1⟩, a.2)

def Pattern.matchAt (P : Pattern) (prev : Option Char) (text : Text) : Option (Match × Text) :=
  (P.allAt prev text).head?

inductive Token
  | char (c : Char)
  | found (m : Match)

/-- `re.finditer` of a pattern that does not match the empty text, with the characters between;
`skip` are those of the match before that are still to come. -/
def scan (P : Pattern) : Option Char → ℕ → Text → List Token
  | _, _, [] => []
  | _, skip + 1, c :: text => scan P (some c) skip text
  | prev, 0, c :: text =>
    match P.matchAt prev (c :: text) with
    | some (m, _) => .found m :: scan P (some c) (m.text.length - 1) text
    | none => .char c :: scan P (some c) 0 text

def Token.render (new : Text) : Token → Text
  | .char c => [c]
  | .found m => m.before ++ new ++ m.after

def Token.middle? : Token → Option Text
  | .char _ => none
  | .found m => some m.middle

/-- The middles of the matches. -/
def Pattern.found (P : Pattern) (text : Text) : List Text := (scan P none 0 text).filterMap Token.middle?

/-- Where the middles of the matches stand, and what they are. -/
def spans : ℕ → List Token → List (ℕ × Text)
  | _, [] => []
  | n, .char _ :: tokens => spans (n + 1) tokens
  | n, .found m :: tokens =>
    (n + m.before.length, m.middle) :: spans (n + m.text.length) tokens

def Pattern.spans (P : Pattern) (text : Text) : List (ℕ × Text) :=
  PatternScan.spans 0 (scan P none 0 text)

/-- `re.subn` with the two groups around what is new. -/
def Pattern.subn (P : Pattern) (new text : Text) : Text × ℕ :=
  ((scan P none 0 text).flatMap (Token.render new), (P.found text).length)

section Equations
variable (p : Char → Bool) (items : List Item) (prev : Option Char) (c : Char) (text : Text)

@[simp] theorem runs_nil : runs [] prev text = [([], text)] := rfl

@[simp] theorem runs_lineStart : runs (.lineStart :: items) prev text =
    if prev = none ∨ prev = some '\n' then runs items prev text else [] := rfl

@[simp] theorem runs_one_nil : runs (.one p :: items) prev [] = [] := rfl

@[simp] theorem runs_one_cons : runs (.one p :: items) prev (c :: text) =
    if p c then (runs items (some c) text).push c else [] := rfl

@[simp] theorem runs_many :
    runs (.many p :: items) prev text = star p (runs items) prev text := rfl

end Equations

theorem behind_nil (prev : Option Char) : behind prev [] = prev := rfl

theorem behind_cons (prev : Option Char) (c : Char) (taken : Text) :
    behind prev (c :: taken) = behind (some c) taken := by
  cases h : taken.getLast? with
  | none =>
    obtain rfl := List.getLast?_eq_none_iff.mp h
    rfl
  | some d =>
    have hne : taken ≠ [] := by
      rintro rfl
      cases h
    rw [behind, behind, List.getLast?_cons_of_ne_nil hne, h]
    rfl

theorem behind_append (prev : Option Char) (u v : Text) :
    behind prev (u ++ v) = behind (behind prev u) v := by
  induction u generalizing prev with
  | nil => rfl
  | cons c u ih => rw [List.cons_append, behind_cons, behind_cons, ih]

theorem mem_push {c : Char} {rs : Results} {u v : Text} :
    (u, v) ∈ rs.push c ↔ ∃ u', u = c :: u' ∧ (u', v) ∈ rs := by
  rw [Results.push, List.mem_map]
  constructor
  · rintro ⟨⟨u', v'⟩, hr, heq⟩
    obtain ⟨rfl, rfl⟩ := Prod.mk.inj heq
    exact ⟨u', rfl, hr⟩
  · rintro ⟨u', rfl, hr⟩
    exact ⟨(u', v), hr, rfl⟩

theorem mem_star {p : Char → Bool} {k : Option Char → Text → Results} {prev : Option Char}
    {text u v : Text} : (u, v) ∈ star p k prev text ↔
      ∃ s u' text', text = s ++ text' ∧ (∀ c ∈ s, p c = true) ∧ u = s ++ u' ∧
        (u', v) ∈ k (behind prev s) text' := by
  induction text generalizing prev u with
  | nil =>
    rw [star]
    constructor
    · intro h
      exact ⟨[], u, [], rfl, by simp, rfl, h⟩
    · rintro ⟨s, u', text', heq, -, rfl, h⟩
      obtain ⟨rfl, rfl⟩ := List.append_eq_nil_iff.mp heq.symm
      exact h
  | cons c text ih =>
    have hnone : (u, v) ∈ k prev (c :: text) → ∃ s u' text', c :: text = s ++ text' ∧
        (∀ d ∈ s, p d = true) ∧ u = s ++ u' ∧ (u', v) ∈ k (behind prev s) text' :=
      fun h => ⟨[], u, c :: text, rfl, by simp, rfl, h⟩
    rw [star]
    constructor
    · intro h
      split_ifs at h with hp
      · rcases List.mem_append.mp h with h | h
        · obtain ⟨u₁, rfl, hstar⟩ := mem_push.mp h
          obtain ⟨s, u', text', rfl, hs, rfl, hk⟩ := ih.mp hstar
          refine ⟨c :: s, u', text', rfl, ?_, rfl, ?_⟩
          · intro d hd
            rcases List.mem_cons.mp hd with rfl | hd
            · exact hp
            · exact hs d hd
          · rwa [behind_cons]
        · exact hnone h
      · exact hnone h
    · rintro ⟨s, u', text', heq, hs, rfl, hk⟩
      cases s with
      | nil =>
        obtain rfl : c :: text = text' := heq
        split_ifs
        · exact List.mem_append_right _ hk
        · exact hk
      | cons d s =>
        obtain ⟨rfl, rfl⟩ := List.cons.inj heq
        rw [if_pos (hs c (by simp))]
        refine List.mem_append_left _ (mem_push.mpr ⟨s ++ u', rfl, ih.mpr ?_⟩)
        rw [behind_cons] at hk
        exact ⟨s, u', text', rfl, fun d hd => hs d (by simp [hd]), rfl, hk⟩

theorem append_of_mem_runs {items : List Item} {prev : Option Char} {text u v : Text}
    (h : (u, v) ∈ runs items prev text) : text = u ++ v := by
  induction items generalizing prev text u with
  | nil =>
    obtain ⟨rfl, rfl⟩ : u = [] ∧ v = text := by simpa [runs] using h
    rfl
  | cons item items ih =>
    cases item with
    | lineStart =>
      rw [runs_lineStart] at h
      split_ifs at h
      · exact ih h
      · simp at h
    | one p =>
      cases text with
      | nil => simp at h
      | cons c text =>
        rw [runs_one_cons] at h
        split_ifs at h
        · obtain ⟨u', rfl, hr⟩ := mem_push.mp h
          rw [ih hr, List.cons_append]
        · simp at h
    | many p =>
      obtain ⟨s, u', text', rfl, -, rfl, hr⟩ := mem_star.mp h
      rw [ih hr, List.append_assoc]

theorem accepts_iff {items : List Item} {prev : Option Char} {text : Text} :
    accepts items prev text = true ↔ (text, []) ∈ runs items prev text := by
  rw [accepts, List.any_eq_true]
  constructor
  · rintro ⟨⟨u, v⟩, hr, hv⟩
    obtain rfl : v = [] := by simpa using hv
    have := append_of_mem_runs hr
    rw [List.append_nil] at this
    rwa [← this] at hr
  · exact fun h => ⟨_, h, rfl⟩

/-- What follows another match, with what that one took before it. -/
def Results.after (u : Text) (rs : Results) : Results := rs.map fun r => (u ++ r.1, r.2)

theorem push_flatMap (c : Char) (rs : Results) (f : Text × Text → Results) :
    Results.push c (rs.flatMap fun r => (f r).after r.1) =
      (rs.push c).flatMap fun r => (f (r.1.tail, r.2)).after r.1 := by
  rw [Results.push, Results.push, List.map_flatMap, List.flatMap_map]
  congr 1
  funext r
  simp only [Results.after, List.map_map, List.tail_cons]
  rfl

/-- Items one after the other. -/
theorem runs_append (items items' : List Item) (prev : Option Char) (text : Text) :
    runs (items ++ items') prev text =
      (runs items prev text).flatMap fun r => (runs items' (behind prev r.1) r.2).after r.1 := by
  induction items generalizing prev text with
  | nil => simp [runs, Results.after, behind_nil]
  | cons item items ih =>
    have hpush : ∀ (c : Char) (rs : Results),
        Results.push c (rs.flatMap fun r => (runs items' (behind (some c) r.1) r.2).after r.1) =
          (rs.push c).flatMap fun r => (runs items' (behind prev r.1) r.2).after r.1 := by
      intro c rs
      rw [push_flatMap, Results.push, List.flatMap_map, List.flatMap_map]
      simp only [List.tail_cons, behind_cons]
    cases item with
    | lineStart =>
      rw [List.cons_append, runs_lineStart, runs_lineStart, ih]
      split_ifs <;> rfl
    | one p =>
      cases text with
      | nil => rfl
      | cons c text =>
        rw [List.cons_append, runs_one_cons, runs_one_cons, ih]
        split_ifs
        · exact hpush c _
        · rfl
    | many p =>
      rw [List.cons_append, runs_many, runs_many]
      clear hpush
      induction text generalizing prev with
      | nil => exact ih prev []
      | cons c text iht =>
        have hpush : ∀ rs : Results,
            Results.push c (rs.flatMap fun r => (runs items' (behind (some c) r.1) r.2).after r.1) =
              (rs.push c).flatMap fun r => (runs items' (behind prev r.1) r.2).after r.1 := by
          intro rs
          rw [push_flatMap, Results.push, List.flatMap_map, List.flatMap_map]
          simp only [List.tail_cons, behind_cons]
        rw [star, star, iht, ih, hpush]
        split_ifs
        · rw [List.flatMap_append]
        · rfl

/-- What follows does not decide whether items match. -/
theorem mem_runs_append {items : List Item} {prev : Option Char} {u v : Text} :
    (u, v) ∈ runs items prev (u ++ v) ↔ (u, []) ∈ runs items prev u := by
  induction items generalizing prev u with
  | nil =>
    have hnil : u ++ v = v → u = [] := fun h => by simpa using h
    simp only [runs_nil, List.mem_singleton, Prod.mk.injEq]
    constructor
    · rintro ⟨hu, -⟩
      exact ⟨hu, hu.symm⟩
    · rintro ⟨rfl, -⟩
      exact ⟨rfl, rfl⟩
  | cons item items ih =>
    cases item with
    | lineStart =>
      rw [runs_lineStart, runs_lineStart]
      split_ifs
      · exact ih
      · simp
    | one p =>
      cases u with
      | nil =>
        constructor
        · intro h
          cases v with
          | nil => exact h
          | cons c v =>
            rw [List.nil_append, runs_one_cons] at h
            split_ifs at h
            · obtain ⟨u', hu', -⟩ := mem_push.mp h
              cases hu'
            · simp at h
        · intro h
          simp at h
      | cons c u =>
        rw [List.cons_append, runs_one_cons, runs_one_cons]
        split_ifs
        · rw [mem_push, mem_push]
          constructor
          · rintro ⟨u', heq, h⟩
            obtain rfl := (List.cons.inj heq).2
            exact ⟨u, rfl, ih.mp h⟩
          · rintro ⟨u', heq, h⟩
            obtain rfl := (List.cons.inj heq).2
            exact ⟨u, rfl, ih.mpr h⟩
        · simp
    | many p =>
      rw [runs_many, runs_many, mem_star, mem_star]
      constructor
      · rintro ⟨s, u', text', heq, hs, rfl, h⟩
        have htext := append_of_mem_runs h
        subst htext
        rw [List.append_assoc, List.append_cancel_left_eq] at heq
        exact ⟨s, u', u', rfl, hs, rfl, ih.mp h⟩
      · rintro ⟨s, u', text', heq, hs, rfl, h⟩
        have htext := append_of_mem_runs h
        rw [List.append_nil] at htext
        subst htext
        exact ⟨s, text', text' ++ v, by simp, hs, rfl, ih.mpr h⟩

theorem mem_runs {items : List Item} {prev : Option Char} {text u v : Text} :
    (u, v) ∈ runs items prev text ↔ text = u ++ v ∧ accepts items prev u = true := by
  rw [accepts_iff]
  constructor
  · intro h
    have htext := append_of_mem_runs h
    exact ⟨htext, mem_runs_append.mp (htext ▸ h)⟩
  · rintro ⟨rfl, h⟩
    exact mem_runs_append.mpr h

theorem accepts_append {items items' : List Item} {prev : Option Char} {w : Text} :
    accepts (items ++ items') prev w = true ↔
      ∃ u v, w = u ++ v ∧ accepts items prev u = true ∧ accepts items' (behind prev u) v = true := by
  rw [accepts_iff, runs_append, List.mem_flatMap]
  constructor
  · rintro ⟨⟨u, v⟩, hr, h⟩
    obtain ⟨⟨u', v'⟩, hr', heq⟩ := List.mem_map.mp h
    obtain ⟨rfl, rfl⟩ := Prod.mk.inj heq
    obtain ⟨-, hu⟩ := mem_runs.mp hr
    obtain ⟨-, hu'⟩ := mem_runs.mp hr'
    exact ⟨u, u', rfl, hu, hu'⟩
  · rintro ⟨u, v, rfl, hu, hv⟩
    refine ⟨(u, v), mem_runs.mpr ⟨rfl, hu⟩, List.mem_map.mpr ⟨(v, []), ?_, rfl⟩⟩
    exact mem_runs.mpr ⟨(List.append_nil v).symm, hv⟩

theorem accepts_one {p : Char → Bool} {items : List Item} {prev : Option Char} {w : Text} :
    accepts (.one p :: items) prev w = true ↔
      ∃ c v, w = c :: v ∧ p c = true ∧ accepts items (some c) v = true := by
  cases w with
  | nil => simp [accepts]
  | cons c w =>
    rw [accepts_iff, runs_one_cons]
    constructor
    · intro h
      split_ifs at h with hp
      · obtain ⟨u', heq, hr⟩ := mem_push.mp h
        obtain rfl := (List.cons.inj heq).2
        exact ⟨c, w, rfl, hp, accepts_iff.mpr hr⟩
      · simp at h
    · rintro ⟨d, v, heq, hp, h⟩
      obtain ⟨rfl, rfl⟩ := List.cons.inj heq
      rw [if_pos hp]
      exact mem_push.mpr ⟨w, rfl, accepts_iff.mp h⟩

theorem accepts_many {p : Char → Bool} {items : List Item} {prev : Option Char} {w : Text} :
    accepts (.many p :: items) prev w = true ↔ ∃ u v, w = u ++ v ∧ (∀ c ∈ u, p c = true) ∧
      accepts items (behind prev u) v = true := by
  rw [accepts_iff, runs_many, mem_star]
  constructor
  · rintro ⟨s, u', text', heq, hs, rfl, h⟩
    have htext := append_of_mem_runs h
    rw [List.append_nil] at htext
    subst htext
    exact ⟨s, text', rfl, hs, accepts_iff.mpr h⟩
  · rintro ⟨u, v, rfl, hu, h⟩
    exact ⟨u, v, v, rfl, hu, rfl, accepts_iff.mp h⟩

theorem accepts_lineStart {items : List Item} {prev : Option Char} {w : Text} :
    accepts (.lineStart :: items) prev w = true ↔
      (prev = none ∨ prev = some '\n') ∧ accepts items prev w = true := by
  rw [accepts_iff, runs_lineStart, accepts_iff]
  split_ifs with h
  · simp [h]
  · simp [h]

theorem accepts_nil {prev : Option Char} {w : Text} : accepts [] prev w = true ↔ w = [] := by
  rw [accepts_iff, runs_nil]
  simp

theorem accepts_lit {text : String} {prev : Option Char} {w : Text} :
    accepts (lit text) prev w = true ↔ w = text.toList := by
  rw [lit]
  induction text.toList generalizing prev w with
  | nil => exact accepts_nil
  | cons c cs ih =>
    rw [List.map_cons, accepts_one]
    constructor
    · rintro ⟨d, v, rfl, hd, h⟩
      obtain rfl : d = c := by simpa using hd
      rw [ih.mp h]
    · rintro rfl
      exact ⟨c, cs, rfl, by simp, ih.mpr rfl⟩

/-- The character before counts only where it ends a line. -/
theorem runs_prev {prev prev' : Option Char} (items : List Item) (text : Text)
    (h : (prev = none ∨ prev = some '\n') ↔ (prev' = none ∨ prev' = some '\n')) :
    runs items prev text = runs items prev' text := by
  induction items generalizing text with
  | nil => rfl
  | cons item items ih =>
    cases item with
    | lineStart =>
      rw [runs_lineStart, runs_lineStart, ih]
      simp only [h]
    | one p => rfl
    | many p =>
      rw [runs_many, runs_many]
      cases text with
      | nil => exact ih []
      | cons c text => rw [star, star, ih]

theorem head?_push {c : Char} {rs : Results} {u v : Text} :
    (rs.push c).head? = some (u, v) ↔ ∃ u', u = c :: u' ∧ rs.head? = some (u', v) := by
  cases rs with
  | nil => simp [Results.push]
  | cons r rs =>
    simp only [Results.push, List.map_cons, List.head?_cons, Option.some.injEq, Prod.mk.injEq]
    constructor
    · rintro ⟨rfl, rfl⟩
      exact ⟨r.1, rfl, rfl⟩
    · rintro ⟨u', rfl, rfl⟩
      exact ⟨rfl, rfl⟩

theorem head?_one {p : Char → Bool} {items : List Item} {prev : Option Char} {text u v : Text} :
    (runs (.one p :: items) prev text).head? = some (u, v) ↔
      ∃ c t u', text = c :: t ∧ p c = true ∧ u = c :: u' ∧
        (runs items (some c) t).head? = some (u', v) := by
  cases text with
  | nil => simp
  | cons c text =>
    rw [runs_one_cons]
    constructor
    · intro h
      split_ifs at h with hp
      · obtain ⟨u', rfl, hr⟩ := head?_push.mp h
        exact ⟨c, text, u', rfl, hp, rfl, hr⟩
      · cases h
    · rintro ⟨d, t, u', heq, hp, rfl, h⟩
      obtain ⟨rfl, rfl⟩ := List.cons.inj heq
      rw [if_pos hp]
      exact head?_push.mpr ⟨u', rfl, h⟩

theorem star_eq_nil {p : Char → Bool} {k : Option Char → Text → Results} {prev : Option Char}
    {text : Text} : star p k prev text = [] ↔
      ∀ s t, text = s ++ t → (∀ c ∈ s, p c = true) → k (behind prev s) t = [] := by
  constructor
  · rintro h s t rfl hs
    rw [List.eq_nil_iff_forall_not_mem]
    rintro ⟨u, v⟩ hr
    have hmem : (s ++ u, v) ∈ star p k prev (s ++ t) := mem_star.mpr ⟨s, u, t, rfl, hs, rfl, hr⟩
    rw [h] at hmem
    cases hmem
  · intro h
    rw [List.eq_nil_iff_forall_not_mem]
    rintro ⟨u, v⟩ hr
    obtain ⟨s, u', t, htext, hs, rfl, hk⟩ := mem_star.mp hr
    rw [h s t htext hs] at hk
    cases hk

/-- The first match takes as much as any that goes on. -/
theorem head?_star {p : Char → Bool} {k : Option Char → Text → Results} {prev : Option Char}
    {text u v : Text} : (star p k prev text).head? = some (u, v) ↔
      ∃ s t u', text = s ++ t ∧ (∀ c ∈ s, p c = true) ∧ u = s ++ u' ∧
        (k (behind prev s) t).head? = some (u', v) ∧
        ∀ s' t', text = s' ++ t' → (∀ c ∈ s', p c = true) → s.length < s'.length →
          k (behind prev s') t' = [] := by
  induction text generalizing prev u v with
  | nil =>
    rw [star]
    constructor
    · intro h
      refine ⟨[], [], u, rfl, by simp, rfl, h, ?_⟩
      intro s' t' heq hs' hlen
      obtain ⟨rfl, rfl⟩ := List.append_eq_nil_iff.mp heq.symm
      simp at hlen
    · rintro ⟨s, t, u', heq, -, rfl, h, -⟩
      obtain ⟨rfl, rfl⟩ := List.append_eq_nil_iff.mp heq.symm
      exact h
  | cons c text ih =>
    rw [star]
    by_cases hp : p c = true
    · rw [if_pos hp, List.head?_append]
      by_cases hnil : star p k (some c) text = []
      · -- none of those that take the character goes on
        have hlonger : ∀ s' t', c :: text = s' ++ t' → (∀ d ∈ s', p d = true) → s' ≠ [] →
            k (behind prev s') t' = [] := by
          intro s' t' heq hs' hne
          obtain ⟨d, s', rfl⟩ := List.exists_cons_of_ne_nil hne
          obtain ⟨rfl, rfl⟩ := List.cons.inj heq
          rw [behind_cons]
          exact star_eq_nil.mp hnil s' t' rfl fun d hd => hs' d (by simp [hd])
        have hpush : (Results.push c []).head? = none := rfl
        rw [hnil, hpush, Option.none_or]
        constructor
        · intro h
          refine ⟨[], c :: text, u, rfl, by simp, rfl, h, ?_⟩
          intro s' t' heq hs' hlen
          exact hlonger s' t' heq hs' (List.ne_nil_of_length_pos hlen)
        · rintro ⟨s, t, u', heq, hs, rfl, h, -⟩
          by_cases hne : s = []
          · subst hne
            obtain rfl : c :: text = t := heq
            exact h
          · rw [hlonger s t heq hs hne] at h
            cases h
      · obtain ⟨⟨u₁, v₁⟩, hhead⟩ : ∃ r, (star p k (some c) text).head? = some r := by
          cases hstar : star p k (some c) text with
          | nil => exact absurd hstar hnil
          | cons r rs => exact ⟨r, rfl⟩
        have hfirst : ((star p k (some c) text).push c).head? = some (c :: u₁, v₁) :=
          head?_push.mpr ⟨u₁, rfl, hhead⟩
        rw [hfirst, Option.some_or]
        constructor
        · intro h
          obtain ⟨rfl, rfl⟩ := Prod.mk.inj (Option.some.inj h)
          obtain ⟨s, t, u', rfl, hs, rfl, hk, hlast⟩ := ih.mp hhead
          refine ⟨c :: s, t, u', rfl, ?_, rfl, by rwa [behind_cons], ?_⟩
          · intro d hd
            rcases List.mem_cons.mp hd with rfl | hd
            · exact hp
            · exact hs d hd
          · intro s' t' heq hs' hlen
            obtain ⟨d, s', rfl⟩ :=
              List.exists_cons_of_ne_nil (List.ne_nil_of_length_pos (Nat.zero_lt_of_lt hlen))
            obtain ⟨rfl, htext⟩ := List.cons.inj heq
            rw [behind_cons]
            exact hlast s' t' htext (fun d hd => hs' d (by simp [hd])) (by simpa using hlen)
        · rintro ⟨s, t, u', heq, hs, rfl, hk, hlast⟩
          cases s with
          | nil =>
            -- what goes on is longer
            exfalso
            apply hnil
            rw [star_eq_nil]
            intro s' t' htext hs'
            rw [← behind_cons prev]
            apply hlast (c :: s') t' (by rw [htext, List.cons_append])
            · intro d hd
              rcases List.mem_cons.mp hd with rfl | hd
              · exact hp
              · exact hs' d hd
            · simp
          | cons d s =>
            obtain ⟨rfl, htext⟩ := List.cons.inj heq
            rw [behind_cons] at hk
            have hhead' : (star p k (some c) text).head? = some (s ++ u', v) := by
              refine ih.mpr ⟨s, t, u', htext, fun d hd => hs d (by simp [hd]), rfl, hk, ?_⟩
              intro s' t' htext hs' hlen
              rw [← behind_cons prev]
              apply hlast (c :: s') t' (by rw [htext, List.cons_append])
              · intro d hd
                rcases List.mem_cons.mp hd with rfl | hd
                · exact hp
                · exact hs' d hd
              · simpa using hlen
            rw [hhead] at hhead'
            obtain ⟨rfl, rfl⟩ := Prod.mk.inj (Option.some.inj hhead')
            rfl
    · rw [if_neg hp]
      constructor
      · intro h
        refine ⟨[], c :: text, u, rfl, by simp, rfl, h, ?_⟩
        intro s' t' heq hs' hlen
        obtain ⟨d, s', rfl⟩ := List.exists_cons_of_ne_nil (List.ne_nil_of_length_pos hlen)
        obtain ⟨rfl, rfl⟩ := List.cons.inj heq
        exact absurd (hs' c (by simp)) hp
      · rintro ⟨s, t, u', heq, hs, rfl, h, -⟩
        cases s with
        | nil =>
          obtain rfl : c :: text = t := heq
          exact h
        | cons d s =>
          obtain ⟨rfl, rfl⟩ := List.cons.inj heq
          exact absurd (hs c (by simp)) hp

/-- A literal text matches in one way. -/
theorem head?_lit {text : String} {items : List Item} {prev : Option Char} {t u v : Text} :
    (runs (lit text ++ items) prev t).head? = some (u, v) ↔
      ∃ rest u', t = text.toList ++ rest ∧ u = text.toList ++ u' ∧
        (runs items (behind prev text.toList) rest).head? = some (u', v) := by
  rw [lit]
  induction text.toList generalizing prev t u with
  | nil => simp [behind_nil]
  | cons c cs ih =>
    rw [List.map_cons, List.cons_append, head?_one]
    simp only [ih, decide_eq_true_eq, behind_cons]
    constructor
    · rintro ⟨d, t, u', rfl, rfl, rfl, rest, u'', rfl, rfl, h⟩
      exact ⟨rest, u'', rfl, rfl, h⟩
    · rintro ⟨rest, u', rfl, rfl, h⟩
      exact ⟨c, cs ++ rest, cs ++ u', rfl, rfl, rfl, rest, u', rfl, rfl, h⟩

theorem head?_many {p : Char → Bool} {prev : Option Char} {t : Text} :
    (runs [.many p] prev t).head? = some (t.takeWhile p, t.dropWhile p) := by
  rw [runs_many]
  induction t generalizing prev with
  | nil => rfl
  | cons c t ih =>
    rw [star]
    by_cases hp : p c = true
    · rw [if_pos hp, List.head?_append, head?_push.mpr ⟨_, rfl, ih⟩, List.takeWhile_cons_of_pos hp,
        List.dropWhile_cons_of_pos hp]
      rfl
    · rw [if_neg hp, List.takeWhile_cons_of_neg hp, List.dropWhile_cons_of_neg hp]
      rfl

/-- Items that end with as many characters as there are leave none of them. -/
theorem head_not_of_tail {items : List Item} {p : Char → Bool} {prev : Option Char} {t u v : Text}
    (h : (runs (items ++ [.many p]) prev t).head? = some (u, v)) : ∀ c ∈ v.head?, p c = false := by
  rw [runs_append] at h
  obtain ⟨⟨w, x⟩, hr⟩ | hnil : (∃ r, (runs items prev t).head? = some r) ∨ runs items prev t = [] := by
    cases runs items prev t with
    | nil => exact .inr rfl
    | cons r rs => exact .inl ⟨r, rfl⟩
  · obtain ⟨rs, hrs⟩ := List.head?_eq_some_iff.mp hr
    rw [hrs, List.flatMap_cons, List.head?_append, Results.after, List.head?_map, head?_many] at h
    obtain ⟨rfl, rfl⟩ := Prod.mk.inj (Option.some.inj h)
    intro c hc
    have hnot := List.head?_dropWhile_not p x
    rw [Option.mem_def.mp hc] at hnot
    exact hnot
  · rw [hnil] at h
    cases h

def Item.avoids (q : Char) : Item → Prop
  | .one p | .many p => p q = false
  | .lineStart => True

theorem lit_avoids {text : String} {d : Char} (h : d ∉ text.toList) :
    ∀ it ∈ lit text, it.avoids d := by
  intro it hit
  obtain ⟨c, hc, rfl⟩ := List.mem_map.mp hit
  exact decide_eq_false fun heq => h (heq ▸ hc)

/-- What items take before a character that they leave out, they take of the part before it. -/
theorem runs_before {q : Char} {items : List Item} (h : ∀ it ∈ items, it.avoids q)
    (prev : Option Char) (text rest : Text) :
    runs items prev (text ++ q :: rest) =
      (runs items prev text).map fun r => (r.1, r.2 ++ q :: rest) := by
  induction items generalizing prev text with
  | nil => rfl
  | cons item items ih =>
    have hrest : ∀ it ∈ items, it.avoids q := fun it hit => h it (by simp [hit])
    have hitem := h item (by simp)
    have hpush : ∀ (c : Char) (rs : Results), Results.push c (rs.map fun r => (r.1, r.2 ++ q :: rest)) =
        (rs.push c).map fun r => (r.1, r.2 ++ q :: rest) := by
      intro c rs
      simp [Results.push]
    cases item with
    | lineStart =>
      rw [runs_lineStart, runs_lineStart, ih hrest]
      split_ifs <;> rfl
    | one p =>
      have hp : p q = false := hitem
      cases text with
      | nil => simp [hp]
      | cons c text =>
        rw [List.cons_append, runs_one_cons, runs_one_cons, ih hrest, hpush]
        split_ifs <;> rfl
    | many p =>
      have hp : p q = false := hitem
      rw [runs_many, runs_many]
      induction text generalizing prev with
      | nil =>
        rw [List.nil_append, star, star, hp]
        exact ih hrest prev []
      | cons c text iht =>
        have hcons := ih hrest prev (c :: text)
        rw [List.cons_append] at hcons ⊢
        rw [star, star, iht, hcons, hpush]
        split_ifs
        · rw [List.map_append]
        · rfl

theorem notMem_of_accepts {d : Char} {items : List Item} (h : ∀ it ∈ items, it.avoids d)
    {prev : Option Char} {w : Text} (hacc : accepts items prev w = true) : d ∉ w := by
  intro hd
  obtain ⟨u, v, rfl⟩ := List.append_of_mem hd
  have hmem := accepts_iff.mp hacc
  rw [runs_before h] at hmem
  obtain ⟨⟨x, y⟩, -, heq⟩ := List.mem_map.mp hmem
  have hnil := (Prod.mk.inj heq).2
  simp at hnil

theorem scan_skip (P : Pattern) (prev : Option Char) (u text : Text) :
    scan P prev u.length (u ++ text) = scan P (behind prev u) 0 text := by
  induction u generalizing prev with
  | nil => rfl
  | cons c u ih =>
    rw [List.length_cons, List.cons_append, scan, ih, behind_cons]

theorem text_of_mem_allAt {P : Pattern} {prev : Option Char} {text rest : Text} {m : Match}
    (h : (m, rest) ∈ P.allAt prev text) : text = m.text ++ rest := by
  rw [Pattern.allAt, List.mem_flatMap] at h
  obtain ⟨⟨u, t⟩, hu, h⟩ := h
  obtain ⟨⟨v, t'⟩, hv, h⟩ := List.mem_flatMap.mp h
  obtain ⟨⟨w, t''⟩, hw, heq⟩ := List.mem_map.mp h
  obtain ⟨rfl, rfl⟩ := Prod.mk.inj heq
  have htext := append_of_mem_runs hu
  have ht := append_of_mem_runs hv
  have ht' := append_of_mem_runs hw
  simp only at ht ht'
  rw [htext, ht, ht']
  simp [Match.text]

theorem text_of_matchAt {P : Pattern} {prev : Option Char} {text rest : Text} {m : Match}
    (h : P.matchAt prev text = some (m, rest)) : text = m.text ++ rest :=
  text_of_mem_allAt (List.mem_of_mem_head? h)

theorem scan_found {P : Pattern} {prev : Option Char} {text rest : Text} {m : Match}
    (h : P.matchAt prev text = some (m, rest)) (hne : m.text ≠ []) :
    scan P prev 0 text = .found m :: scan P (behind prev m.text) 0 rest := by
  have htext := text_of_matchAt h
  obtain ⟨c, u, hu⟩ := List.exists_cons_of_ne_nil hne
  rw [htext, hu, List.cons_append] at h ⊢
  rw [scan, h]
  dsimp only
  rw [hu, List.length_cons, Nat.add_sub_cancel, scan_skip, behind_cons]

theorem scan_char {P : Pattern} {prev : Option Char} {c : Char} {text : Text}
    (h : P.matchAt prev (c :: text) = none) :
    scan P prev 0 (c :: text) = .char c :: scan P (some c) 0 text := by
  rw [scan, h]

theorem accepts_of_matchAt {P : Pattern} {prev : Option Char} {text rest : Text} {m : Match}
    (h : P.matchAt prev text = some (m, rest)) : ∃ prev, accepts P.middle prev m.middle = true := by
  have hmem := List.mem_of_mem_head? h
  rw [Pattern.allAt, List.mem_flatMap] at hmem
  obtain ⟨b, -, hb⟩ := hmem
  obtain ⟨r, hr, ha⟩ := List.mem_flatMap.mp hb
  obtain ⟨a, -, heq⟩ := List.mem_map.mp ha
  obtain ⟨rfl, rfl⟩ := Prod.mk.inj heq
  exact ⟨_, (mem_runs.mp hr).2⟩

/-- What is found is what the middle of the pattern matches. -/
theorem accepts_of_found {P : Pattern} {text v : Text} (h : v ∈ P.found text) :
    ∃ prev, accepts P.middle prev v = true := by
  have hscan : ∀ (text : Text) (prev : Option Char) (skip : ℕ),
      v ∈ (scan P prev skip text).filterMap Token.middle? →
        ∃ prev, accepts P.middle prev v = true := by
    intro text
    induction text with
    | nil =>
      intro prev skip hv
      simp [scan] at hv
    | cons c text ih =>
      intro prev skip hv
      cases skip with
      | succ skip => exact ih (some c) skip hv
      | zero =>
        rw [scan] at hv
        cases hmatch : P.matchAt prev (c :: text) with
        | none =>
          rw [hmatch] at hv
          exact ih (some c) 0 hv
        | some r =>
          rw [hmatch, List.filterMap_cons] at hv
          rcases List.mem_cons.mp hv with rfl | hv
          · exact accepts_of_matchAt hmatch
          · exact ih _ _ hv
  exact hscan text none 0 h

/-- What is looked for behind a key and a separator `q`: something that is left, something that is
replaced, and, where it is closed, the separator again. -/
structure Slot where
  key : List Item
  lead : List Item
  middle : List Item
  closed : Bool

def Slot.inner (q : Char) (s : Slot) : Pattern :=
  ⟨s.lead, s.middle, if s.closed then [.one (· = q)] else []⟩

def Slot.pattern (q : Char) (s : Slot) : Pattern :=
  ⟨s.key ++ .one (· = q) :: s.lead, s.middle, if s.closed then [.one (· = q)] else []⟩

theorem head?_flatMap_ite {α β : Type*} (l : List α) (p : α → Bool) (g : List β) :
    (l.flatMap fun x => if p x then g else []).head? = if l.any p then g.head? else none := by
  induction l with
  | nil => rfl
  | cons x l ih =>
    rw [List.flatMap_cons, List.head?_append, ih, List.any_cons]
    by_cases hx : p x = true
    · rw [if_pos hx, hx, Bool.true_or, if_pos rfl]
      cases g.head? <;> simp
    · rw [if_neg hx, Bool.eq_false_iff.mpr hx, Bool.false_or]
      rfl

/-- The key is all that there is before the separator. -/
theorem matchAt_slot {q : Char} {s : Slot} {y : Text} (hkey : ∀ it ∈ s.key, it.avoids q)
    (hy : q ∉ y) (prev : Option Char) (t : Text) :
    (s.pattern q).matchAt prev (y ++ q :: t) =
      if accepts s.key prev y then
        ((s.inner q).matchAt (some q) t).map fun r =>
          (⟨y ++ q :: r.1.before, r.1.middle, r.1.after⟩, r.2)
      else none := by
  have hall : (s.pattern q).allAt prev (y ++ q :: t) =
      (runs s.key prev y).flatMap fun r => if r.2.isEmpty then
        ((s.inner q).allAt (some q) t).map fun r =>
          (⟨y ++ q :: r.1.before, r.1.middle, r.1.after⟩, r.2) else [] := by
    rw [Pattern.allAt, Slot.pattern]
    dsimp only
    rw [runs_append, runs_before hkey, List.flatMap_map, List.flatMap_assoc]
    apply List.flatMap_congr
    rintro ⟨u, v⟩ hr
    obtain rfl := append_of_mem_runs hr
    cases v with
    | nil =>
      simp only [List.append_nil, List.nil_append, List.isEmpty_nil, ↓reduceIte, runs_one_cons,
        decide_true, Pattern.allAt, Slot.inner]
      rw [Results.after, Results.push, List.map_map, List.flatMap_map, List.map_flatMap]
      apply List.flatMap_congr
      intro b hb
      simp only [Function.comp_apply, behind_append, behind_cons, List.map_flatMap, List.map_map]
      rfl
    | cons c v =>
      have hc : c ≠ q := by
        rintro rfl
        exact hy (by simp)
      simp [hc, Results.after]
  rw [Pattern.matchAt, hall, head?_flatMap_ite, Pattern.matchAt, List.head?_map]
  rfl

/-- Some end of the text is a match of all of it. -/
def keyAt (items : List Item) : Option Char → Text → Bool
  | prev, [] => accepts items prev []
  | prev, c :: text => accepts items prev (c :: text) || keyAt items (some c) text

theorem keyAt_iff {items : List Item} {prev : Option Char} {text : Text} :
    keyAt items prev text = true ↔
      ∃ x y, text = x ++ y ∧ accepts items (behind prev x) y = true := by
  induction text generalizing prev with
  | nil =>
    rw [keyAt]
    constructor
    · exact fun h => ⟨[], [], rfl, h⟩
    · rintro ⟨x, y, heq, h⟩
      obtain ⟨rfl, rfl⟩ := List.append_eq_nil_iff.mp heq.symm
      exact h
  | cons c text ih =>
    rw [keyAt, Bool.or_eq_true, ih]
    constructor
    · rintro (h | ⟨x, y, rfl, h⟩)
      · exact ⟨[], c :: text, rfl, h⟩
      · exact ⟨c :: x, y, rfl, by rwa [behind_cons]⟩
    · rintro ⟨x, y, heq, h⟩
      cases x with
      | nil =>
        obtain rfl : c :: text = y := heq
        exact .inl h
      | cons d x =>
        obtain ⟨rfl, rfl⟩ := List.cons.inj heq
        rw [behind_cons] at h
        exact .inr ⟨x, y, rfl, h⟩

theorem keyAt_prev {prev prev' : Option Char} (items : List Item) (text : Text)
    (h : (prev = none ∨ prev = some '\n') ↔ (prev' = none ∨ prev' = some '\n')) :
    keyAt items prev text = keyAt items prev' text := by
  cases text with
  | nil => rw [keyAt, keyAt, accepts, accepts, runs_prev items [] h]
  | cons c text => rw [keyAt, keyAt, accepts, accepts, runs_prev items (c :: text) h]

/-- No match reaches over a character that the items leave out. -/
theorem keyAt_past {items : List Item} {d : Char} (h : ∀ it ∈ items, it.avoids d)
    (prev : Option Char) (u r : Text) :
    keyAt items prev (u ++ d :: r) = keyAt items (some d) r := by
  rw [Bool.eq_iff_iff, keyAt_iff, keyAt_iff]
  constructor
  · rintro ⟨x, y, heq, hacc⟩
    have hd : d ∉ y := notMem_of_accepts h hacc
    rcases List.append_eq_append_iff.mp heq with ⟨z, rfl, hz⟩ | ⟨z, rfl, rfl⟩
    · cases z with
      | nil => exact absurd (show d ∈ y by rw [← List.nil_append y, ← hz]; simp) hd
      | cons e z =>
        obtain ⟨rfl, rfl⟩ := List.cons.inj hz
        rw [behind_append, behind_cons] at hacc
        exact ⟨z, y, rfl, hacc⟩
    · exact absurd (by simp) hd
  · rintro ⟨x, y, rfl, hacc⟩
    refine ⟨u ++ d :: x, y, by simp, ?_⟩
    rwa [behind_append, behind_cons]

/-- A key that ends with a literal text. -/
theorem suffix_of_keyAt (items : List Item) {text : String} {prev : Option Char} {a : Text}
    (h : keyAt (items ++ lit text) prev a = true) : text.toList <:+ a := by
  obtain ⟨x, y, rfl, hacc⟩ := keyAt_iff.mp h
  obtain ⟨u, v, rfl, -, hv⟩ := accepts_append.mp hacc
  exact ⟨x ++ u, by rw [accepts_lit.mp hv, List.append_assoc]⟩

/-- Before a key at the start of a line there are only its blanks. -/
theorem blank_of_keyAt {p : Char → Bool} {text : String} {prev : Option Char} {a : Text} {c : Char}
    (hp : p '\n' = true)
    (h : keyAt (.lineStart :: .many p :: lit text) prev (a ++ c :: text.toList) = true) :
    p c = true := by
  obtain ⟨x, y, heq, hacc⟩ := keyAt_iff.mp h
  obtain ⟨hstart, hacc⟩ := accepts_lineStart.mp hacc
  obtain ⟨u, v, rfl, hu, hv⟩ := accepts_many.mp hacc
  obtain rfl := accepts_lit.mp hv
  have hfront : a ++ [c] = x ++ u := by
    have heq' : (a ++ [c]) ++ text.toList = (x ++ u) ++ text.toList := by simpa using heq
    exact List.append_cancel_right heq'
  rcases List.eq_nil_or_concat u with rfl | ⟨u', d, rfl⟩
  · -- the character ends the line before
    rw [List.append_nil] at hfront
    have hlast : behind prev x = some c := by rw [← hfront, behind]; simp
    rw [hlast] at hstart
    obtain rfl : c = '\n' := by simpa using hstart
    exact hp
  · rw [List.concat_eq_append, ← List.append_assoc] at hfront
    obtain ⟨-, hcd⟩ := List.append_inj' hfront rfl
    obtain rfl : c = d := by simpa using hcd
    exact hu c (by simp)

section Slot
variable {q : Char} {s : Slot} (hkey : ∀ it ∈ s.key, it.avoids q)
  (hnil : ∀ prev, accepts s.key prev [] = false)
include hkey hnil

theorem scan_slot_char {a t : Text} (ha : q ∉ a) {prev : Option Char}
    (h : keyAt s.key prev a = true → (s.inner q).matchAt (some q) t = none) :
    scan (s.pattern q) prev 0 (a ++ q :: t) =
      a.map .char ++ .char q :: scan (s.pattern q) (some q) 0 t := by
  induction a generalizing prev with
  | nil =>
    have hnone : (s.pattern q).matchAt prev ([] ++ q :: t) = none := by
      rw [matchAt_slot hkey ha, hnil, if_neg (by simp)]
    exact scan_char hnone
  | cons c a ih =>
    have hnone : (s.pattern q).matchAt prev (c :: a ++ q :: t) = none := by
      rw [matchAt_slot hkey ha]
      split_ifs with hacc
      · rw [h (by rw [keyAt, hacc, Bool.true_or]), Option.map_none]
      · rfl
    rw [List.cons_append] at hnone ⊢
    rw [scan_char hnone, List.map_cons, List.cons_append,
      ih (fun hq => ha (by simp [hq])) fun hk => h (by rw [keyAt, hk, Bool.or_true])]

theorem scan_slot_found {a t rest : Text} (ha : q ∉ a) {prev : Option Char} {m : Match}
    (hat : keyAt s.key prev a = true) (hm : (s.inner q).matchAt (some q) t = some (m, rest)) :
    ∃ x y, a = x ++ y ∧ scan (s.pattern q) prev 0 (a ++ q :: t) =
      x.map .char ++ .found ⟨y ++ q :: m.before, m.middle, m.after⟩ ::
        scan (s.pattern q) (behind (some q) m.text) 0 rest := by
  have hfound : ∀ {y : Text} {prev : Option Char}, q ∉ y → accepts s.key prev y = true →
      scan (s.pattern q) prev 0 (y ++ q :: t) = .found ⟨y ++ q :: m.before, m.middle, m.after⟩ ::
        scan (s.pattern q) (behind (some q) m.text) 0 rest := by
    intro y prev hy hacc
    have hmatch : (s.pattern q).matchAt prev (y ++ q :: t) =
        some (⟨y ++ q :: m.before, m.middle, m.after⟩, rest) := by
      rw [matchAt_slot hkey hy, if_pos hacc, hm, Option.map_some]
    have htext : (⟨y ++ q :: m.before, m.middle, m.after⟩ : Match).text = y ++ q :: m.text := by
      simp [Match.text]
    rw [scan_found hmatch (by simp [htext]), htext, behind_append, behind_cons]
  induction a generalizing prev with
  | nil =>
    rw [keyAt, hnil] at hat
    cases hat
  | cons c a ih =>
    by_cases hacc : accepts s.key prev (c :: a) = true
    · exact ⟨[], c :: a, rfl, hfound ha hacc⟩
    · have hnone : (s.pattern q).matchAt prev (c :: a ++ q :: t) = none := by
        rw [matchAt_slot hkey ha, if_neg hacc]
      rw [keyAt, Bool.eq_false_iff.mpr hacc, Bool.false_or] at hat
      obtain ⟨x, y, rfl, hscan⟩ := ih (fun hq => ha (by simp [hq])) hat
      refine ⟨c :: x, y, rfl, ?_⟩
      rw [List.cons_append] at hnone ⊢
      rw [scan_char hnone, hscan, List.map_cons, List.cons_append]

end Slot

/-- Without the separator there is no match. -/
theorem scan_slot_none {q : Char} {s : Slot} {text : Text} (h : q ∉ text) (prev : Option Char) :
    scan (s.pattern q) prev 0 text = text.map .char := by
  have hnone : ∀ {prev : Option Char} {text : Text}, q ∉ text →
      (s.pattern q).matchAt prev text = none := by
    intro prev text h
    have hruns : runs (s.pattern q).before prev text = [] := by
      rw [Slot.pattern, runs_append, List.flatMap_eq_nil_iff]
      rintro ⟨u, v⟩ hr
      have htext := append_of_mem_runs hr
      cases v with
      | nil => rfl
      | cons c v =>
        have hc : c ≠ q := by
          rintro rfl
          exact h (by simp [htext])
        simp [hc, Results.after]
    rw [Pattern.matchAt, Pattern.allAt, hruns]
    rfl
  induction text generalizing prev with
  | nil => rfl
  | cons c text ih =>
    rw [scan_char (hnone h), List.map_cons, ih fun hq => h (by simp [hq])]

end PurdueAF.PatternScan
