import Mathlib.Data.List.Basic
import Mathlib.Data.List.Forall2
import Mathlib.Tactic.Common

/-!
# Regular expressions that match whole texts

Syntax and matching of the part of RE2 that has literals, escaped punctuation, `.`, negated
classes, groups, alternatives, `*` and `?`, where `.` matches every character. `parse` reads a
pattern character by character, with one `Level` for every open group; other syntax is not
read. Matching goes by derivatives.
-/
namespace PurdueAF.Re2

inductive Regex
  | empty
  | eps
  | lit (c : Char)
  | any
  | notIn (cs : List Char)
  | seq (a b : Regex)
  | alt (a b : Regex)
  | star (r : Regex)
  | opt (r : Regex)
  deriving DecidableEq, Repr

namespace Regex

def nullable : Regex → Bool
  | .eps | .star _ | .opt _ => true
  | .empty | .lit _ | .any | .notIn _ => false
  | .seq a b => a.nullable && b.nullable
  | .alt a b => a.nullable || b.nullable

def deriv : Regex → Char → Regex
  | .empty, _ | .eps, _ => .empty
  | .lit d, c => if c = d then .eps else .empty
  | .any, _ => .eps
  | .notIn cs, c => if c ∈ cs then .empty else .eps
  | .seq a b, c =>
    if a.nullable then .alt (.seq (a.deriv c) b) (b.deriv c) else .seq (a.deriv c) b
  | .alt a b, c => .alt (a.deriv c) (b.deriv c)
  | .star r, c => .seq (r.deriv c) (.star r)
  | .opt r, c => r.deriv c

/-- Whether the whole of a text matches. -/
def accepts : Regex → List Char → Bool
  | r, [] => r.nullable
  | r, c :: text => (r.deriv c).accepts text

theorem accepts_empty (text : List Char) : accepts .empty text = false := by
  induction text with
  | nil => rfl
  | cons c text ih => exact ih

theorem accepts_eps (text : List Char) : accepts .eps text = text.isEmpty := by
  cases text with
  | nil => rfl
  | cons c text => exact accepts_empty text

theorem accepts_alt (a b : Regex) (text : List Char) :
    accepts (.alt a b) text = (accepts a text || accepts b text) := by
  induction text generalizing a b with
  | nil => rfl
  | cons c text ih => exact ih (a.deriv c) (b.deriv c)

theorem accepts_opt (r : Regex) (text : List Char) :
    accepts (.opt r) text = (text.isEmpty || accepts r text) := by
  cases text <;> rfl

theorem accepts_lit (d : Char) (text : List Char) : accepts (.lit d) text = decide (text = [d]) := by
  cases text with
  | nil => simp [accepts, nullable]
  | cons c text =>
    simp only [accepts, deriv]
    split_ifs with h
    · cases text <;> simp [accepts_eps, h]
    · simp [accepts_empty, h]

theorem accepts_notIn (cs : List Char) (text : List Char) :
    accepts (.notIn cs) text = true ↔ ∃ c, c ∉ cs ∧ text = [c] := by
  cases text with
  | nil => simp [accepts, nullable]
  | cons c text =>
    simp only [accepts, deriv]
    split_ifs with h
    · simp only [accepts_empty, Bool.false_eq_true, false_iff]
      rintro ⟨d, hd, he⟩
      rw [(List.cons.inj he).1] at h
      exact hd h
    · cases text <;> simp [accepts_eps, h]

/-- A concatenation matches a text that can be cut in two that match. -/
theorem accepts_seq (a b : Regex) (text : List Char) :
    accepts (.seq a b) text = true ↔
      ∃ u v, text = u ++ v ∧ accepts a u = true ∧ accepts b v = true := by
  induction text generalizing a with
  | nil =>
    simp only [accepts, nullable, Bool.and_eq_true]
    constructor
    · intro h
      exact ⟨[], [], rfl, h⟩
    · rintro ⟨u, v, he, ha, hb⟩
      obtain ⟨rfl, rfl⟩ := List.append_eq_nil_iff.mp he.symm
      exact ⟨ha, hb⟩
  | cons c text ih =>
    have hstep : (∃ u v, c :: text = u ++ v ∧ accepts a u = true ∧ accepts b v = true) ↔
        (a.nullable = true ∧ accepts b (c :: text) = true) ∨
          ∃ u v, text = u ++ v ∧ accepts (a.deriv c) u = true ∧ accepts b v = true := by
      constructor
      · rintro ⟨u, v, he, ha, hb⟩
        cases u with
        | nil => exact .inl ⟨ha, by rw [he]; exact hb⟩
        | cons d u =>
          obtain ⟨rfl, rfl⟩ := List.cons.inj he
          exact .inr ⟨u, v, rfl, ha, hb⟩
      · rintro (⟨ha, hb⟩ | ⟨u, v, rfl, ha, hb⟩)
        · exact ⟨[], c :: text, rfl, ha, hb⟩
        · exact ⟨c :: u, v, rfl, ha, hb⟩
    rw [hstep]
    simp only [accepts, deriv]
    split_ifs with hn
    · rw [accepts_alt, Bool.or_eq_true, ih]
      exact ⟨fun h => h.symm.imp (fun hb => ⟨hn, hb⟩) id, fun h => h.symm.imp id And.right⟩
    · rw [ih]
      exact ⟨.inr, fun h => h.resolve_left fun h => hn h.1⟩

theorem accepts_any_star (text : List Char) : accepts (.star .any) text = true := by
  induction text with
  | nil => rfl
  | cons c text ih =>
    simp only [accepts, deriv]
    rw [accepts_seq]
    exact ⟨[], text, rfl, rfl, ih⟩

/-- What starts with a literal. -/
theorem accepts_lit_seq (d : Char) (r : Regex) (text : List Char) :
    accepts (.seq (.lit d) r) text = true ↔ ∃ rest, text = d :: rest ∧ accepts r rest = true := by
  rw [accepts_seq]
  constructor
  · rintro ⟨u, v, rfl, hu, hv⟩
    rw [accepts_lit, decide_eq_true_eq] at hu
    subst hu
    exact ⟨v, rfl, hv⟩
  · rintro ⟨rest, rfl, h⟩
    exact ⟨[d], rest, rfl, by simp [accepts_lit], h⟩

def chain (rs : List Regex) : Regex := rs.foldr .seq .eps

def union (rs : List Regex) : Regex := rs.foldr .alt .empty

theorem accepts_union (rs : List Regex) (text : List Char) :
    accepts (union rs) text = true ↔ ∃ r ∈ rs, accepts r text = true := by
  induction rs with
  | nil => simp [union, accepts_empty]
  | cons r rs ih =>
    have hcons : union (r :: rs) = .alt r (union rs) := rfl
    rw [hcons, accepts_alt, Bool.or_eq_true, ih]
    simp

theorem accepts_chain_append (rs ss : List Regex) (text : List Char) :
    accepts (chain (rs ++ ss)) text = true ↔
      ∃ u v, text = u ++ v ∧ accepts (chain rs) u = true ∧ accepts (chain ss) v = true := by
  induction rs generalizing text with
  | nil =>
    simp only [List.nil_append]
    constructor
    · intro h
      exact ⟨[], text, rfl, rfl, h⟩
    · rintro ⟨u, v, rfl, hu, hv⟩
      have hnil : u = [] := by simpa [chain, accepts_eps] using hu
      rw [hnil]
      exact hv
  | cons r rs ih =>
    have hl : chain (r :: (rs ++ ss)) = .seq r (chain (rs ++ ss)) := rfl
    have hr : chain (r :: rs) = .seq r (chain rs) := rfl
    rw [List.cons_append, hl, accepts_seq]
    constructor
    · rintro ⟨u, v, rfl, hu, hv⟩
      obtain ⟨x, y, rfl, hx, hy⟩ := (ih v).mp hv
      refine ⟨u ++ x, y, by rw [List.append_assoc], ?_, hy⟩
      rw [hr, accepts_seq]
      exact ⟨u, x, rfl, hu, hx⟩
    · rintro ⟨u, v, rfl, hu, hv⟩
      rw [hr, accepts_seq] at hu
      obtain ⟨x, y, rfl, hx, hy⟩ := hu
      exact ⟨x, y ++ v, by rw [List.append_assoc], hx, (ih _).mpr ⟨y, v, rfl, hy, hv⟩⟩

/-- A text written out matches itself only. -/
theorem accepts_chain_lit (word text : List Char) :
    accepts (chain (word.map .lit)) text = true ↔ text = word := by
  induction word generalizing text with
  | nil => simp [chain, accepts_eps]
  | cons c word ih =>
    have hcons : chain ((c :: word).map .lit) = .seq (.lit c) (chain (word.map .lit)) := rfl
    rw [hcons, accepts_lit_seq]
    constructor
    · rintro ⟨rest, rfl, h⟩
      rw [(ih rest).mp h]
    · rintro rfl
      exact ⟨word, rfl, (ih word).mpr rfl⟩

theorem accepts_chain_single (r : Regex) (text : List Char) :
    accepts (chain [r]) text = accepts r text := by
  have h : accepts (chain [r]) text = true ↔ accepts r text = true := by
    have hcons : chain [r] = .seq r .eps := rfl
    rw [hcons, accepts_seq]
    constructor
    · rintro ⟨u, v, rfl, hu, hv⟩
      have hnil : v = [] := by simpa [accepts_eps] using hv
      rw [hnil, List.append_nil]
      exact hu
    · intro h
      exact ⟨text, [], by simp, h, rfl⟩
  cases hr : accepts r text with
  | true => exact h.mpr hr
  | false =>
    rw [Bool.eq_false_iff]
    intro hc
    rw [h.mp hc] at hr
    cases hr

end Regex

/-- The alternatives of a group that are read, and the current one, the last item first. -/
structure Level where
  alts : List Regex
  items : List Regex

namespace Level

def push (l : Level) (r : Regex) : Level := { l with items := r :: l.items }

def bar (l : Level) : Level := ⟨l.alts ++ [Regex.chain l.items.reverse], []⟩

def close (l : Level) : Regex := Regex.union l.bar.alts

/-- Applies `*` or `?` to the last item, unless it has one. -/
def repeated (l : Level) (f : Regex → Regex) : Option Level :=
  match l.items with
  | [] | .star _ :: _ | .opt _ :: _ => none
  | r :: items => some { l with items := f r :: items }

end Level

inductive Mode
  | plain
  | escape
  | openGroup
  | flags
  | openClass
  | inClass (cs : List Char)
  | escapeInClass (cs : List Char)

structure Reader where
  mode : Mode
  outer : List Level
  level : Level

def isAlnum (c : Char) : Bool := c.isAlphanum

/-- A character that `\` may stand before to mean it literally. -/
def isPunct (c : Char) : Bool := decide (c.toNat < 128) && !isAlnum c

def isMeta (c : Char) : Bool := "\\.+*?()|[]\x7b\x7d^$".toList.contains c

def step (s : Reader) (c : Char) : Option Reader :=
  let push (r : Regex) : Option Reader := some ⟨.plain, s.outer, s.level.push r⟩
  match s.mode with
  | .plain =>
    if c = '\\' then some { s with mode := .escape }
    else if c = '(' then some { s with mode := .openGroup }
    else if c = '[' then some { s with mode := .openClass }
    else if c = ')' then
      match s.outer with
      | [] => none
      | l :: outer => some ⟨.plain, outer, l.push s.level.close⟩
    else if c = '|' then some { s with level := s.level.bar }
    else if c = '.' then push .any
    else if c = '*' then (s.level.repeated .star).map fun l => { s with level := l }
    else if c = '?' then (s.level.repeated .opt).map fun l => { s with level := l }
    else if isMeta c then none
    else push (.lit c)
  | .escape => if isPunct c then push (.lit c) else none
  | .openGroup => if c = '?' then some { s with mode := .flags } else none
  | .flags => if c = ':' then some ⟨.plain, s.level :: s.outer, ⟨[], []⟩⟩ else none
  | .openClass => if c = '^' then some { s with mode := .inClass [] } else none
  | .inClass cs =>
    if c = '\\' then some { s with mode := .escapeInClass cs }
    else if c = ']' then if cs.isEmpty then none else push (.notIn cs)
    else if c = '-' || c = '[' || c = '^' then none
    else some { s with mode := .inClass (cs ++ [c]) }
  | .escapeInClass cs => if isPunct c then some { s with mode := .inClass (cs ++ [c]) } else none

def read (s : Reader) : List Char → Option Reader
  | [] => some s
  | c :: text => (step s c).bind fun s => read s text

def parse (pattern : List Char) : Option Regex :=
  match read ⟨.plain, [], ⟨[], []⟩⟩ pattern with
  | some ⟨.plain, [], l⟩ => some l.close
  | _ => none

/-- Whether a pattern matches the whole of a text, if it is read. -/
def fullMatch (pattern text : String) : Option Bool :=
  (parse pattern.toList).map fun r => r.accepts text.toList

theorem read_append (s : Reader) (text more : List Char) :
    read s (text ++ more) = (read s text).bind fun s => read s more := by
  induction text generalizing s with
  | nil => rfl
  | cons c text ih =>
    simp only [List.cons_append, read]
    cases step s c with
    | none => rfl
    | some s' => exact ih s'

/-- In whatever group it stands, the text reads as these items. -/
def Reads (text : List Char) (rs : List Regex) : Prop :=
  ∀ outer l, read ⟨.plain, outer, l⟩ text = some ⟨.plain, outer, { l with items := rs.reverse ++ l.items }⟩

theorem Reads.nil : Reads [] [] := fun _ _ => rfl

theorem Reads.append {t u : List Char} {rs ss : List Regex} (ht : Reads t rs) (hu : Reads u ss) :
    Reads (t ++ u) (rs ++ ss) := by
  intro outer l
  rw [read_append, ht, Option.bind_some, hu]
  simp

theorem Reads.lit {c : Char} (h : isMeta c = false) : Reads [c] [.lit c] := by
  have hne (d : Char) (hd : isMeta d = true) : c ≠ d := by
    rintro rfl
    rw [h] at hd
    cases hd
  intro outer l
  simp [read, step, hne '\\' (by decide), hne '(' (by decide), hne '[' (by decide),
    hne ')' (by decide), hne '|' (by decide), hne '.' (by decide), hne '*' (by decide),
    hne '?' (by decide), h, Level.push]

theorem Reads.escaped {c : Char} (h : isPunct c = true) : Reads ['\\', c] [.lit c] := by
  intro outer l
  simp [read, step, h, Level.push]

theorem Reads.any_star : Reads ['.', '*'] [.star .any] := by
  intro outer l
  rfl

/-- The characters of a class: as they are, or escaped. -/
inductive ClassReads : List Char → List Char → Prop
  | nil : ClassReads [] []
  | plain {c : Char} {t cs : List Char} (hc : c ∉ ['\\', ']', '-', '[', '^']) (h : ClassReads t cs) :
      ClassReads (c :: t) (c :: cs)
  | escaped {c : Char} {t cs : List Char} (hc : isPunct c = true) (h : ClassReads t cs) :
      ClassReads ('\\' :: c :: t) (c :: cs)

theorem read_class {t cs : List Char} (h : ClassReads t cs) (done : List Char) (outer : List Level)
    (l : Level) :
    read ⟨.inClass done, outer, l⟩ t = some ⟨.inClass (done ++ cs), outer, l⟩ := by
  induction h generalizing done with
  | nil => simp [read]
  | @plain c t cs hc h ih =>
    simp only [List.mem_cons, List.not_mem_nil, or_false, not_or] at hc
    simp [read, step, hc, ih]
  | @escaped c t cs hc h ih => simp [read, step, hc, ih]

theorem Reads.notIn {t cs : List Char} (h : ClassReads t cs) (hne : cs ≠ []) :
    Reads ("[^".toList ++ t ++ [']']) [.notIn cs] := by
  intro outer l
  have hopen : read ⟨.plain, outer, l⟩ "[^".toList = some ⟨.inClass [], outer, l⟩ := rfl
  rw [read_append, read_append, hopen, Option.bind_some, read_class h]
  simp [read, step, Level.push, hne]

/-- Alternatives that read as items each. -/
theorem read_alternatives {ts : List (List Char)} {rss : List (List Regex)}
    (h : List.Forall₂ Reads ts rss) (hne : ts ≠ []) (outer : List Level) (alts : List Regex) :
    ∃ l : Level, read ⟨.plain, outer, ⟨alts, []⟩⟩ (['|'].intercalate ts) = some ⟨.plain, outer, l⟩ ∧
      l.close = Regex.union (alts ++ rss.map Regex.chain) := by
  induction h generalizing alts with
  | nil => exact absurd rfl hne
  | @cons t rs ts rss ht h ih =>
    have hread := ht outer ⟨alts, []⟩
    cases h with
    | nil =>
      refine ⟨_, by simpa [List.intercalate] using hread, ?_⟩
      simp [Level.close, Level.bar]
    | @cons u ss us sss hu h =>
      obtain ⟨l, hl, hclose⟩ := ih (by simp) (alts ++ [Regex.chain rs])
      refine ⟨l, ?_, by simp [hclose]⟩
      have hsplit : ['|'].intercalate (t :: u :: us) = t ++ ('|' :: ['|'].intercalate (u :: us)) := by
        simp [List.intercalate, List.intersperse]
      have hbar : step ⟨.plain, outer, ⟨alts, rs.reverse⟩⟩ '|' =
          some ⟨.plain, outer, ⟨alts ++ [Regex.chain rs], []⟩⟩ := by
        simp [step, Level.bar]
      rw [hsplit, read_append, hread, Option.bind_some]
      simp only [List.append_nil, read, hbar, Option.bind_some]
      exact hl

theorem Reads.group {ts : List (List Char)} {rss : List (List Regex)}
    (h : List.Forall₂ Reads ts rss) (hne : ts ≠ []) :
    Reads ("(?:".toList ++ ['|'].intercalate ts ++ [')']) [Regex.union (rss.map Regex.chain)] := by
  intro outer l
  have hopen : read ⟨.plain, outer, l⟩ "(?:".toList = some ⟨.plain, l :: outer, ⟨[], []⟩⟩ := rfl
  obtain ⟨inner, hread, hclose⟩ := read_alternatives h hne (l :: outer) []
  rw [read_append, read_append, hopen, Option.bind_some, hread, Option.bind_some]
  simp only [read, step]
  simp [Level.push, hclose]

theorem Reads.opt {t : List Char} {rss : List Regex} (h : Reads t [Regex.union rss]) :
    Reads (t ++ ['?']) [.opt (Regex.union rss)] := by
  intro outer l
  rw [read_append, h, Option.bind_some]
  cases rss with
  | nil => rfl
  | cons r rss => rfl

/-- A pattern of alternatives. -/
theorem parse_alternatives {ts : List (List Char)} {rss : List (List Regex)}
    (h : List.Forall₂ Reads ts rss) (hne : ts ≠ []) :
    parse (['|'].intercalate ts) = some (Regex.union (rss.map Regex.chain)) := by
  obtain ⟨l, hread, hclose⟩ := read_alternatives h hne [] []
  simp [parse, hread, hclose]

/-- Alternatives that are read match the whole of a text when one of them does. -/
theorem fullMatch_alternatives {ts : List (List Char)} {rss : List (List Regex)}
    (h : List.Forall₂ Reads ts rss) (hne : ts ≠ []) (text : String) :
    ∃ b, fullMatch (String.ofList (['|'].intercalate ts)) text = some b ∧
      (b = true ↔ ∃ rs ∈ rss, (Regex.chain rs).accepts text.toList = true) := by
  refine ⟨_, by rw [fullMatch, String.toList_ofList, parse_alternatives h hne, Option.map_some], ?_⟩
  rw [Regex.accepts_union]
  simp

end PurdueAF.Re2
