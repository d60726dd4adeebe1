import PurdueAF.FileTree
import PurdueAF.PatternScan

/-!
# Substitutions between separators

A text is read as parts with a separator between them: a slot's key ends one part, and what is
replaced stands in the next. Slots whose keys exclude each other are edited one after the other
without touching one another.
-/
namespace PurdueAF.PatternScan

variable {q : Char}

/-- What comes before the separator that may close the slot. -/
def Slot.base (s : Slot) : Pattern := ⟨s.lead, s.middle, []⟩

/-- Of the part after the separator: what is left before, what is replaced, what is left. -/
def Slot.split (q : Char) (s : Slot) (b : Text) : Option (Text × Text × Text) :=
  ((s.base.allAt (some q) b).find? fun r => !s.closed || r.2.isEmpty).map
    fun r => (r.1.before, r.1.middle, r.2)

/-- A slot for which a scan sees nothing in a part it has been through. -/
structure Slot.Good (q : Char) (s : Slot) : Prop where
  key : ∀ it ∈ s.key, it.avoids q
  inner : ∀ it ∈ s.lead ++ s.middle, it.avoids q
  nil : ∀ prev, accepts s.key prev [] = false
  past : ∀ b p v r, s.split q b = some (p, v, r) →
    keyAt s.key (some q) b = (!s.closed && keyAt s.key (behind (some q) (p ++ v)) r)

def join (q : Char) (parts : List Text) : Text := List.intercalate [q] parts

theorem join_cons_cons (a b : Text) (more : List Text) :
    join q (a :: b :: more) = a ++ q :: join q (b :: more) := by
  simp [join, List.intercalate]

theorem join_append_cons (u a : Text) (more : List Text) :
    join q ((u ++ a) :: more) = u ++ join q (a :: more) := by
  cases more <;> simp [join, List.intercalate]

theorem join_singleton (a : Text) : join q [a] = a := by simp [join, List.intercalate]

theorem allAt_inner (s : Slot) (prev : Option Char) (b : Text) :
    (s.inner q).allAt prev b = (s.base.allAt prev b).flatMap fun r =>
      (runs (s.inner q).after (behind prev (r.1.before ++ r.1.middle)) r.2).map
        fun a => (⟨r.1.before, r.1.middle, a.1⟩, a.2) := by
  simp only [Pattern.allAt, Slot.inner, Slot.base, List.flatMap_assoc, runs_nil, List.map_cons,
    List.map_nil, List.flatMap_cons, List.flatMap_nil, List.append_nil, behind_append]

theorem allAt_base_before {s : Slot} (h : ∀ it ∈ s.lead ++ s.middle, it.avoids q)
    (prev : Option Char) (b w : Text) : s.base.allAt prev (b ++ q :: w) =
      (s.base.allAt prev b).map fun r => (r.1, r.2 ++ q :: w) := by
  have hlead : ∀ it ∈ s.lead, it.avoids q := fun it hit => h it (by simp [hit])
  have hmiddle : ∀ it ∈ s.middle, it.avoids q := fun it hit => h it (by simp [hit])
  simp only [Pattern.allAt, Slot.base, runs_before hlead, runs_before hmiddle, List.flatMap_map,
    List.map_flatMap, runs_nil, List.map_cons, List.map_nil]

theorem text_of_mem_base {s : Slot} {prev : Option Char} {b : Text} {r : Match × Text}
    (hr : r ∈ s.base.allAt prev b) : b = r.1.before ++ r.1.middle ++ r.2 := by
  obtain ⟨m, rest⟩ := r
  have htext := text_of_mem_allAt hr
  have hafter : m.after = [] := by
    rw [Pattern.allAt, List.mem_flatMap] at hr
    obtain ⟨u, -, hr⟩ := hr
    obtain ⟨v, -, hr⟩ := List.mem_flatMap.mp hr
    obtain ⟨w, hw, heq⟩ := List.mem_map.mp hr
    obtain ⟨rfl, -⟩ := Prod.mk.inj heq
    obtain rfl : w = ([], v.2) := by simpa [Slot.base] using hw
    rfl
  rwa [Match.text, hafter, List.append_nil] at htext

theorem head?_flatMap_find {α β : Type*} (l : List α) (p : α → Bool) (g : α → β) :
    (l.flatMap fun x => if p x then [g x] else []).head? = (l.find? p).map g := by
  induction l with
  | nil => rfl
  | cons x l ih =>
    rw [List.flatMap_cons, List.find?_cons]
    by_cases hx : p x = true
    · simp [hx]
    · simp [hx, ih]

/-- What is found before the separator that ends the part. -/
theorem matchAt_inner {s : Slot} (h : ∀ it ∈ s.lead ++ s.middle, it.avoids q) {b : Text}
    (hb : q ∉ b) (w : Text) :
    (s.inner q).matchAt (some q) (b ++ q :: w) = (s.split q b).map fun x =>
      (⟨x.1, x.2.1, if s.closed then [q] else []⟩, if s.closed then w else x.2.2 ++ q :: w) := by
  have hall : (s.inner q).allAt (some q) (b ++ q :: w) =
      (s.base.allAt (some q) b).flatMap fun r => if !s.closed || r.2.isEmpty then
        [(⟨r.1.before, r.1.middle, if s.closed then [q] else []⟩,
          if s.closed then w else r.2 ++ q :: w)] else [] := by
    rw [allAt_inner, allAt_base_before h, List.flatMap_map]
    apply List.flatMap_congr
    rintro ⟨m, rest⟩ hr
    have htext := text_of_mem_base hr
    rw [Slot.inner]
    cases s.closed with
    | false => simp
    | true =>
      cases rest with
      | nil => simp [Results.push]
      | cons c rest =>
        have hc : c ≠ q := by
          rintro rfl
          exact hb (by simp [htext])
        simp [hc]
  rw [Pattern.matchAt, hall, head?_flatMap_find, Slot.split, Option.map_map]
  rfl

/-- What is found in the last part. -/
theorem matchAt_inner_last {s : Slot} {b : Text} (hb : q ∉ b) :
    (s.inner q).matchAt (some q) b =
      if s.closed then none else (s.split q b).map fun x => (⟨x.1, x.2.1, []⟩, x.2.2) := by
  have hall : (s.inner q).allAt (some q) b =
      (s.base.allAt (some q) b).flatMap fun r => if !s.closed then
        [(⟨r.1.before, r.1.middle, []⟩, r.2)] else [] := by
    rw [allAt_inner]
    apply List.flatMap_congr
    rintro ⟨m, rest⟩ hr
    have htext := text_of_mem_base hr
    rw [Slot.inner]
    cases s.closed with
    | false => simp
    | true =>
      cases rest with
      | nil => simp
      | cons c rest =>
        have hc : c ≠ q := by
          rintro rfl
          exact hb (by simp [htext])
        simp [hc]
  rw [Pattern.matchAt, hall, head?_flatMap_find, Slot.split]
  cases s.closed with
  | false =>
    simp only [Bool.not_false, Bool.true_or, Bool.false_eq_true, ↓reduceIte, Option.map_map]
    rfl
  | true => simp

/-- What is found at the start of the parts behind a key. -/
theorem matchAt_join {s : Slot} (h : ∀ it ∈ s.lead ++ s.middle, it.avoids q) {b : Text}
    (hb : q ∉ b) (more : List Text) :
    (s.inner q).matchAt (some q) (join q (b :: more)) =
      if !s.closed || !more.isEmpty then
        (s.split q b).map fun x => (⟨x.1, x.2.1, if s.closed then [q] else []⟩,
          if s.closed then join q more else join q (x.2.2 :: more))
      else none := by
  cases more with
  | nil =>
    rw [join_singleton, matchAt_inner_last hb]
    cases s.closed with
    | false => simp [join_singleton]
    | true => simp
  | cons c more =>
    have hcond : (!s.closed || !(c :: more).isEmpty) = true := by simp
    rw [join_cons_cons, matchAt_inner h hb, if_pos hcond]
    simp only [join_cons_cons]

theorem text_of_split {s : Slot} {b p v r : Text} (h : s.split q b = some (p, v, r)) :
    b = p ++ v ++ r ∧ (s.closed = true → r = []) := by
  obtain ⟨⟨m, rest⟩, hfind, heq⟩ := Option.map_eq_some_iff.mp h
  obtain ⟨rfl, rfl, rfl⟩ : m.before = p ∧ m.middle = v ∧ rest = r := by simpa using heq
  refine ⟨text_of_mem_base (List.mem_of_find?_eq_some hfind), ?_⟩
  intro hclosed
  simpa [hclosed] using List.find?_some hfind

section Split
variable {s : Slot} {b p v r : Text}

/-- What a closed slot replaces is all of the part. -/
theorem split_closed (hclosed : s.closed = true) (hlead : s.lead = []) :
    s.split q b = some (p, v, r) ↔
      p = [] ∧ v = b ∧ r = [] ∧ accepts s.middle (some q) b = true := by
  have hsplit : s.split q b =
      ((runs s.middle (some q) b).find? fun m => m.2.isEmpty).map fun m => ([], m.1, m.2) := by
    have hall : s.base.allAt (some q) b =
        (runs s.middle (some q) b).map fun m => (⟨[], m.1, []⟩, m.2) := by
      simp [Pattern.allAt, Slot.base, hlead, behind_nil, List.map_eq_flatMap]
    rw [Slot.split, hall, List.find?_map, Option.map_map, hclosed]
    rfl
  rw [hsplit, Option.map_eq_some_iff, accepts, List.any_eq_true]
  constructor
  · rintro ⟨⟨w, t⟩, hfind, heq⟩
    obtain ⟨rfl, rfl, rfl⟩ : [] = p ∧ w = v ∧ t = r := by simpa using heq
    have hmem := List.mem_of_find?_eq_some hfind
    have hempty : t.isEmpty = true := by simpa using List.find?_some hfind
    have hnil : t = [] := List.isEmpty_iff.mp hempty
    have hb := append_of_mem_runs hmem
    rw [hnil, List.append_nil] at hb
    exact ⟨rfl, hb.symm, hnil, _, hmem, hempty⟩
  · rintro ⟨rfl, rfl, rfl, ⟨w, t⟩, hmem, ht⟩
    cases hfind : (runs s.middle (some q) v).find? fun m => m.2.isEmpty with
    | none => exact absurd ht (List.find?_eq_none.mp hfind _ hmem)
    | some m =>
      have hb := append_of_mem_runs (List.mem_of_find?_eq_some (a := m) hfind)
      have hnil : m.2 = [] := by simpa using List.find?_some hfind
      rw [hnil, List.append_nil] at hb
      exact ⟨m, rfl, by rw [hnil, ← hb]⟩

theorem runs_lit (text : String) (prev : Option Char) (rest : Text) :
    runs (lit text) prev (text.toList ++ rest) = [(text.toList, rest)] := by
  rw [lit]
  induction text.toList generalizing prev with
  | nil => rfl
  | cons c cs ih =>
    rw [List.map_cons, List.cons_append, runs_one_cons, ih]
    simp [Results.push]

/-- An open slot replaces the first match behind what it leaves. -/
theorem split_open (text : String) (hopen : s.closed = false) (hlead : s.lead = lit text) :
    s.split q b = some (p, v, r) ↔ ∃ b', b = text.toList ++ b' ∧ p = text.toList ∧
      (runs s.middle (behind (some q) text.toList) b').head? = some (v, r) := by
  have hsplit : s.split q b =
      (s.base.allAt (some q) b).head?.map fun r => (r.1.before, r.1.middle, r.2) := by
    rw [Slot.split, hopen]
    cases s.base.allAt (some q) b <;> rfl
  rw [hsplit]
  constructor
  · intro h
    obtain ⟨⟨m, t⟩, hhead, heq⟩ := Option.map_eq_some_iff.mp h
    obtain ⟨rfl, rfl, rfl⟩ : m.before = p ∧ m.middle = v ∧ t = r := by simpa using heq
    have hmem := List.mem_of_head? hhead
    rw [Pattern.allAt, List.mem_flatMap] at hmem
    obtain ⟨⟨w, b'⟩, hw, -⟩ := hmem
    obtain ⟨rfl, haccepts⟩ := mem_runs.mp hw
    rw [Slot.base, hlead] at haccepts
    obtain rfl := accepts_lit.mp haccepts
    rw [Pattern.allAt, Slot.base, hlead, runs_lit] at hhead
    cases hruns : runs s.middle (behind (some q) text.toList) b' with
    | nil => simp [hruns] at hhead
    | cons x rs =>
      obtain ⟨rfl, rfl⟩ : ⟨text.toList, x.1, []⟩ = m ∧ x.2 = t := by simpa [hruns] using hhead
      exact ⟨b', rfl, rfl, by rw [hruns, List.head?_cons]⟩
  · rintro ⟨b', rfl, rfl, hhead⟩
    obtain ⟨rs, hrs⟩ := List.head?_eq_some_iff.mp hhead
    simp [Pattern.allAt, Slot.base, hlead, runs_lit, hrs]

end Split

/-- What a slot finds in the part `b` after `a`. -/
def Slot.hit (q : Char) (s : Slot) (prev : Option Char) (a b : Text) (more : List Text) :
    Option (Text × Text × Text) :=
  if keyAt s.key prev a && (!s.closed || !more.isEmpty) then s.split q b else none

/-- What a slot replaces in the parts after `a`. -/
def Slot.values (q : Char) (s : Slot) : Option Char → Text → List Text → List Text
  | _, _, [] => []
  | prev, a, b :: more =>
    match s.hit q prev a b more with
    | some (_, v, _) => v :: s.values q (some q) b more
    | none => s.values q (some q) b more

/-- The same with where it stands; `n` is where `a` does. -/
def Slot.spans (q : Char) (s : Slot) : ℕ → Option Char → Text → List Text → List (ℕ × Text)
  | _, _, _, [] => []
  | n, prev, a, b :: more =>
    match s.hit q prev a b more with
    | some (p, v, _) =>
      (n + a.length + 1 + p.length, v) :: s.spans q (n + a.length + 1) (some q) b more
    | none => s.spans q (n + a.length + 1) (some q) b more

section Edits
variable {ι : Type*} (q) (slot : ι → Slot) (new : ι → Text)

/-- The part as the first of the slots that finds something in it leaves it. -/
def place (ks : List ι) (prev : Option Char) (a b : Text) (more : List Text) : Text :=
  (ks.findSome? fun k =>
    ((slot k).hit q prev a b more).map fun h => h.1 ++ new k ++ h.2.2).getD b

def edit (ks : List ι) : Option Char → Text → List Text → List Text
  | _, _, [] => []
  | prev, a, b :: more => place q slot new ks prev a b more :: edit ks (some q) b more

end Edits

/-- The parts are looked at through their keys alone. -/
theorem values_congr {s : Slot} {prev prev' : Option Char} {a a' : Text}
    (h : keyAt s.key prev a = keyAt s.key prev' a') (more : List Text) :
    s.values q prev a more = s.values q prev' a' more := by
  cases more with
  | nil => rfl
  | cons b more => rw [Slot.values, Slot.values, Slot.hit, Slot.hit, h]

theorem spans_congr {s : Slot} {n n' : ℕ} {prev prev' : Option Char} {a a' : Text}
    (h : keyAt s.key prev a = keyAt s.key prev' a') (hn : n + a.length = n' + a'.length)
    (more : List Text) : s.spans q n prev a more = s.spans q n' prev' a' more := by
  cases more with
  | nil => rfl
  | cons b more => rw [Slot.spans, Slot.spans, Slot.hit, Slot.hit, h, hn]

section Scan
variable {ι : Type*} {slot : ι → Slot} {new : ι → Text} {k : ι}

theorem place_singleton (prev : Option Char) (a b : Text) (more : List Text) :
    place q slot new [k] prev a b more =
      match (slot k).hit q prev a b more with
      | some (p, _, r) => p ++ new k ++ r
      | none => b := by
  rw [place]
  cases h : (slot k).hit q prev a b more <;> simp [h]

theorem edit_congr {prev prev' : Option Char} {a a' : Text}
    (h : keyAt (slot k).key prev a = keyAt (slot k).key prev' a') (more : List Text) :
    edit q slot new [k] prev a more = edit q slot new [k] prev' a' more := by
  cases more with
  | nil => rfl
  | cons b more => rw [edit, edit, place_singleton, place_singleton, Slot.hit, Slot.hit, h]

theorem render_chars (new u : Text) : (u.map Token.char).flatMap (Token.render new) = u := by
  induction u with
  | nil => rfl
  | cons c u ih => simpa [Token.render] using ih

theorem middles_chars (u : Text) : (u.map Token.char).filterMap Token.middle? = [] := by
  simp [Token.middle?]

theorem spans_chars (n : ℕ) (u : Text) (tokens : List Token) :
    spans n (u.map Token.char ++ tokens) = spans (n + u.length) tokens := by
  induction u generalizing n with
  | nil => rfl
  | cons c u ih =>
    rw [List.map_cons, List.cons_append, spans, ih, List.length_cons]
    congr 1
    omega

/-- A scan replaces in each part what its slot finds there, and nothing else. -/
theorem scan_join (new : ι → Text) (hgood : (slot k).Good q) {parts : List Text} (hparts : ∀ b ∈ parts, q ∉ b)
    {a : Text} (ha : q ∉ a) (prev : Option Char) :
    (scan ((slot k).pattern q) prev 0 (join q (a :: parts))).flatMap (Token.render (new k)) =
        join q (a :: edit q slot new [k] prev a parts) ∧
      (scan ((slot k).pattern q) prev 0 (join q (a :: parts))).filterMap Token.middle? =
        (slot k).values q prev a parts ∧
      ∀ n, spans n (scan ((slot k).pattern q) prev 0 (join q (a :: parts))) =
        (slot k).spans q n prev a parts := by
  induction hn : parts.length using Nat.strongRecOn generalizing parts a prev with
  | ind n ih =>
    cases parts with
    | nil =>
      rw [join_singleton, scan_slot_none ha, render_chars, middles_chars]
      refine ⟨(join_singleton a).symm, rfl, ?_⟩
      intro n
      rw [← List.append_nil (a.map Token.char), spans_chars]
      rfl
    | cons b more =>
      have hb : q ∉ b := hparts b (by simp)
      have hmore : ∀ c ∈ more, q ∉ c := fun c hc => hparts c (by simp [hc])
      have hshort : more.length < n := by simp [← hn]
      rw [join_cons_cons, edit, Slot.values, place_singleton]
      simp only [Slot.spans]
      cases hhit : (slot k).hit q prev a b more with
      | none =>
        have hnone : keyAt (slot k).key prev a = true →
            ((slot k).inner q).matchAt (some q) (join q (b :: more)) = none := by
          intro hkey
          rw [Slot.hit, hkey, Bool.true_and] at hhit
          rw [matchAt_join hgood.inner hb]
          by_cases hcond : (!(slot k).closed || !more.isEmpty) = true
          · rw [if_pos hcond] at hhit ⊢
            rw [hhit, Option.map_none]
          · rw [if_neg hcond]
        have hscan := scan_slot_char hgood.key hgood.nil ha hnone
        obtain ⟨hrender, hmiddles, hspans⟩ := ih _ hshort hmore hb (some q) rfl
        rw [hscan]
        refine ⟨?_, ?_, ?_⟩
        · rw [List.flatMap_append, List.flatMap_cons, render_chars, hrender, join_cons_cons]
          rfl
        · rw [List.filterMap_append, List.filterMap_cons, middles_chars, hmiddles]
          rfl
        · intro n
          rw [spans_chars, spans, hspans]
      | some x =>
        obtain ⟨p, v, r⟩ := x
        rw [Slot.hit] at hhit
        split_ifs at hhit with hcond
        rw [Bool.and_eq_true] at hcond
        obtain ⟨hkey, hopen⟩ := hcond
        obtain ⟨hbtext, hr⟩ := text_of_split hhit
        have hpast := hgood.past b p v r hhit
        have hmatch := matchAt_join hgood.inner hb more
        rw [if_pos hopen, hhit, Option.map_some] at hmatch
        obtain ⟨x, y, hxy, hscan⟩ := scan_slot_found hgood.key hgood.nil ha hkey hmatch
        rw [hscan, List.flatMap_append, List.flatMap_cons, render_chars, List.filterMap_append,
          List.filterMap_cons, middles_chars]
        cases hclosed : (slot k).closed with
        | true =>
          obtain rfl := hr hclosed
          cases more with
          | nil => simp [hclosed] at hopen
          | cons c more =>
            have hc : q ∉ c := hmore c (by simp)
            have hrest : ∀ d ∈ more, q ∉ d := fun d hd => hmore d (by simp [hd])
            have hshorter : more.length < n := by
              rw [List.length_cons] at hshort
              omega
            obtain ⟨hrender, hmiddles, hspans⟩ := ih _ hshorter hrest hc (some q) rfl
            have hcnone : (slot k).hit q (some q) b c more = none := by
              rw [Slot.hit, hpast, hclosed]
              rfl
            have hbehind : behind (some q) (⟨p, v, [q]⟩ : Match).text = some q := by
              simp [behind, Match.text]
            rw [edit, place_singleton, Slot.values, hcnone]
            simp only [↓reduceIte, hbehind]
            refine ⟨?_, ?_, ?_⟩
            · rw [hrender, hxy, join_cons_cons]
              simp [Token.render, join_cons_cons]
            · rw [hmiddles]
              rfl
            · intro n
              have hbefore : n + x.length + (y ++ q :: p).length = n + a.length + 1 + p.length := by
                rw [hxy]
                simp only [List.length_append, List.length_cons]
                omega
              have hbehind : n + x.length + (⟨y ++ q :: p, v, [q]⟩ : Match).text.length =
                  n + a.length + 1 + b.length + 1 := by
                rw [hxy, hbtext]
                simp only [Match.text, List.length_append, List.length_cons, List.length_nil]
                omega
              rw [spans_chars, spans, hspans, Slot.spans, hcnone, hbefore, hbehind]
        | false =>
          have hrq : q ∉ r := fun hq => hb (by simp [hbtext, hq])
          obtain ⟨hrender, hmiddles, hspans⟩ :=
            ih _ hshort hmore hrq (behind (some q) (p ++ v)) rfl
          have hsame : keyAt (slot k).key (behind (some q) (p ++ v)) r =
              keyAt (slot k).key (some q) b := by
            rw [hpast, hclosed]
            rfl
          have hbehind : (⟨p, v, []⟩ : Match).text = p ++ v := List.append_nil _
          rw [edit_congr hsame] at hrender
          rw [values_congr hsame] at hmiddles
          simp only [Bool.false_eq_true, ↓reduceIte, hbehind]
          refine ⟨?_, ?_, ?_⟩
          · rw [hrender, hxy, join_cons_cons, join_append_cons]
            simp [Token.render]
          · rw [hmiddles]
            rfl
          · intro n
            have hbefore : n + x.length + (y ++ q :: p).length = n + a.length + 1 + p.length := by
              rw [hxy]
              simp only [List.length_append, List.length_cons]
              omega
            have hrest : n + x.length + (⟨y ++ q :: p, v, []⟩ : Match).text.length + r.length =
                n + a.length + 1 + b.length := by
              rw [hxy, hbtext]
              simp only [Match.text, List.length_append, List.length_cons, List.length_nil]
              omega
            rw [spans_chars, spans, hspans, hbefore, spans_congr hsame hrest]

end Scan

/-- The parts of a text. -/
theorem parts_of_text (q : Char) (text : Text) :
    ∃ a more, text = join q (a :: more) ∧ q ∉ a ∧ ∀ b ∈ more, q ∉ b := by
  obtain ⟨a, more, hsplit⟩ := List.exists_cons_of_ne_nil (List.splitOn_ne_nil q text)
  have hmem : ∀ b ∈ a :: more, q ∉ b := by
    intro b hb
    rw [← hsplit] at hb
    exact FileTree.notMem_of_mem_splitOn hb
  refine ⟨a, more, ?_, hmem a (by simp), fun b hb => hmem b (by simp [hb])⟩
  rw [join, ← hsplit, List.intercalate_splitOn]

/-- No two keys end one part, and what is put into a slot is found there again and is no key. -/
structure Apart {ι : Type*} (q : Char) (slot : ι → Slot) (new : ι → Text) : Prop where
  good : ∀ k, (slot k).Good q
  exclusive : ∀ k k' prev a, keyAt (slot k).key prev a = true →
    keyAt (slot k').key prev a = true → k = k'
  again : ∀ k b p v r, (slot k).split q b = some (p, v, r) →
    (slot k).split q (p ++ new k ++ r) = some (p, new k, r)
  keys : ∀ k b p v r, (slot k).split q b = some (p, v, r) → ∀ k',
    keyAt (slot k').key (some q) (p ++ new k ++ r) = keyAt (slot k').key (some q) b
  free : ∀ k, q ∉ new k

/-- What is replaced, and what is put in its place, end with a character that no key has: the keys
that end a part are then those behind it. -/
theorem Apart.of_stop {ι : Type*} {slot : ι → Slot} {new : ι → Text} (stop : Char → Prop)
    (key : ∀ k, ∀ it ∈ (slot k).key, it.avoids q)
    (inner : ∀ k, ∀ it ∈ (slot k).lead ++ (slot k).middle, it.avoids q)
    (nil : ∀ k prev, accepts (slot k).key prev [] = false)
    (exclusive : ∀ k k' prev a, keyAt (slot k).key prev a = true →
      keyAt (slot k').key prev a = true → k = k')
    (again : ∀ k b p v r, (slot k).split q b = some (p, v, r) →
      (slot k).split q (p ++ new k ++ r) = some (p, new k, r))
    (free : ∀ k, q ∉ new k) (line : ¬stop '\n')
    (keys : ∀ d, stop d → ∀ k, ∀ it ∈ (slot k).key, it.avoids d)
    (old : ∀ k b p v r, (slot k).split q b = some (p, v, r) → ∃ u d, v = u ++ [d] ∧ stop d)
    (put : ∀ k, ∃ u d, new k = u ++ [d] ∧ stop d) : Apart q slot new := by
  have hpast : ∀ {k : ι} {d : Char}, stop d → ∀ (p u r : Text),
      keyAt (slot k).key (some q) (p ++ (u ++ [d]) ++ r) = keyAt (slot k).key (some d) r := by
    intro k d hd p u r
    have htext : p ++ (u ++ [d]) ++ r = (p ++ u) ++ d :: r := by simp
    rw [htext, keyAt_past (keys d hd k)]
  refine ⟨fun k => ⟨key k, inner k, nil k, ?_⟩, exclusive, again, ?_, free⟩
  · intro b p v r hsplit
    obtain ⟨u, d, rfl, hd⟩ := old k b p v r hsplit
    obtain ⟨rfl, hr⟩ := text_of_split hsplit
    have hbehind : behind (some q) (p ++ (u ++ [d])) = some d := by simp [behind]
    rw [hpast hd, hbehind]
    cases hclosed : (slot k).closed with
    | false => rfl
    | true =>
      rw [hr hclosed, keyAt, nil]
      rfl
  · intro k b p v r hsplit k'
    obtain ⟨u, d, rfl, hd⟩ := old k b p v r hsplit
    obtain ⟨u', d', hnew, hd'⟩ := put k
    obtain ⟨rfl, -⟩ := text_of_split hsplit
    have hline : ∀ {e : Char}, stop e → ¬(some e = none ∨ some e = some '\n') := by
      rintro e he (hnone | heq)
      · cases hnone
      · exact line (Option.some.inj heq ▸ he)
    rw [hnew, hpast hd, hpast hd']
    exact keyAt_prev _ _ (iff_of_false (hline hd') (hline hd))

section Apart
variable {ι : Type*} {slot : ι → Slot} {new : ι → Text} {ks : List ι} {k : ι} {prev : Option Char}
  {a a' b : Text} {more more' : List Text}

theorem place_of_none (h : ∀ k ∈ ks, (slot k).hit q prev a b more = none) :
    place q slot new ks prev a b more = b := by
  rw [place, List.findSome?_eq_none_iff.mpr fun k hk => by rw [h k hk, Option.map_none]]
  rfl

theorem split_of_hit {s : Slot} {x : Text × Text × Text} (h : s.hit q prev a b more = some x) :
    keyAt s.key prev a = true ∧ s.split q b = some x := by
  rw [Slot.hit] at h
  split_ifs at h with hcond
  rw [Bool.and_eq_true] at hcond
  exact ⟨hcond.1, h⟩

variable (h : Apart q slot new)
include h

theorem hit_exclusive {k' : ι} (hkey : keyAt (slot k).key prev a = true) (hne : k' ≠ k) :
    (slot k').hit q prev a b more = none := by
  cases hhit : (slot k').hit q prev a b more with
  | none => rfl
  | some x => exact absurd (h.exclusive _ _ _ _ (split_of_hit hhit).1 hkey) hne

theorem place_of_hit {p v r : Text} (hk : k ∈ ks)
    (hhit : (slot k).hit q prev a b more = some (p, v, r)) :
    place q slot new ks prev a b more = p ++ new k ++ r := by
  have hothers : ∀ k' ∈ ks, ((slot k').hit q prev a b more).map (fun x => x.1 ++ new k' ++ x.2.2) =
      none ∨ ((slot k').hit q prev a b more).map (fun x => x.1 ++ new k' ++ x.2.2) =
        some (p ++ new k ++ r) := by
    intro k' hk'
    by_cases heq : k' = k
    · subst heq
      exact .inr (by rw [hhit, Option.map_some])
    · exact .inl (by rw [hit_exclusive h (split_of_hit hhit).1 heq, Option.map_none])
  rw [place]
  cases hfind : ks.findSome? fun k' =>
      ((slot k').hit q prev a b more).map fun x => x.1 ++ new k' ++ x.2.2 with
  | none =>
    have := List.findSome?_eq_none_iff.mp hfind k hk
    rw [hhit] at this
    cases this
  | some u =>
    obtain ⟨k', hk', hu⟩ := List.exists_of_findSome?_eq_some hfind
    rcases hothers k' hk' with hnone | hsome
    · rw [hnone] at hu
      cases hu
    · rw [hsome] at hu
      exact (Option.some.inj hu).symm

/-- A part stays, or one slot finds something in it. -/
theorem place_cases (ks : List ι) (prev : Option Char) (a b : Text) (more : List Text) :
    place q slot new ks prev a b more = b ∨
    ∃ k ∈ ks, ∃ p v r, (slot k).hit q prev a b more = some (p, v, r) ∧
      place q slot new ks prev a b more = p ++ new k ++ r := by
  by_cases hall : ∀ k ∈ ks, (slot k).hit q prev a b more = none
  · exact .inl (place_of_none hall)
  · obtain ⟨k, hk⟩ := not_forall.mp hall
    obtain ⟨hk, hsome⟩ := Classical.not_imp.mp hk
    obtain ⟨⟨p, v, r⟩, hhit⟩ := Option.ne_none_iff_exists'.mp hsome
    exact .inr ⟨k, hk, p, v, r, hhit, place_of_hit h hk hhit⟩

theorem keyAt_place (k : ι) :
    keyAt (slot k).key (some q) (place q slot new ks prev a b more) =
      keyAt (slot k).key (some q) b := by
  rcases place_cases h ks prev a b more with heq | ⟨k', -, p, v, r, hhit, heq⟩
  · rw [heq]
  · rw [heq, h.keys k' b p v r (split_of_hit hhit).2]

/-- A slot finds in an edited part what it found in the part, or what was put there. -/
theorem hit_place (hkey : keyAt (slot k).key prev a' = keyAt (slot k).key prev a)
    (hmore : more'.isEmpty = more.isEmpty) [DecidableEq ι] :
    (slot k).hit q prev a' (place q slot new ks prev a b more) more' =
      ((slot k).hit q prev a b more).map fun x => if k ∈ ks then (x.1, new k, x.2.2) else x := by
  cases hhit : (slot k).hit q prev a b more with
  | some x =>
    obtain ⟨p, v, r⟩ := x
    have hsplit := (split_of_hit hhit).2
    have hcond : (keyAt (slot k).key prev a' && (!(slot k).closed || !more'.isEmpty)) = true := by
      rw [hkey, hmore]
      by_contra hfalse
      rw [Slot.hit, if_neg hfalse] at hhit
      cases hhit
    rw [Slot.hit, if_pos hcond, Option.map_some]
    by_cases hk : k ∈ ks
    · rw [place_of_hit h hk hhit, if_pos hk, h.again k b p v r hsplit]
    · have hnone : ∀ k' ∈ ks, (slot k').hit q prev a b more = none :=
        fun k' hk' => hit_exclusive h (split_of_hit hhit).1 fun heq => hk (heq ▸ hk')
      rw [place_of_none hnone, if_neg hk, hsplit]
  | none =>
    rw [Slot.hit, hkey, hmore, Option.map_none]
    split_ifs with hcond
    · have hsplit : (slot k).split q b = none := by rwa [Slot.hit, if_pos hcond] at hhit
      rw [Bool.and_eq_true] at hcond
      have hnone : ∀ k' ∈ ks, (slot k').hit q prev a b more = none := by
        intro k' hk'
        by_cases heq : k' = k
        · rw [heq, hhit]
        · exact hit_exclusive h hcond.1 heq
      rw [place_of_none hnone, hsplit]
    · rfl

omit h in
theorem isEmpty_edit : (edit q slot new ks prev a more).isEmpty = more.isEmpty := by
  cases more <;> rfl

theorem values_edit [DecidableEq ι]
    (hkey : keyAt (slot k).key prev a' = keyAt (slot k).key prev a) :
    (slot k).values q prev a' (edit q slot new ks prev a more) =
      ((slot k).values q prev a more).map fun v => if k ∈ ks then new k else v := by
  induction more generalizing prev a a' with
  | nil => rfl
  | cons b more ih =>
    rw [edit, Slot.values, Slot.values, hit_place h hkey isEmpty_edit, ih (keyAt_place h k)]
    cases (slot k).hit q prev a b more with
    | none => rfl
    | some x =>
      rw [Option.map_some]
      split_ifs <;> simp_all

theorem edit_edit [DecidableEq ι] {ks' : List ι}
    (hkey : ∀ k, keyAt (slot k).key prev a' = keyAt (slot k).key prev a) :
    edit q slot new ks' prev a' (edit q slot new ks prev a more) =
      edit q slot new (ks ++ ks') prev a more := by
  induction more generalizing prev a a' with
  | nil => rfl
  | cons b more ih =>
    rw [edit, edit, edit, ih fun k => keyAt_place h k]
    congr 1
    have hhit : ∀ k, (slot k).hit q prev a' (place q slot new ks prev a b more)
        (edit q slot new ks (some q) b more) =
          ((slot k).hit q prev a b more).map fun x => if k ∈ ks then (x.1, new k, x.2.2) else x :=
      fun k => hit_place h (hkey k) isEmpty_edit
    by_cases hall : ∀ k ∈ ks ++ ks', (slot k).hit q prev a b more = none
    · have hks : ∀ k ∈ ks, (slot k).hit q prev a b more = none := fun k hk => hall k (by simp [hk])
      have hks' : ∀ k ∈ ks', (slot k).hit q prev a' (place q slot new ks prev a b more)
          (edit q slot new ks (some q) b more) = none := by
        intro k hk
        rw [hhit, hall k (by simp [hk]), Option.map_none]
      rw [place_of_none hks', place_of_none hks, place_of_none hall]
    · obtain ⟨k, hk⟩ := not_forall.mp hall
      obtain ⟨hk, hsome⟩ := Classical.not_imp.mp hk
      obtain ⟨⟨p, v, r⟩, hx⟩ := Option.ne_none_iff_exists'.mp hsome
      rw [place_of_hit h hk hx]
      by_cases hk' : k ∈ ks'
      · have hx' := hhit k
        rw [hx, Option.map_some] at hx'
        split_ifs at hx'
        · exact place_of_hit h hk' hx'
        · exact place_of_hit h hk' hx'
      · have hks' : ∀ k' ∈ ks', (slot k').hit q prev a' (place q slot new ks prev a b more)
            (edit q slot new ks (some q) b more) = none := by
          intro k' hmem
          have hne : k' ≠ k := fun heq => hk' (heq ▸ hmem)
          rw [hhit, hit_exclusive h (split_of_hit hx).1 hne, Option.map_none]
        rw [place_of_none hks', place_of_hit h ((List.mem_append.mp hk).resolve_right hk') hx]

/-- Where the slots already have what is put into them, nothing changes. -/
theorem edit_eq_self (hnew : ∀ k ∈ ks, ∀ v ∈ (slot k).values q prev a more, v = new k) :
    edit q slot new ks prev a more = more := by
  induction more generalizing prev a with
  | nil => rfl
  | cons b more ih =>
    rw [edit]
    congr 1
    · rcases place_cases h ks prev a b more with heq | ⟨k, hk, p, v, r, hx, heq⟩
      · exact heq
      · have hv : v = new k := hnew k hk v (by rw [Slot.values, hx]; simp)
        rw [heq, ← hv, ← (text_of_split (split_of_hit hx).2).1]
    · apply ih
      intro k hk v hv
      apply hnew k hk v
      rw [Slot.values]
      split
      · exact List.mem_cons_of_mem _ hv
      · exact hv

theorem free_edit (hmore : ∀ b ∈ more, q ∉ b) :
    ∀ b ∈ edit q slot new ks prev a more, q ∉ b := by
  induction more generalizing prev a with
  | nil => exact hmore
  | cons b more ih =>
    intro c hc
    have hb : q ∉ b := hmore b (by simp)
    rcases List.mem_cons.mp hc with rfl | hc
    · rcases place_cases h ks prev a b more with heq | ⟨k, -, p, v, r, hx, heq⟩
      · rwa [heq]
      · rw [(text_of_split (split_of_hit hx).2).1] at hb
        rw [heq]
        simp only [List.mem_append, not_or] at hb ⊢
        exact ⟨⟨hb.1.1, h.free k⟩, hb.2⟩
    · exact ih (fun d hd => hmore d (by simp [hd])) c hc

end Apart

/-- A stretch of a text that stays, or one in which something is replaced. -/
inductive Piece (ι : Type*)
  | kept (u : Text)
  | spot (k : ι) (old : Text)

namespace Piece
variable {ι : Type*}

def old : Piece ι → Text
  | kept u => u
  | spot _ v => v

def new (new : ι → Text) : Piece ι → Text
  | kept u => u
  | spot k _ => new k

/-- Where something is put in for `k`, and what was there; `n` is where the first piece stands. -/
def spans [DecidableEq ι] (k : ι) : ℕ → List (Piece ι) → List (ℕ × Text)
  | _, [] => []
  | n, kept u :: pieces => spans k (n + u.length) pieces
  | n, spot k' v :: pieces =>
    if k' = k then (n, v) :: spans k (n + v.length) pieces else spans k (n + v.length) pieces

end Piece

/-- The second text is the first with what the patterns match in it replaced, where they match it,
and nothing else. -/
def Replaces {ι : Type*} [DecidableEq ι] (pattern : ι → Pattern) (new : ι → Text)
    (text text' : Text) : Prop :=
  ∃ pieces : List (Piece ι), text = pieces.flatMap Piece.old ∧
    text' = pieces.flatMap (Piece.new new) ∧
      ∀ k, Piece.spans k 0 pieces = (pattern k).spans text

theorem join_cons (a : Text) (more : List Text) :
    join q (a :: more) = a ++ more.flatMap (q :: ·) := by
  induction more generalizing a with
  | nil => rw [join_singleton, List.flatMap_nil, List.append_nil]
  | cons b more ih => rw [join_cons_cons, ih, List.flatMap_cons, List.cons_append]

section Texts
variable {ι : Type*} [DecidableEq ι] {slot : ι → Slot} {new : ι → Text} {a : Text}
  {more : List Text} (h : Apart q slot new)
include h

theorem exists_pieces {ks : List ι} (hall : ∀ k, k ∈ ks) (prev : Option Char) (a : Text)
    (more : List Text) : ∃ pieces : List (Piece ι),
      more.flatMap (q :: ·) = pieces.flatMap Piece.old ∧
      (edit q slot new ks prev a more).flatMap (q :: ·) = pieces.flatMap (Piece.new new) ∧
      ∀ k n, Piece.spans k (n + a.length) pieces = (slot k).spans q n prev a more := by
  induction more generalizing prev a with
  | nil => exact ⟨[], rfl, rfl, fun _ _ => rfl⟩
  | cons b more ih =>
    obtain ⟨pieces, hold, hnew, hspans⟩ := ih (some q) b
    by_cases hnone : ∀ k ∈ ks, (slot k).hit q prev a b more = none
    · refine ⟨.kept (q :: b) :: pieces, ?_, ?_, ?_⟩
      · rw [List.flatMap_cons, List.flatMap_cons, hold]
        rfl
      · rw [edit, place_of_none hnone, List.flatMap_cons, List.flatMap_cons, hnew]
        rfl
      · intro k n
        rw [Slot.spans, hnone k (hall k), Piece.spans, ← hspans k (n + a.length + 1), List.length_cons]
        congr 1
        omega
    · obtain ⟨k, hk⟩ := not_forall.mp hnone
      obtain ⟨hk, hsome⟩ := Classical.not_imp.mp hk
      obtain ⟨⟨p, v, r⟩, hx⟩ := Option.ne_none_iff_exists'.mp hsome
      have hb := (text_of_split (split_of_hit hx).2).1
      refine ⟨.kept (q :: p) :: .spot k v :: .kept r :: pieces, ?_, ?_, ?_⟩
      · rw [List.flatMap_cons, hold, hb]
        simp [Piece.old]
      · rw [edit, place_of_hit h hk hx, List.flatMap_cons, hnew]
        simp [Piece.new]
      · intro k' n
        have hat : n + a.length + (q :: p).length = n + a.length + 1 + p.length := by
          rw [List.length_cons]
          omega
        have hend : n + a.length + 1 + p.length + v.length + r.length =
            n + a.length + 1 + b.length := by
          rw [hb, List.length_append, List.length_append]
          omega
        rw [Slot.spans, Piece.spans, Piece.spans, Piece.spans, hat, hend, hspans]
        by_cases heq : k = k'
        · subst heq
          rw [if_pos rfl, hx]
        · rw [if_neg heq, hit_exclusive h (split_of_hit hx).1 (Ne.symm heq)]

omit [DecidableEq ι] in
theorem found_join (ha : q ∉ a) (hmore : ∀ b ∈ more, q ∉ b) (k : ι) :
    ((slot k).pattern q).found (join q (a :: more)) = (slot k).values q none a more :=
  (scan_join new (h.good k) hmore ha none).2.1

omit [DecidableEq ι] in
theorem subn_join (ha : q ∉ a) (hmore : ∀ b ∈ more, q ∉ b) (k : ι) :
    ((slot k).pattern q).subn (new k) (join q (a :: more)) =
      (join q (a :: edit q slot new [k] none a more), ((slot k).values q none a more).length) := by
  rw [Pattern.subn, found_join h ha hmore, (scan_join new (h.good k) hmore ha none).1]

theorem replaces_edit {ks : List ι} (hall : ∀ k, k ∈ ks) (ha : q ∉ a) (hmore : ∀ b ∈ more, q ∉ b) :
    Replaces (fun k => (slot k).pattern q) new (join q (a :: more))
      (join q (a :: edit q slot new ks none a more)) := by
  obtain ⟨pieces, hold, hnew, hspans⟩ := exists_pieces h hall none a more
  refine ⟨.kept a :: pieces, ?_, ?_, ?_⟩
  · rw [join_cons, hold]
    rfl
  · rw [join_cons, hnew]
    rfl
  · intro k
    rw [Pattern.spans, (scan_join new (h.good k) hmore ha none).2.2, Piece.spans, hspans]

end Texts

/-- `re.subn`, refused where there is not exactly one match. -/
def Pattern.once {ε : Type*} (P : Pattern) (new : Text) (refuse : ℕ → ε) (text : Text) :
    Except ε Text :=
  let (text, n) := P.subn new text
  if n ≠ 1 then .error (refuse n) else .ok text

section Once
variable {ι : Type*} [DecidableEq ι] {slot : ι → Slot} {new : ι → Text} {a : Text}
  {more : List Text} (h : Apart q slot new) {ε : Type*} (refuse : ι → ℕ → ε)
include h

theorem once_join {ks : List ι} (ha : q ∉ a) (hmore : ∀ b ∈ more, q ∉ b) (k : ι) :
    ((slot k).pattern q).once (new k) (refuse k) (join q (a :: edit q slot new ks none a more)) =
      if ((slot k).values q none a more).length = 1 then
        .ok (join q (a :: edit q slot new (ks ++ [k]) none a more))
      else .error (refuse k ((slot k).values q none a more).length) := by
  rw [Pattern.once, subn_join h ha (free_edit h hmore), edit_edit h fun _ => rfl,
    values_edit h rfl, List.length_map]
  split_ifs <;> simp_all

theorem foldlM_once (ha : q ∉ a) (hmore : ∀ b ∈ more, q ∉ b) (ks done : List ι) {text' : Text} :
    ks.foldlM (fun text k => ((slot k).pattern q).once (new k) (refuse k) text)
        (join q (a :: edit q slot new done none a more)) = .ok text' ↔
      (∀ k ∈ ks, ((slot k).values q none a more).length = 1) ∧
        text' = join q (a :: edit q slot new (done ++ ks) none a more) := by
  induction ks generalizing done with
  | nil =>
    rw [List.foldlM_nil, List.append_nil]
    constructor
    · intro heq
      exact ⟨by simp, (Except.ok.inj heq).symm⟩
    · rintro ⟨-, rfl⟩
      rfl
  | cons k ks ih =>
    rw [List.foldlM_cons, once_join h refuse ha hmore]
    split_ifs with hlen
    · refine Iff.trans (ih (done ++ [k])) ?_
      rw [List.append_assoc, List.singleton_append, List.forall_mem_cons]
      simp [hlen]
    · constructor
      · intro heq
        cases heq
      · rintro ⟨hall, -⟩
        exact absurd (hall k (by simp)) hlen

variable {ks : List ι} {text text' : Text}

/-- The substitutions are made where each of the patterns has exactly one match in the text as it
was. -/
theorem once_iff (hall : ∀ k, k ∈ ks) :
    (∃ text', ks.foldlM (fun text k => ((slot k).pattern q).once (new k) (refuse k) text) text =
        .ok text') ↔ ∀ k, (((slot k).pattern q).found text).length = 1 := by
  obtain ⟨a, more, rfl, ha, hmore⟩ := parts_of_text q text
  have hstart : edit q slot new [] none a more = more := edit_eq_self h (by simp)
  simp only [found_join h ha hmore]
  constructor
  · rintro ⟨text', htext⟩ k
    rw [← hstart] at htext
    exact ((foldlM_once h refuse ha hmore ks []).mp htext).1 k (hall k)
  · intro hlen
    refine ⟨join q (a :: edit q slot new ([] ++ ks) none a more), ?_⟩
    have := (foldlM_once h refuse ha hmore ks []).mpr ⟨fun k _ => hlen k, rfl⟩
    rwa [hstart] at this

/-- Then each pattern finds what was put in, only matches have changed, and the same substitutions
change nothing more. -/
theorem found_of_once (hall : ∀ k, k ∈ ks)
    (htext : ks.foldlM (fun text k => ((slot k).pattern q).once (new k) (refuse k) text) text =
      .ok text') :
    (∀ k, ((slot k).pattern q).found text' = [new k]) ∧
      Replaces (fun k => (slot k).pattern q) new text text' ∧
      ks.foldlM (fun text k => ((slot k).pattern q).once (new k) (refuse k) text) text' =
        .ok text' := by
  obtain ⟨a, more, rfl, ha, hmore⟩ := parts_of_text q text
  have hstart : edit q slot new [] none a more = more := edit_eq_self h (by simp)
  rw [← hstart] at htext
  obtain ⟨hlen, rfl⟩ := (foldlM_once h refuse ha hmore ks []).mp htext
  have hfree : ∀ b ∈ edit q slot new ks none a more, q ∉ b := free_edit h hmore
  rw [List.nil_append]
  have hfound : ∀ k, ((slot k).pattern q).found (join q (a :: edit q slot new ks none a more)) =
      [new k] := by
    intro k
    obtain ⟨v, hv⟩ := List.length_eq_one_iff.mp (hlen k (hall k))
    rw [found_join h ha hfree, values_edit h rfl, hv]
    simp [hall k]
  refine ⟨hfound, replaces_edit h hall ha hmore, ?_⟩
  have hvalues : ∀ k, (slot k).values q none a (edit q slot new ks none a more) = [new k] := by
    intro k
    rw [← found_join h ha hfree]
    exact hfound k
  have hagain : ∀ ks', edit q slot new ks' none a (edit q slot new ks none a more) =
      edit q slot new ks none a more :=
    fun ks' => edit_eq_self h (by simp [hvalues])
  have := (foldlM_once h refuse ha hfree ks []).mpr
    ⟨fun k _ => by rw [hvalues, List.length_singleton], rfl⟩
  rwa [hagain, hagain] at this

end Once

end PurdueAF.PatternScan
