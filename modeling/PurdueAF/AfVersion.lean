import PurdueAF.PatternEdits
import PurdueAF.PyJson

/-!
# Moving production to another AF version

`bump-af-version.py` reads the version that production runs from values.yaml and puts another in
its place in five spots there and in one of the pixi-global-sync deployment. A file is the text
of its characters; the files are read before anything is written. `repr` is Python's.
-/
namespace PurdueAF.AfVersion
open PatternScan Py

inductive Stop
  | exit (message : String)
  | raised (e : Exc)
  | keyError
  deriving DecidableEq

abbrev digit (c : Char) : Bool := (digit? c).isSome

/-- `\d+` -/
def number : List Item := [.one digit, .many digit]

/-- `VERSION_RE` -/
def version : List Item := number ++ lit "." ++ number ++ lit "." ++ number

/-- A text that `re` puts in as it is. -/
structure Registry where
  text : Text
  plain : '\\' ∉ text

def defaultRegistry : Registry :=
  ⟨"geddes2-registry.rcac.purdue.edu/ghcr-proxy-cache/purdueaf/purdue-af".toList, by decide⟩

inductive Kind
  | patch | minor | major

/-- An integer in an f-string. -/
def strOfInt (n : ℤ) : Except Exc String :=
  if maxDigits < (toString n.natAbs).length then .error .valueError else .ok (toString n)

/-- Integers with dots between them. -/
def dotted (ns : List ℤ) : Except Exc Text := do
  let texts ← ns.mapM strOfInt
  return (".".intercalate texts).toList

/-- The three versions are made before one is taken. -/
def bumpVersion (cur : Text) (kind : Option Kind) : Except Stop Text := do
  let ns ← ((cur.splitOn '.').mapM fun part => intOfText (String.ofList part)).mapError .raised
  match ns with
  | [major, minor, patch] => do
    let ofMajor ← (dotted [major + 1, 0, 0]).mapError .raised
    let ofMinor ← (dotted [major, minor + 1, 0]).mapError .raised
    let ofPatch ← (dotted [major, minor, patch + 1]).mapError .raised
    match kind with
    | some .major => return ofMajor
    | some .minor => return ofMinor
    | some .patch => return ofPatch
    | none => throw .keyError
  | _ => throw (.raised .valueError)

inductive Spot
  | name | tag | label | display | image
  deriving DecidableEq

namespace Spot

def what : Spot → String
  | name => "singleuser image name"
  | tag => "singleuser image tag"
  | label => "docker_image_tag pod label"
  | display => "production profile display name"
  | image => "production profile image"

def slot : Spot → Slot
  -- (?m)^(\s*name: ")[^"]*/purdue-af(")
  | name => ⟨.lineStart :: .many isSpace :: lit "name: ", [],
      .many (· ≠ '"') :: lit "/purdue-af", true⟩
  -- (?m)^(\s*tag: ")VERSION_RE(")
  | tag => ⟨.lineStart :: .many isSpace :: lit "tag: ", [], version, true⟩
  -- (docker_image_tag: ")VERSION_RE(")
  | label => ⟨lit "docker_image_tag: ", [], version, true⟩
  -- (display_name: "Purdue AF )VERSION_RE
  | display => ⟨lit "display_name: ", lit "Purdue AF ", version, false⟩
  -- (image: ")[^"]*/purdue-af:VERSION_RE(")
  | image => ⟨lit "image: ", [], .many (· ≠ '"') :: (lit "/purdue-af:" ++ version), true⟩

def pattern (spot : Spot) : Pattern := spot.slot.pattern '"'

def new (newVersion : Text) (registry : Registry) : Spot → Text
  | name => registry.text
  | tag | label | display => newVersion
  | image => registry.text ++ ':' :: newVersion

def refuse (spot : Spot) (n : ℕ) : Stop :=
  .exit s!"expected exactly 1 match for {spot.what}, found {n} — values.yaml layout changed; update bump-af-version.py"

end Spot

/-- In the order of `subs`. -/
def spots : List Spot := [.name, .tag, .label, .display, .image]

/-- `re.search` is the first match of those that `re.subn` replaces for the label. -/
def currentVersion (text : Text) : Except Stop Text :=
  match (Spot.label.pattern.found text).head? with
  | some cur => .ok cur
  | none => .error (.exit "cannot find docker_image_tag in values.yaml — layout changed?")

def apply (text newVersion : Text) (registry : Registry) : Except Stop Text :=
  spots.foldlM (fun text spot => spot.pattern.once (spot.new newVersion registry) spot.refuse text) text

-- (image: )[^\s"]*/purdue-af:VERSION_RE
def syncSlot : Slot :=
  ⟨lit "image:", [], .many (fun c => !isSpace c && c ≠ '"') :: (lit "/purdue-af:" ++ version), false⟩

def syncPattern : Pattern := syncSlot.pattern ' '

def syncNew (newVersion : Text) (registry : Registry) : Text := registry.text ++ ':' :: newVersion

def refuseSync (n : ℕ) : Stop :=
  .exit s!"expected exactly 1 purdue-af image in the pixi-global-sync deployment, found {n} — update bump-af-version.py"

def applySync (text newVersion : Text) (registry : Registry) : Except Stop Text :=
  syncPattern.once (syncNew newVersion registry) refuseSync text

structure Files where
  values : Text
  sync : Text
  deriving DecidableEq

/-- `read_text` takes each end of a line for `\n`. -/
def readText : Text → Text
  | [] => []
  | '\r' :: '\n' :: text => '\n' :: readText text
  | '\r' :: text => '\n' :: readText text
  | c :: text => c :: readText text

theorem readText_cons {c : Char} (hc : c ≠ '\r') (text : Text) :
    readText (c :: text) = c :: readText text := by
  rw [readText]
  · exact fun _ heq => absurd heq hc
  · exact hc

theorem readText_free (text : Text) : '\r' ∉ readText text := by
  induction text using readText.induct with
  | case1 => simp [readText]
  | case2 text ih => simpa [readText] using ih
  | case3 text hne ih =>
    rw [readText]
    · simpa using ih
    · exact hne
  | case4 c text hne hc ih =>
    have hret : c ≠ '\r' := fun heq => hc heq
    rw [readText_cons hret]
    simpa [hret.symm] using ih

theorem readText_eq_self {text : Text} (h : '\r' ∉ text) : readText text = text := by
  induction text with
  | nil => rfl
  | cons c text ih =>
    have hc : c ≠ '\r' := fun heq => h (by simp [heq])
    rw [readText_cons hc, ih fun hmem => h (by simp [hmem])]

inductive Wanted
  | bump (kind : Kind)
  | set (explicit : Text)

inductive Request
  | printCurrent
  | release (wanted : Wanted)

section Main
variable (repr : Text → String)

/-- The branch of `--set` is taken where its text is not empty. -/
def newVersion (cur : Text) : Wanted → Except Stop Text
  | .bump kind => bumpVersion cur (some kind)
  | .set [] => bumpVersion cur none
  | .set explicit =>
    if accepts version none explicit then .ok explicit
    else .error (.exit s!"--set expects X.Y.Z, got {repr explicit}")

/-- What is printed. -/
def main (registry : Registry) (request : Request) (dryRun : Bool) :
    ExceptT Stop (StateM Files) Text := do
  let text := readText (← get).values
  let cur ← currentVersion text
  match request with
  | .printCurrent => return cur
  | .release wanted =>
    let new ← newVersion repr cur wanted
    let updated ← apply text new registry
    let syncUpdated ← applySync (readText (← get).sync) new registry
    if !dryRun then
      modify fun files => { files with values := updated }
      modify fun files => { files with sync := syncUpdated }
    return new

end Main

def IsNumber (w : Text) : Prop := w ≠ [] ∧ ∀ c ∈ w, digit c = true

def value (w : Text) : ℕ := natOf (w.filterMap digit?)

/-- A version as numbers. -/
def numbers (w : Text) : List ℕ := (w.splitOn '.').map value

theorem isSpace_of_digit {c : Char} (h : digit c = true) : isSpace c = false := by
  obtain ⟨n, hn⟩ := Option.isSome_iff_exists.mp h
  obtain ⟨z, hfind, -⟩ := Option.map_eq_some_iff.mp hn
  have hz := List.mem_of_find?_eq_some hfind
  have hrange := List.find?_some hfind
  rw [Bool.and_eq_true, decide_eq_true_eq, decide_eq_true_eq] at hrange
  -- the blanks lie between the digits
  have hgaps : ∀ z ∈ zeros, (32 < z ∧ z + 10 ≤ 0x85) ∨ (0xa0 < z ∧ z + 10 ≤ 0x1680) ∨
      (0x1680 < z ∧ z + 10 ≤ 0x2000) ∨ 0x3000 < z := by decide
  have hgap := hgaps z hz
  simp only [isSpace, Bool.or_eq_false_iff, Bool.and_eq_false_iff, decide_eq_false_iff_not]
  omega

theorem ne_of_digit {c d : Char} (h : digit c = true) (hd : digit d = false) : c ≠ d := by
  rintro rfl
  rw [h] at hd
  cases hd

theorem notMem_of_isNumber {w : Text} {d : Char} (h : IsNumber w) (hd : digit d = false) : d ∉ w :=
  fun hmem => ne_of_digit (h.2 d hmem) hd rfl

theorem accepts_number {prev : Option Char} {w : Text} :
    accepts number prev w = true ↔ IsNumber w := by
  rw [number, accepts_one]
  constructor
  · rintro ⟨c, v, rfl, hc, hv⟩
    obtain ⟨u, v, rfl, hu, hv⟩ := accepts_many.mp hv
    obtain rfl := accepts_nil.mp hv
    refine ⟨by simp, ?_⟩
    simpa [hc] using hu
  · rintro ⟨hne, hall⟩
    obtain ⟨c, v, rfl⟩ := List.exists_cons_of_ne_nil hne
    refine ⟨c, v, rfl, hall c (by simp), accepts_many.mpr ⟨v, [], by simp, ?_, accepts_nil.mpr rfl⟩⟩
    exact fun d hd => hall d (by simp [hd])

theorem accepts_version {prev : Option Char} {w : Text} :
    accepts version prev w = true ↔
      ∃ a b c, IsNumber a ∧ IsNumber b ∧ IsNumber c ∧ w = join '.' [a, b, c] := by
  have hdot : ".".toList = ['.'] := by decide
  constructor
  · intro h
    obtain ⟨w, c, rfl, hw, hc⟩ := accepts_append.mp h
    obtain ⟨w, d, rfl, hw, hd⟩ := accepts_append.mp hw
    obtain ⟨w, b, rfl, hw, hb⟩ := accepts_append.mp hw
    obtain ⟨a, d', rfl, ha, hd'⟩ := accepts_append.mp hw
    obtain rfl := accepts_lit.mp hd
    obtain rfl := accepts_lit.mp hd'
    refine ⟨a, b, c, accepts_number.mp ha, accepts_number.mp hb, accepts_number.mp hc, ?_⟩
    simp [hdot, join_cons_cons, join_singleton]
  · rintro ⟨a, b, c, ha, hb, hc, rfl⟩
    have htext : join '.' [a, b, c] = a ++ ".".toList ++ b ++ ".".toList ++ c := by
      simp [hdot, join_cons_cons, join_singleton]
    rw [htext]
    have hmajor : accepts (number ++ lit ".") prev (a ++ ".".toList) = true :=
      accepts_append.mpr ⟨a, _, rfl, accepts_number.mpr ha, accepts_lit.mpr rfl⟩
    have hminor := accepts_append.mpr ⟨_, b, rfl, hmajor, accepts_number.mpr hb⟩
    have hdots : accepts (number ++ lit "." ++ number ++ lit ".") prev
        (a ++ ".".toList ++ b ++ ".".toList) = true :=
      accepts_append.mpr ⟨_, _, rfl, hminor, accepts_lit.mpr rfl⟩
    exact accepts_append.mpr ⟨_, c, rfl, hdots, accepts_number.mpr hc⟩

theorem splitOn_join {ws : List Text} (hne : ws ≠ []) (h : ∀ w ∈ ws, IsNumber w) :
    (join '.' ws).splitOn '.' = ws :=
  List.splitOn_intercalate '.' (fun w hw => notMem_of_isNumber (h w hw) (by decide)) hne

theorem takeWhile_number {w x : Text} (hw : ∀ c ∈ w, digit c = true)
    (hx : ∀ c ∈ x.head?, digit c = false) : (w ++ x).takeWhile digit = w := by
  rw [List.takeWhile_append_of_pos hw]
  cases x with
  | nil => simp
  | cons c x => rw [List.takeWhile_cons_of_neg (by simp [hx c rfl]), List.append_nil]

/-- A number ends where its digits end. -/
theorem append_number_inj {w w' x x' : Text} (hw : IsNumber w) (hw' : IsNumber w')
    (hx : ∀ c ∈ x.head?, digit c = false) (hx' : ∀ c ∈ x'.head?, digit c = false)
    (h : w ++ x = w' ++ x') : w = w' ∧ x = x' := by
  have hsame : w = w' := by
    rw [← takeWhile_number hw.2 hx, h, takeWhile_number hw'.2 hx']
  subst hsame
  exact ⟨rfl, List.append_cancel_left h⟩

theorem append_version_inj {prev prev' : Option Char} {v v' r r' : Text}
    (hv : accepts version prev v = true) (hv' : accepts version prev' v' = true)
    (hr : ∀ c ∈ r.head?, digit c = false) (hr' : ∀ c ∈ r'.head?, digit c = false)
    (h : v ++ r = v' ++ r') : v = v' ∧ r = r' := by
  obtain ⟨a, b, c, ha, hb, hc, rfl⟩ := accepts_version.mp hv
  obtain ⟨a', b', c', ha', hb', hc', rfl⟩ := accepts_version.mp hv'
  have hdot : ∀ (x : Text), ∀ d ∈ ('.' :: x).head?, digit d = false := by
    rintro x d hd
    obtain rfl := Option.some.inj hd
    decide
  simp only [join_cons_cons, join_singleton, List.append_assoc, List.cons_append] at h
  obtain ⟨rfl, hbtext⟩ := append_number_inj ha ha' (hdot _) (hdot _) h
  obtain ⟨rfl, hctext⟩ := append_number_inj hb hb' (hdot _) (hdot _) (List.cons.inj hbtext).2
  obtain ⟨rfl, rfl⟩ := append_number_inj hc hc' hr hr' (List.cons.inj hctext).2
  exact ⟨rfl, rfl⟩

/-- The first match of a version takes all of its digits. -/
theorem head?_version {prev : Option Char} {t v r : Text} :
    (runs version prev t).head? = some (v, r) ↔
      t = v ++ r ∧ accepts version prev v = true ∧ ∀ c ∈ r.head?, digit c = false := by
  have htail : ∀ {v r : Text}, (runs version prev t).head? = some (v, r) →
      t = v ++ r ∧ accepts version prev v = true ∧ ∀ c ∈ r.head?, digit c = false := by
    intro v r h
    obtain ⟨htext, hacc⟩ := mem_runs.mp (List.mem_of_head? h)
    have hitems : version = (number ++ lit "." ++ number ++ lit "." ++ [.one digit]) ++
        [.many digit] := by simp [version, number]
    rw [hitems] at h
    exact ⟨htext, hacc, head_not_of_tail h⟩
  refine ⟨htail, ?_⟩
  rintro ⟨rfl, hacc, hr⟩
  have hmem : (v, r) ∈ runs version prev (v ++ r) := mem_runs.mpr ⟨rfl, hacc⟩
  cases hruns : runs version prev (v ++ r) with
  | nil =>
    rw [hruns] at hmem
    cases hmem
  | cons x rs =>
    obtain ⟨hsame, hacc', hr'⟩ := htail (v := x.1) (r := x.2) (by rw [hruns]; rfl)
    obtain ⟨rfl, rfl⟩ := append_version_inj hacc hacc' hr hr' hsame
    rfl

def Kind.next (kind : Kind) (a b c : ℕ) : List ℕ :=
  match kind with
  | .major => [a + 1, 0, 0]
  | .minor => [a, b + 1, 0]
  | .patch => [a, b, c + 1]

theorem digit?_of_mem_toDigits {n : ℕ} {c : Char} (h : c ∈ Nat.toDigits 10 n) :
    digit? c = some (c.toNat - 48) := by
  have hdigit := Nat.isDigit_of_mem_toDigits (by decide) (le_refl 10) h
  simp only [Char.isDigit, Bool.and_eq_true, decide_eq_true_eq] at hdigit
  exact digit?_of_ascii hdigit.1 hdigit.2

theorem isNumber_toDigits (n : ℕ) : IsNumber (Nat.toDigits 10 n) := by
  refine ⟨Nat.toDigits_ne_nil, ?_⟩
  intro c hc
  rw [digit, digit?_of_mem_toDigits hc, Option.isSome_some]

theorem value_toDigits (n : ℕ) : value (Nat.toDigits 10 n) = n := by
  have hmap : (Nat.toDigits 10 n).filterMap digit? = (Nat.toDigits 10 n).map fun c => c.toNat - 48 := by
    rw [← List.filterMap_eq_map]
    exact List.filterMap_congr fun c hc => digit?_of_mem_toDigits hc
  rw [value, hmap, natOf, List.foldl_map]
  exact Nat.ofDigitChars_eq_foldl.symm.trans Nat.ofDigitChars_ten_toDigits

theorem intOfText_number {w : Text} (h : IsNumber w) : intOfText (String.ofList w) =
    if w.length ≤ maxDigits then .ok (value w : ℤ) else .error .valueError := by
  have hsigned : signed w = (false, w) := by
    obtain ⟨c, v, rfl⟩ := List.exists_cons_of_ne_nil h.1
    have hc := h.2 c (by simp)
    have hminus := ne_of_digit hc (show digit '-' = false by decide)
    have hplus := ne_of_digit hc (show digit '+' = false by decide)
    rw [signed]
    · exact fun v heq => hminus (List.cons.inj heq).1
    · exact fun v heq => hplus (List.cons.inj heq).1
  have hlength : (w.filterMap digit?).length = w.length :=
    List.filterMap_length_eq_length.mpr h.2
  rw [intOfText, String.toList_ofList, stripSpace_eq_self fun c hc => isSpace_of_digit (h.2 c hc),
    hsigned]
  simp only [digits?_eq_filterMap h.1 h.2, hlength, Bool.false_eq_true, ↓reduceIte]
  split_ifs <;> first | rfl | omega

theorem strOfInt_natCast (n : ℕ) : strOfInt n =
    if n < 10 ^ maxDigits then .ok (toString n) else .error .valueError := by
  have hlen : (toString n).length = (Nat.toDigits 10 n).length := by
    rw [← toList_toString, String.length_toList]
  have hfits := Nat.length_toDigits_le_iff (b := 10) (n := n) (k := maxDigits) (by decide) (by decide)
  rw [strOfInt, Int.natAbs_natCast, hlen]
  by_cases hn : n < 10 ^ maxDigits
  · rw [if_neg (Nat.not_lt.mpr (hfits.mpr hn)), if_pos hn]
    rfl
  · rw [if_pos (Nat.lt_of_not_le fun h => hn (hfits.mp h)), if_neg hn]

theorem dotted_natCast (ns : List ℕ) : dotted (ns.map Nat.cast) =
    if ∀ n ∈ ns, n < 10 ^ maxDigits then .ok (join '.' (ns.map (Nat.toDigits 10)))
    else .error .valueError := by
  have hround : ∀ n ∈ ns, (strOfInt ∘ Nat.cast) n =
      if n < 10 ^ maxDigits then .ok (toString n) else .error .valueError :=
    fun n _ => strOfInt_natCast n
  rw [dotted, List.mapM_map, mapM_of_guard hround]
  split_ifs
  · rw [ok_bind]
    have hdot : ".".toList = ['.'] := by decide
    simp [String.toList_intercalate, hdot, join, pure, Except.pure, Function.comp_def]
  · rfl

/-- A version is raised where `int` and `str` take all of its numbers. -/
theorem bumpVersion_join {a b c : Text} (ha : IsNumber a) (hb : IsNumber b) (hc : IsNumber c)
    (kind : Kind) : bumpVersion (join '.' [a, b, c]) (some kind) =
      if ∀ w ∈ [a, b, c], w.length ≤ maxDigits ∧ value w + 1 < 10 ^ maxDigits then
        .ok (join '.' ((kind.next (value a) (value b) (value c)).map (Nat.toDigits 10)))
      else .error (.raised .valueError) := by
  have hnumber : ∀ w ∈ [a, b, c], IsNumber w := by simp [ha, hb, hc]
  have hsplit : (join '.' [a, b, c]).splitOn '.' = [a, b, c] := splitOn_join (by simp) hnumber
  have hread := mapM_of_guard fun w hw => intOfText_number (hnumber w hw)
  have hone : 1 < 10 ^ maxDigits := Nat.one_lt_pow (by decide) (by decide)
  rw [bumpVersion, hsplit, hread]
  by_cases hlen : ∀ w ∈ [a, b, c], w.length ≤ maxDigits
  · have hall : (∀ w ∈ [a, b, c], w.length ≤ maxDigits ∧ value w + 1 < 10 ^ maxDigits) ↔
        ∀ n ∈ [value a, value b, value c], n + 1 < 10 ^ maxDigits := by
      constructor
      · intro h
        simpa using fun w hw => (h w hw).2
      · intro h w hw
        exact ⟨hlen w hw, h (value w) (List.mem_map_of_mem (f := value) hw)⟩
    rw [if_pos hlen]
    simp only [hall]
    have hmajor := dotted_natCast [value a + 1, 0, 0]
    have hminor := dotted_natCast [value a, value b + 1, 0]
    have hpatch := dotted_natCast [value a, value b, value c + 1]
    simp only [List.map_cons, List.map_nil, Nat.cast_add, Nat.cast_one, Nat.cast_zero]
      at hmajor hminor hpatch
    simp only [List.map_cons, List.map_nil, Except.mapError, ok_bind, hmajor, hminor, hpatch]
    by_cases hfits : ∀ n ∈ [value a, value b, value c], n + 1 < 10 ^ maxDigits
    · have hnext : ∀ kind : Kind, ∀ n ∈ kind.next (value a) (value b) (value c), n < 10 ^ maxDigits := by
        simp only [List.forall_mem_cons] at hfits
        intro kind n hn
        cases kind <;> simp only [Kind.next, List.mem_cons, List.not_mem_nil, or_false] at hn <;> omega
      have hfirst : ∀ n ∈ [value a + 1, 0, 0], n < 10 ^ maxDigits := hnext .major
      have hsecond : ∀ n ∈ [value a, value b + 1, 0], n < 10 ^ maxDigits := hnext .minor
      have hthird : ∀ n ∈ [value a, value b, value c + 1], n < 10 ^ maxDigits := hnext .patch
      rw [if_pos hfits, if_pos hfirst, if_pos hsecond, if_pos hthird]
      cases kind <;> rfl
    · rw [if_neg hfits]
      by_cases hfirst : ∀ n ∈ [value a + 1, 0, 0], n < 10 ^ maxDigits
      · rw [if_pos hfirst]
        by_cases hsecond : ∀ n ∈ [value a, value b + 1, 0], n < 10 ^ maxDigits
        · have hthird : ¬∀ n ∈ [value a, value b, value c + 1], n < 10 ^ maxDigits := by
            intro hthird
            simp only [List.forall_mem_cons] at hfirst hsecond hthird
            exact hfits (by simp [hfirst.1, hsecond.2.1, hthird.2.2.1])
          rw [if_pos hsecond, if_neg hthird]
          rfl
        · rw [if_neg hsecond]
          rfl
      · rw [if_neg hfirst]
        rfl
  · have hfits : ¬∀ w ∈ [a, b, c], w.length ≤ maxDigits ∧ value w + 1 < 10 ^ maxDigits :=
      fun h => hlen fun w hw => (h w hw).1
    rw [if_neg hlen, if_neg hfits]
    rfl

theorem numbers_join {ws : List Text} (hne : ws ≠ []) (h : ∀ w ∈ ws, IsNumber w) :
    numbers (join '.' ws) = ws.map value := by
  rw [numbers, splitOn_join hne h]

theorem lt_next (kind : Kind) (a b c : ℕ) : [a, b, c] < kind.next a b c := by
  cases kind with
  | major => exact List.cons_lt_cons_iff.mpr (.inl (Nat.lt_succ_self a))
  | minor =>
    refine List.cons_lt_cons_iff.mpr (.inr ⟨rfl, ?_⟩)
    exact List.cons_lt_cons_iff.mpr (.inl (Nat.lt_succ_self b))
  | patch =>
    refine List.cons_lt_cons_iff.mpr (.inr ⟨rfl, List.cons_lt_cons_iff.mpr (.inr ⟨rfl, ?_⟩)⟩)
    exact List.cons_lt_cons_iff.mpr (.inl (Nat.lt_succ_self c))

/-- A raised version is a greater one. -/
theorem bumpVersion_lt {cur new : Text} {kind : Kind} (hcur : accepts version none cur = true)
    (h : bumpVersion cur (some kind) = .ok new) :
    accepts version none new = true ∧ numbers cur < numbers new := by
  obtain ⟨a, b, c, ha, hb, hc, rfl⟩ := accepts_version.mp hcur
  rw [bumpVersion_join ha hb hc] at h
  split_ifs at h
  obtain rfl := Except.ok.inj h
  obtain ⟨n₁, n₂, n₃, hnext⟩ : ∃ n₁ n₂ n₃, kind.next (value a) (value b) (value c) = [n₁, n₂, n₃] := by
    cases kind <;> exact ⟨_, _, _, rfl⟩
  have hnumbers : numbers (join '.' ([n₁, n₂, n₃].map (Nat.toDigits 10))) = [n₁, n₂, n₃] := by
    rw [numbers_join (by simp) (by simp [isNumber_toDigits])]
    simp [value_toDigits]
  rw [numbers_join (by simp) (by simp [ha, hb, hc]), hnext, hnumbers, ← hnext]
  refine ⟨?_, lt_next kind _ _ _⟩
  rw [hnext, accepts_version]
  exact ⟨_, _, _, isNumber_toDigits n₁, isNumber_toDigits n₂, isNumber_toDigits n₃, rfl⟩

theorem bumpVersion_iff {cur : Text} {kind : Kind} (hcur : accepts version none cur = true) :
    (∃ new, bumpVersion cur (some kind) = .ok new) ↔
      ∀ w ∈ cur.splitOn '.', w.length ≤ maxDigits ∧ value w + 1 < 10 ^ maxDigits := by
  obtain ⟨a, b, c, ha, hb, hc, rfl⟩ := accepts_version.mp hcur
  have hnumber : ∀ w ∈ [a, b, c], IsNumber w := by simp [ha, hb, hc]
  rw [bumpVersion_join ha hb hc, splitOn_join (by simp) hnumber]
  split_ifs with hfits
  · exact iff_of_true ⟨_, rfl⟩ hfits
  · refine iff_of_false ?_ hfits
    rintro ⟨new, hnew⟩
    cases hnew

/-- Without a kind there is no version to take. -/
theorem bumpVersion_none {cur new : Text} : bumpVersion cur none ≠ .ok new := by
  intro h
  obtain ⟨ns, -, hns⟩ := except_bind_ok h
  split at hns
  · obtain ⟨ofMajor, -, hmajor⟩ := except_bind_ok hns
    obtain ⟨ofMinor, -, hminor⟩ := except_bind_ok hmajor
    obtain ⟨ofPatch, -, hpatch⟩ := except_bind_ok hminor
    cases hpatch
  · cases hns

end PurdueAF.AfVersion
