import PurdueAF.Binary64

/-!
# JSON values as Python code walks them

`json.loads` gives `None`, booleans, numbers, strings, lists and dictionaries. Code that
walks such a value without looking at its type fails with an exception wherever the value
has not the method or the type it needs; each access says with which.
-/
namespace PurdueAF.Py
open Binary64

inductive Exc
  | typeError | valueError | attributeError | overflowError | zeroDivisionError | recursionError
  deriving DecidableEq, Repr

theorem except_bind_ok {ε α β : Type} {x : Except ε α} {f : α → Except ε β} {y : β}
    (h : (x >>= f) = .ok y) : ∃ z, x = .ok z ∧ f z = .ok y := by
  cases x with
  | error e => cases h
  | ok z => exact ⟨z, rfl, h⟩

@[simp] theorem ok_bind {ε α β : Type} (x : α) (f : α → Except ε β) :
    ((Except.ok x : Except ε α) >>= f) = f x := rfl

/-- A loop in which each round may fail, with one failure for all of them. -/
theorem mapM_of_guard {ε α β : Type} {xs : List α} {f : α → Except ε β} {p : α → Prop}
    [DecidablePred p] {g : α → β} {e : ε}
    (hf : ∀ x ∈ xs, f x = if p x then .ok (g x) else .error e) :
    xs.mapM f = if ∀ x ∈ xs, p x then .ok (xs.map g) else .error e := by
  induction xs with
  | nil => rfl
  | cons x xs ih =>
    rw [List.mapM_cons, hf x (by simp), ih fun y hy => hf y (by simp [hy])]
    by_cases hx : p x
    · by_cases hxs : ∀ y ∈ xs, p y
      · rw [if_pos hx, if_pos hxs, if_pos (List.forall_mem_cons.mpr ⟨hx, hxs⟩)]
        rfl
      · have hall : ¬∀ y ∈ x :: xs, p y := fun h => hxs (List.forall_mem_cons.mp h).2
        rw [if_pos hx, if_neg hxs, if_neg hall]
        rfl
    · have hall : ¬∀ y ∈ x :: xs, p y := fun h => hx (List.forall_mem_cons.mp h).1
      rw [if_neg hx, if_neg hall]
      rfl

inductive Json
  | null
  | bool (b : Bool)
  | int (n : ℤ)
  | float (x : Value)
  | str (text : String)
  | list (items : List Json)
  | dict (entries : List (String × Json))

/-- Why `json.loads` fails. -/
inductive Undecoded
  | invalid
  | nestedTooDeep
  deriving DecidableEq, Repr

def Undecoded.exc : Undecoded → Exc
  | .invalid => .valueError
  | .nestedTooDeep => .recursionError

namespace Json

def truthy : Json → Bool
  | null => false
  | bool b => b
  | int n => n ≠ 0
  | float x => x ≠ .finite 0
  | str text => text ≠ ""
  | list items => !items.isEmpty
  | dict entries => !entries.isEmpty

/-- `x or y`. -/
def or (x y : Json) : Json := if x.truthy then x else y

def isStr (text : String) : Json → Bool
  | str t => t = text
  | _ => false

def lookup (entries : List (String × Json)) (key : String) : Json :=
  (List.lookup key entries).getD null

/-- `x.get(key, default)`, which only a dictionary has. -/
def getD (x : Json) (key : String) (default : Json) : Except Exc Json :=
  match x with
  | dict entries => .ok ((List.lookup key entries).getD default)
  | _ => .error .attributeError

def get (x : Json) (key : String) : Except Exc Json := x.getD key null

@[simp] theorem get_dict (entries : List (String × Json)) (key : String) :
    (dict entries).get key = .ok (lookup entries key) := rfl

/-- What a `for` over the value goes through: a dictionary's keys, a string's characters. -/
def iter : Json → Except Exc (List Json)
  | list items => .ok items
  | str text => .ok (text.toList.map fun c => str c.toString)
  | dict entries => .ok (entries.map fun e => str e.1)
  | _ => .error .typeError

/-- `text + x`. -/
def appendTo (text : String) : Json → Except Exc String
  | str t => .ok (text ++ t)
  | _ => .error .typeError

/-- `{**entries, **more}` of a dictionary: a key keeps its place and takes the later value. -/
def setEntry (entries : List (String × Json)) (key : String) (x : Json) : List (String × Json) :=
  if entries.any fun e => e.1 = key then
    entries.map fun e => if e.1 = key then (key, x) else e
  else entries ++ [(key, x)]

def merge (entries more : List (String × Json)) : List (String × Json) :=
  more.foldl (fun d e => setEntry d e.1 e.2) entries

/-- What a `**x` spreads, which only a dictionary does. -/
def spread : Json → Except Exc (List (String × Json))
  | dict entries => .ok entries
  | _ => .error .typeError

/-- The keys a dictionary of Python may have; numbers of one value are one key. -/
inductive Key
  | null
  | num (x : Value)
  | str (text : String)
  deriving DecidableEq, Repr

def hashed : Json → Except Exc Key
  | null => .ok .null
  | bool b => .ok (.num (.finite (if b then 1 else 0)))
  | int n => .ok (.num (.finite n))
  | float x => .ok (.num x)
  | str text => .ok (.str text)
  | list _ | dict _ => .error .typeError

end Json

/-- `str.isspace` of one character. -/
def isSpace (c : Char) : Bool :=
  let n := c.toNat
  (9 ≤ n && n ≤ 13) || (28 ≤ n && n ≤ 32) || n = 0x85 || n = 0xa0 || n = 0x1680 ||
    (0x2000 ≤ n && n ≤ 0x200a) || n = 0x2028 || n = 0x2029 || n = 0x202f || n = 0x205f || n = 0x3000

/-- The zeros of Unicode's decimal digits, each followed by the other nine. -/
def zeros : List ℕ :=
  [0x30, 0x660, 0x6f0, 0x7c0, 0x966, 0x9e6, 0xa66, 0xae6, 0xb66, 0xbe6, 0xc66, 0xce6, 0xd66,
   0xde6, 0xe50, 0xed0, 0xf20, 0x1040, 0x1090, 0x17e0, 0x1810, 0x1946, 0x19d0, 0x1a80, 0x1a90,
   0x1b50, 0x1bb0, 0x1c40, 0x1c50, 0xa620, 0xa8d0, 0xa900, 0xa9d0, 0xa9f0, 0xaa50, 0xabf0,
   0xff10, 0x104a0, 0x10d30, 0x11066, 0x110f0, 0x11136, 0x111d0, 0x112f0, 0x11450, 0x114d0,
   0x11650, 0x116c0, 0x11730, 0x118e0, 0x11950, 0x11c50, 0x11d50, 0x11da0, 0x16a60, 0x16ac0,
   0x16b50, 0x1d7ce, 0x1d7d8, 0x1d7e2, 0x1d7ec, 0x1d7f6, 0x1e140, 0x1e2f0, 0x1e950, 0x1fbf0]

def digit? (c : Char) : Option ℕ :=
  (zeros.find? fun z => z ≤ c.toNat && c.toNat < z + 10).map fun z => c.toNat - z

def stripSpace (text : List Char) : List Char :=
  ((text.dropWhile isSpace).reverse.dropWhile isSpace).reverse

/-- Digits with single underscores between them. -/
def digits? : List Char → Option (List ℕ)
  | [] => none
  | [c] => (digit? c).map fun d => [d]
  | c :: '_' :: rest => do
    let d ← digit? c
    let ds ← digits? rest
    return d :: ds
  | c :: rest => do
    let d ← digit? c
    let ds ← digits? rest
    return d :: ds

theorem stripSpace_eq_self {text : List Char} (h : ∀ c ∈ text, isSpace c = false) :
    stripSpace text = text := by
  have hdrop : ∀ cs : List Char, (∀ c ∈ cs, isSpace c = false) → cs.dropWhile isSpace = cs := by
    intro cs hcs
    cases cs with
    | nil => rfl
    | cons c cs => rw [List.dropWhile_cons, hcs c (by simp)]; rfl
  rw [stripSpace, hdrop text h, hdrop text.reverse fun c hc => h c (List.mem_reverse.mp hc),
    List.reverse_reverse]

theorem digits?_eq_filterMap {cs : List Char} (hne : cs ≠ [])
    (h : ∀ c ∈ cs, (digit? c).isSome) : digits? cs = some (cs.filterMap digit?) := by
  induction cs with
  | nil => exact absurd rfl hne
  | cons c cs ih =>
    obtain ⟨n, hn⟩ := Option.isSome_iff_exists.mp (h c (by simp))
    cases cs with
    | nil => rw [digits?, hn, List.filterMap_cons_some hn]; rfl
    | cons d cs =>
      have hd : d ≠ '_' := by
        rintro rfl
        exact absurd (h '_' (by simp)) (by decide)
      have hrest := ih (by simp) fun e he => h e (List.mem_cons_of_mem _ he)
      rw [digits?, hn, hrest, List.filterMap_cons_some hn]
      · rfl
      · simp
      · intro rest heq
        exact hd (List.cons.inj heq).1

theorem digit?_of_ascii {c : Char} (hlow : 48 ≤ c.toNat) (hhigh : c.toNat ≤ 57) :
    digit? c = some (c.toNat - 48) := by
  have hlt : c.toNat < 58 := by omega
  simp [digit?, zeros, hlow, hlt]

theorem toList_toString (n : ℕ) : (toString n).toList = Nat.toDigits 10 n := by
  rw [Nat.toString_eq_ofList_toDigits, String.toList_ofList]

/-- `sys.get_int_max_str_digits()`. -/
def maxDigits : ℕ := 4300

def natOf (ds : List ℕ) : ℕ := ds.foldl (fun n d => 10 * n + d) 0

def signed : List Char → Bool × List Char
  | '-' :: rest => (true, rest)
  | '+' :: rest => (false, rest)
  | text => (false, text)

/-- `int` of a string. -/
def intOfText (text : String) : Except Exc ℤ :=
  let (negative, rest) := signed (stripSpace text.toList)
  match digits? rest with
  | some ds =>
    if maxDigits < ds.length then .error .valueError
    else .ok (if negative then -(natOf ds : ℤ) else natOf ds)
  | none => .error .valueError

/-- `int` of a double. -/
def intOfFloat : Value → Except Exc ℤ
  | .finite q => .ok (truncate q)
  | .infinite _ => .error .overflowError
  | .nan => .error .valueError

/-- `int` of a value. -/
def Json.toInt : Json → Except Exc ℤ
  | .bool b => .ok (if b then 1 else 0)
  | .int n => .ok n
  | .float x => intOfFloat x
  | .str text => intOfText text
  | _ => .error .typeError

/-- The digits around a decimal point; one side may be empty. -/
def decimal? (text : List Char) : Option ℚ :=
  match text.span (· ≠ '.') with
  | (whole, []) => (digits? whole).map fun ds => (natOf ds : ℚ)
  | ([], _ :: part) => (digits? part).map fun ds => (natOf ds : ℚ) / 10 ^ ds.length
  | (whole, [_]) => (digits? whole).map fun ds => (natOf ds : ℚ)
  | (whole, _ :: part) => do
    let ws ← digits? whole
    let ds ← digits? part
    return natOf ws + natOf ds / 10 ^ ds.length

def lowerAscii (c : Char) : Char :=
  if 'A' ≤ c && c ≤ 'Z' then Char.ofNat (c.toNat + 32) else c

def unsignedFloat? (text : List Char) : Option Value :=
  let low := text.map lowerAscii
  if low = "inf".toList ∨ low = "infinity".toList then some (.infinite false)
  else if low = "nan".toList then some .nan
  else
    match low.span (· ≠ 'e') with
    | (mantissa, []) => (decimal? mantissa).map nearest
    | (mantissa, _ :: power) => do
      let m ← decimal? mantissa
      let (negative, rest) := signed power
      let ds ← digits? rest
      let e : ℤ := if negative then -(natOf ds : ℤ) else natOf ds
      return nearest (m * 10 ^ e)

/-- `float` of a string, `none` for its ValueError. -/
def floatOfText (text : String) : Option Value :=
  let (negative, rest) := signed (stripSpace text.toList)
  (unsignedFloat? rest).map fun x => if negative then neg x else x

/-- An integer as an operand of a float operation. -/
def floatOfInt (n : ℤ) : Except Exc ℚ :=
  match ofInt n with
  | some q => .ok q
  | none => .error .overflowError

/-- `float` of a value. -/
def Json.toFloat : Json → Except Exc Value
  | .bool b => .ok (.finite (if b then 1 else 0))
  | .int n => (floatOfInt n).map .finite
  | .float x => .ok x
  | .str text =>
    match floatOfText text with
    | some x => .ok x
    | none => .error .valueError
  | _ => .error .typeError

/-- The power of ten of a positive number's first digit. -/
def decade (q : ℚ) : ℤ :=
  if 1 ≤ q then ((toString ⌊q⌋.toNat).length : ℤ) - 1
  else -(((List.range 400).find? fun k => decide (1 ≤ q * 10 ^ k)).getD 400 : ℕ)

def stripZeros (digits : List Char) : List Char := (digits.reverse.dropWhile (· = '0')).reverse

/-- The digits of a number below one, after its point, or nothing. -/
def fraction (digits : List Char) : List Char :=
  match stripZeros digits with
  | [] => []
  | ds => '.' :: ds

/-- `f"{q:g}"` of a number that is not negative: six digits, without the zeros at their end. -/
def formatG (q : ℚ) : String :=
  if q = 0 then "0"
  else
    let rounded := halfEven (q / 10 ^ (decade q - 5))
    let (n, e) := if rounded = 10 ^ 6 then (10 ^ 5, decade q + 1) else (rounded, decade q)
    let digits := (toString n.toNat).toList
    String.ofList <|
      if 0 ≤ e ∧ e < 6 then
        digits.take (e.toNat + 1) ++ fraction (digits.drop (e.toNat + 1))
      else if -4 ≤ e ∧ e < 0 then
        '0' :: fraction (List.replicate (-e - 1).toNat '0' ++ digits)
      else
        let power := (toString e.natAbs).toList
        digits.take 1 ++ fraction (digits.drop 1) ++ ['e', if e < 0 then '-' else '+'] ++
          List.replicate (2 - power.length) '0' ++ power

end PurdueAF.Py
