import Mathlib.Data.List.TakeWhile
import Mathlib.Tactic.Common

/-!
# UTF-8 with errors ignored

`decode` reads bytes that need not be UTF-8: those that start no character are dropped, as after
a cut in the middle of one. A byte below 128 is a character of its own wherever it stands, so the
text splits at a newline where the bytes do.
-/
namespace PurdueAF.Utf8

def encode (text : List Char) : List UInt8 := text.flatMap String.utf8EncodeChar

/-- The character whose encoding the bytes start with. -/
def leading? (bytes : List UInt8) : Option Char := bytes.toByteArray.utf8DecodeChar? 0

/-- The rest of the bytes, of which `skip` belong to the character already read. -/
def decodeFrom : ℕ → List UInt8 → List Char
  | _, [] => []
  | skip + 1, _ :: bytes => decodeFrom skip bytes
  | 0, b :: bytes =>
    match leading? (b :: bytes) with
    | some c => c :: decodeFrom (c.utf8Size - 1) bytes
    | none => decodeFrom 0 bytes

/-- `bytes.decode(errors="ignore")`. -/
def decode (bytes : List UInt8) : List Char := decodeFrom 0 bytes

theorem leading?_eq_some {bytes : List UInt8} {c : Char} :
    leading? bytes = some c ↔ String.utf8EncodeChar c <+: bytes := by
  constructor
  · intro h
    obtain ⟨l, hl⟩ := ByteArray.exists_of_utf8DecodeChar?_eq_some h
    refine ⟨l.data.toList, ?_⟩
    rw [← List.toByteArray_inj, List.toByteArray_append, hl]
    congr 1
    exact ByteArray.ext (by simp)
  · rintro ⟨rest, rfl⟩
    rw [leading?, List.toByteArray_append, ByteArray.utf8DecodeChar?_utf8EncodeChar_append]

theorem decodeFrom_append (skipped bytes : List UInt8) :
    decodeFrom skipped.length (skipped ++ bytes) = decodeFrom 0 bytes := by
  induction skipped with
  | nil => rfl
  | cons b skipped ih => exact ih

theorem decode_encodeChar_append (c : Char) (bytes : List UInt8) :
    decode (String.utf8EncodeChar c ++ bytes) = c :: decode bytes := by
  have hlen : (String.utf8EncodeChar c).length = c.utf8Size := String.length_utf8EncodeChar c
  have hpos := c.utf8Size_pos
  have hlead : leading? (String.utf8EncodeChar c ++ bytes) = some c :=
    leading?_eq_some.mpr (List.prefix_append _ _)
  cases hc : String.utf8EncodeChar c with
  | nil =>
    rw [hc, List.length_nil] at hlen
    omega
  | cons b bs =>
    rw [hc] at hlead hlen
    rw [List.cons_append] at hlead ⊢
    have hskip : c.utf8Size - 1 = bs.length := by
      rw [List.length_cons] at hlen
      omega
    rw [decode, decodeFrom, hlead]
    exact congrArg (c :: ·) (hskip ▸ decodeFrom_append bs bytes)

/-- What is encoded is read back. -/
theorem decode_encode (text : List Char) : decode (encode text) = text := by
  induction text with
  | nil => rfl
  | cons c text ih =>
    rw [encode, List.flatMap_cons, decode_encodeChar_append, ← encode, ih]

/-- The bytes of a character after its first are 128 or more. -/
theorem le_of_mem_tail_encodeChar {c : Char} {b : UInt8}
    (h : b ∈ (String.utf8EncodeChar c).tail) : 128 ≤ b.toNat := by
  have hor : ∀ x : UInt8, 128 ≤ (x ||| 0x80).toNat := by
    intro x
    rw [UInt8.toNat_or]
    exact Nat.right_le_or
  rcases c.utf8Size_eq with hc | hc | hc | hc
  · rw [String.utf8EncodeChar_eq_singleton hc] at h
    cases h
  · rw [String.utf8EncodeChar_eq_cons_cons hc] at h
    simp only [List.tail_cons, List.mem_cons, List.not_mem_nil, or_false] at h
    exact h ▸ hor _
  · rw [String.utf8EncodeChar_eq_cons_cons_cons hc] at h
    simp only [List.tail_cons, List.mem_cons, List.not_mem_nil, or_false] at h
    rcases h with h | h
    · exact h ▸ hor _
    · exact h ▸ hor _
  · rw [String.utf8EncodeChar_eq_cons_cons_cons_cons hc] at h
    simp only [List.tail_cons, List.mem_cons, List.not_mem_nil, or_false] at h
    rcases h with h | h | h
    · exact h ▸ hor _
    · exact h ▸ hor _
    · exact h ▸ hor _

/-- A byte below 128 is a character of its own. -/
theorem encodeChar_of_mem {c : Char} {b : UInt8} (h : b ∈ String.utf8EncodeChar c)
    (hb : b.toNat < 128) : String.utf8EncodeChar c = [b] := by
  have hor : ∀ x : UInt8, 128 ≤ (x ||| 0xc0).toNat ∧ 128 ≤ (x ||| 0xe0).toNat ∧
      128 ≤ (x ||| 0xf0).toNat := by
    intro x
    have hle {m : UInt8} : m.toNat ≤ (x ||| m).toNat := by
      rw [UInt8.toNat_or]
      exact Nat.right_le_or
    exact ⟨Nat.le_trans (by decide) hle, Nat.le_trans (by decide) hle,
      Nat.le_trans (by decide) hle⟩
  rcases c.utf8Size_eq with hc | hc | hc | hc
  · rw [String.utf8EncodeChar_eq_singleton hc] at h ⊢
    rw [List.mem_singleton.mp h]
  all_goals
    have hcons : ∃ x rest, String.utf8EncodeChar c = x :: rest ∧ 128 ≤ x.toNat := by
      first
      | exact ⟨_, _, String.utf8EncodeChar_eq_cons_cons hc, (hor _).1⟩
      | exact ⟨_, _, String.utf8EncodeChar_eq_cons_cons_cons hc, (hor _).2.1⟩
      | exact ⟨_, _, String.utf8EncodeChar_eq_cons_cons_cons_cons hc, (hor _).2.2⟩
    obtain ⟨x, rest, heq, hx⟩ := hcons
    have htail : b ∈ rest → 128 ≤ b.toNat := fun hmem =>
      le_of_mem_tail_encodeChar (c := c) (by rw [heq]; exact hmem)
    rw [heq] at h
    rcases List.mem_cons.mp h with rfl | hmem
    · omega
    · have := htail hmem
      omega

/-- A character of one byte is in a text where its byte is in the encoding. -/
theorem mem_of_mem_encode {c : Char} {b : UInt8} (hc : String.utf8EncodeChar c = [b])
    (hb : b.toNat < 128) {text : List Char} (h : b ∈ encode text) : c ∈ text := by
  obtain ⟨d, hd, hmem⟩ := List.mem_flatMap.mp h
  have hone : String.utf8EncodeChar d = String.utf8EncodeChar c := by
    rw [hc, encodeChar_of_mem hmem hb]
  have hcd := decode_encodeChar_append d []
  rw [hone, decode_encodeChar_append] at hcd
  exact (List.cons.inj hcd).1 ▸ hd

theorem encodeChar_newline : String.utf8EncodeChar '\n' = [10] := by decide

/-- No character reaches over a newline. -/
theorem leading?_append_newline {x : UInt8} {xs : List UInt8} (h : leading? (x :: xs) = none)
    (ys : List UInt8) : leading? (x :: xs ++ 10 :: ys) = none := by
  by_contra hne
  obtain ⟨c, hc⟩ := Option.ne_none_iff_exists'.mp hne
  have hpre := leading?_eq_some.mp hc
  rcases Nat.lt_or_ge (x :: xs).length (String.utf8EncodeChar c).length with hlt | hle
  · -- the newline is then a byte of the character, and not its first
    have hsplit : x :: xs ++ 10 :: ys = (x :: xs ++ [10]) ++ ys := by simp
    have hmem : (x :: xs ++ [10]) <+: String.utf8EncodeChar c :=
      List.prefix_of_prefix_length_le (hsplit ▸ List.prefix_append _ ys) hpre (by simpa using Nat.succ_le_of_lt hlt)
    obtain ⟨rest, hrest⟩ := hmem
    have htail : (10 : UInt8) ∈ (String.utf8EncodeChar c).tail := by
      rw [← hrest]
      simp
    exact absurd (le_of_mem_tail_encodeChar htail) (by decide)
  · have hin := List.prefix_of_prefix_length_le hpre (List.prefix_append _ _) hle
    rw [leading?_eq_some.mpr hin] at h
    cases h

theorem decodeFrom_append_newline {n : ℕ} {xs : List UInt8} (hn : n ≤ xs.length)
    (ys : List UInt8) :
    decodeFrom n (xs ++ 10 :: ys) = decodeFrom n xs ++ '\n' :: decode ys := by
  induction xs generalizing n with
  | nil =>
    obtain rfl := Nat.le_zero.mp hn
    have hchar := decode_encodeChar_append '\n' ys
    rwa [encodeChar_newline] at hchar
  | cons x xs ih =>
    cases n with
    | succ n => exact ih (Nat.le_of_succ_le_succ hn)
    | zero =>
      cases hlead : leading? (x :: xs) with
      | none =>
        have hnone := leading?_append_newline hlead ys
        rw [List.cons_append] at hnone ⊢
        rw [decodeFrom, hnone, decodeFrom, hlead]
        exact ih (Nat.zero_le _)
      | some c =>
        have hpre := leading?_eq_some.mp hlead
        have hsome : leading? (x :: xs ++ 10 :: ys) = some c :=
          leading?_eq_some.mpr (hpre.trans (List.prefix_append _ _))
        have hlen := hpre.length_le
        rw [String.length_utf8EncodeChar, List.length_cons] at hlen
        rw [List.cons_append] at hsome ⊢
        rw [decodeFrom, hsome, decodeFrom, hlead]
        exact congrArg (c :: ·) (ih (by omega))

theorem newline_not_mem_decodeFrom {n : ℕ} {bytes : List UInt8} (h : 10 ∉ bytes) :
    '\n' ∉ decodeFrom n bytes := by
  induction bytes generalizing n with
  | nil => simp [decodeFrom]
  | cons b bytes ih =>
    have hrest : 10 ∉ bytes := fun hmem => h (List.mem_cons_of_mem _ hmem)
    cases n with
    | succ n => exact ih hrest
    | zero =>
      cases hlead : leading? (b :: bytes) with
      | none =>
        rw [decodeFrom, hlead]
        exact ih hrest
      | some c =>
        rw [decodeFrom, hlead, List.mem_cons]
        rintro (hc | hmem)
        · have hpre := leading?_eq_some.mp hlead
          rw [← hc, encodeChar_newline] at hpre
          exact h (hpre.subset (by simp))
        · exact ih hrest hmem

/-- `partition(x)[2]`: what comes after the first `x`. -/
def afterFirst {α : Type*} [DecidableEq α] (x : α) (items : List α) : List α :=
  (items.dropWhile (· ≠ x)).drop 1

section AfterFirst
variable {α : Type*} [DecidableEq α] {x : α}

theorem afterFirst_append {before : List α} (h : x ∉ before) (rest : List α) :
    afterFirst x (before ++ x :: rest) = rest := by
  have hall : ∀ y ∈ before, decide (y ≠ x) = true :=
    fun y hy => decide_eq_true fun heq => h (heq ▸ hy)
  rw [afterFirst, List.dropWhile_append_of_pos hall]
  simp

theorem afterFirst_of_not_mem {items : List α} (h : x ∉ items) : afterFirst x items = [] := by
  have hall : ∀ y ∈ items, decide (y ≠ x) = true :=
    fun y hy => decide_eq_true fun heq => h (heq ▸ hy)
  rw [afterFirst, List.dropWhile_eq_nil_iff.mpr hall, List.drop_nil]

end AfterFirst

/-- The text after the first newline is that of the bytes after it. -/
theorem afterFirst_decode (bytes : List UInt8) :
    afterFirst '\n' (decode bytes) = decode (afterFirst 10 bytes) := by
  by_cases h : 10 ∈ bytes
  · obtain ⟨before, rest, rfl, hbefore⟩ := List.eq_append_cons_of_mem h
    rw [afterFirst_append hbefore, decode, decodeFrom_append_newline (Nat.zero_le _),
      afterFirst_append (newline_not_mem_decodeFrom hbefore)]
  · rw [afterFirst_of_not_mem h, decode, afterFirst_of_not_mem (newline_not_mem_decodeFrom h)]
    rfl

end PurdueAF.Utf8
