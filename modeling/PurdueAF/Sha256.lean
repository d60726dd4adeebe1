import Mathlib.Algebra.GroupWithZero.Nat
import Mathlib.Data.List.GetD

/-!
# SHA-256

The hash of FIPS 180-4 on byte lists, executable, with the shape of its digest.
Every recursion is structural, so that the kernel can evaluate it on a message.
-/
namespace PurdueAF.Sha256

structure Hash where
  a : UInt32
  b : UInt32
  c : UInt32
  d : UInt32
  e : UInt32
  f : UInt32
  g : UInt32
  h : UInt32
  deriving DecidableEq

def initial : Hash :=
  ⟨0x6a09e667, 0xbb67ae85, 0x3c6ef372, 0xa54ff53a,
    0x510e527f, 0x9b05688c, 0x1f83d9ab, 0x5be0cd19⟩

def constants : List UInt32 :=
  [0x428a2f98, 0x71374491, 0xb5c0fbcf, 0xe9b5dba5, 0x3956c25b, 0x59f111f1, 0x923f82a4, 0xab1c5ed5,
    0xd807aa98, 0x12835b01, 0x243185be, 0x550c7dc3, 0x72be5d74, 0x80deb1fe, 0x9bdc06a7, 0xc19bf174,
    0xe49b69c1, 0xefbe4786, 0x0fc19dc6, 0x240ca1cc, 0x2de92c6f, 0x4a7484aa, 0x5cb0a9dc, 0x76f988da,
    0x983e5152, 0xa831c66d, 0xb00327c8, 0xbf597fc7, 0xc6e00bf3, 0xd5a79147, 0x06ca6351, 0x14292967,
    0x27b70a85, 0x2e1b2138, 0x4d2c6dfc, 0x53380d13, 0x650a7354, 0x766a0abb, 0x81c2c92e, 0x92722c85,
    0xa2bfe8a1, 0xa81a664b, 0xc24b8b70, 0xc76c51a3, 0xd192e819, 0xd6990624, 0xf40e3585, 0x106aa070,
    0x19a4c116, 0x1e376c08, 0x2748774c, 0x34b0bcb5, 0x391c0cb3, 0x4ed8aa4a, 0x5b9cca4f, 0x682e6ff3,
    0x748f82ee, 0x78a5636f, 0x84c87814, 0x8cc70208, 0x90befffa, 0xa4506ceb, 0xbef9a3f7, 0xc67178f2]

def rotr (x n : UInt32) : UInt32 := (x >>> n) ||| (x <<< (32 - n))

/-- The newest word of the message schedule first. -/
def extend (w : List UInt32) : List UInt32 :=
  let x := w.getD 14 0
  let y := w.getD 1 0
  let s0 := rotr x 7 ^^^ rotr x 18 ^^^ (x >>> 3)
  let s1 := rotr y 17 ^^^ rotr y 19 ^^^ (y >>> 10)
  (s1 + w.getD 6 0 + s0 + w.getD 15 0) :: w

def extendTimes : ℕ → List UInt32 → List UInt32
  | 0, w => w
  | n + 1, w => extendTimes n (extend w)

def schedule (block : List UInt32) : List UInt32 := (extendTimes 48 block.reverse).reverse

def round (s : Hash) (kw : UInt32 × UInt32) : Hash :=
  let s1 := rotr s.e 6 ^^^ rotr s.e 11 ^^^ rotr s.e 25
  let ch := (s.e &&& s.f) ^^^ (~~~s.e &&& s.g)
  let t1 := s.h + s1 + ch + kw.1 + kw.2
  let s0 := rotr s.a 2 ^^^ rotr s.a 13 ^^^ rotr s.a 22
  let maj := (s.a &&& s.b) ^^^ (s.a &&& s.c) ^^^ (s.b &&& s.c)
  ⟨t1 + (s0 + maj), s.a, s.b, s.c, s.d + t1, s.e, s.f, s.g⟩

def compress (s : Hash) (block : List UInt32) : Hash :=
  let r := (constants.zip (schedule block)).foldl round s
  ⟨s.a + r.a, s.b + r.b, s.c + r.c, s.d + r.d, s.e + r.e, s.f + r.f, s.g + r.g, s.h + r.h⟩

def compressAll : ℕ → Hash → List UInt32 → Hash
  | 0, s, _ => s
  | n + 1, s, w => compressAll n (compress s (w.take 16)) (w.drop 16)

def bigEndian : ℕ → ℕ → List UInt8
  | 0, _ => []
  | n + 1, x => UInt8.ofNat (x / 256 ^ n) :: bigEndian n x

/-- A one bit, zeros to the end of the last block but eight bytes, and the bit length. -/
def pad (message : List UInt8) : List UInt8 :=
  message ++ [0x80] ++ List.replicate ((119 - message.length % 64) % 64) 0 ++
    bigEndian 8 (8 * message.length)

def words : List UInt8 → List UInt32
  | a :: b :: c :: d :: rest =>
    UInt32.ofNat (((a.toNat * 256 + b.toNat) * 256 + c.toNat) * 256 + d.toNat) :: words rest
  | _ => []

def digest (message : List UInt8) : List UInt8 :=
  let w := words (pad message)
  let s := compressAll (w.length / 16) initial w
  [s.a, s.b, s.c, s.d, s.e, s.f, s.g, s.h].flatMap fun x => bigEndian 4 x.toNat

def hexDigit (n : ℕ) : Char := "0123456789abcdef".toList.getD n '0'

def hexdigest (message : List UInt8) : List Char :=
  (digest message).flatMap fun x => [hexDigit (x.toNat / 16), hexDigit (x.toNat % 16)]

theorem bigEndian_length (n x : ℕ) : (bigEndian n x).length = n := by
  induction n with
  | zero => rfl
  | succ n ih => simp [bigEndian, ih]

theorem digest_length (message : List UInt8) : (digest message).length = 32 := by
  simp [digest, bigEndian_length]

theorem hexdigest_length (message : List UInt8) : (hexdigest message).length = 64 := by
  simp [hexdigest, List.length_flatMap, List.map_const', digest_length]

theorem hexDigit_mem (n : ℕ) : hexDigit n ∈ "0123456789abcdef".toList := by
  by_cases h : n < "0123456789abcdef".toList.length
  · rw [hexDigit, List.getD_eq_getElem _ _ h]
    exact List.getElem_mem h
  · rw [hexDigit, List.getD_eq_default _ _ (Nat.not_lt.mp h)]
    decide

theorem hexdigest_mem {message : List UInt8} {c : Char} (h : c ∈ hexdigest message) :
    c ∈ "0123456789abcdef".toList := by
  obtain ⟨x, -, hx⟩ := List.mem_flatMap.mp h
  simp only [List.mem_cons, List.not_mem_nil, or_false] at hx
  rcases hx with rfl | rfl <;> exact hexDigit_mem _

example : hexdigest [97, 98, 99] =
    "ba7816bf8f01cfea414140de5dae2223b00361a396177a9cb410ff61f20015ad".toList := by
  decide +kernel

end PurdueAF.Sha256
