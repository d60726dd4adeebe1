import Mathlib.Data.Rat.Floor
import Mathlib.Tactic.Linarith
import Mathlib.Tactic.LinearCombination

/-!
# Binary64 numbers

A double is a rational, an infinity or no number. Operations give the double nearest to the
exact result, ties to the even one, as IEEE 754 and Python's `float` do; the sign of a zero
is left out, as nothing that is computed with these numbers tells it apart.
-/
namespace PurdueAF.Binary64

inductive Value
  | finite (q : ℚ)
  | infinite (negative : Bool)
  | nan
  deriving DecidableEq, Repr

/-- The exponent `e` of a positive rational, with `2 ^ e` at most it and `2 ^ (e + 1)` above. -/
def exponent (q : ℚ) : ℤ :=
  let e : ℤ := Nat.log2 q.num.natAbs - Nat.log2 q.den
  if (2 : ℚ) ^ e ≤ q then e else e - 1

/-- The distance between neighbouring doubles around `q`. -/
def spacing (q : ℚ) : ℚ := 2 ^ max (exponent |q| - 52) (-1074)

def halfEven (q : ℚ) : ℤ :=
  let n := ⌊q⌋
  if q - n < 1 / 2 then n
  else if 1 / 2 < q - n then n + 1
  else if n % 2 = 0 then n
  else n + 1

/-- The double nearest to a rational. -/
def nearest (q : ℚ) : Value :=
  if q = 0 then .finite 0
  else
    let r : ℚ := halfEven (q / spacing q) * spacing q
    if |r| < 2 ^ 1024 then .finite r else .infinite (decide (q < 0))

/-- `float` of an integer, which fails beyond the largest double. -/
def ofInt (n : ℤ) : Option ℚ :=
  match nearest n with
  | .finite q => some q
  | _ => none

/-- `int` of a double that is a number: towards zero. -/
def truncate (q : ℚ) : ℤ := if 0 ≤ q then ⌊q⌋ else ⌈q⌉

def neg : Value → Value
  | .finite q => .finite (-q)
  | .infinite n => .infinite !n
  | .nan => .nan

def mul : Value → Value → Value
  | .finite p, .finite q => nearest (p * q)
  | .nan, _ | _, .nan => .nan
  | .infinite m, .infinite n => .infinite (m != n)
  | .infinite m, .finite q | .finite q, .infinite m =>
    if q = 0 then .nan else .infinite (m != decide (q < 0))

def add : Value → Value → Value
  | .finite p, .finite q => nearest (p + q)
  | .nan, _ | _, .nan => .nan
  | .infinite m, .infinite n => if m = n then .infinite m else .nan
  | .infinite m, .finite _ | .finite _, .infinite m => .infinite m

def sub (x y : Value) : Value := add x (neg y)

/-- Comparison, false where one is no number. -/
def lt : Value → Value → Bool
  | .finite p, .finite q => p < q
  | .infinite m, .infinite n => m && !n
  | .infinite m, .finite _ => m
  | .finite _, .infinite n => !n
  | _, _ => false

def le : Value → Value → Bool
  | .nan, _ | _, .nan => false
  | x, y => !lt y x

/-- Python's `min` and `max` keep the first of what they cannot order. -/
def min (x y : Value) : Value := if lt y x then y else x

def max (x y : Value) : Value := if lt x y then y else x

theorem value_le_trans {x y z : Value} (h : le x y = true) (h' : le y z = true) :
    le x z = true := by
  cases x with
  | nan => cases h
  | infinite a =>
    cases y with
    | nan => cases h
    | infinite b => cases z <;> cases a <;> cases b <;> simp_all [le, lt]
    | finite q => cases z <;> cases a <;> simp_all [le, lt]
  | finite p =>
    cases y with
    | nan => cases h
    | infinite b => cases z <;> cases b <;> simp_all [le, lt]
    | finite q =>
      cases z with
      | nan => cases h'
      | infinite c => cases c <;> simp_all [le, lt]
      | finite r =>
        simp only [le, lt, Bool.not_eq_true', decide_eq_false_iff_not, not_lt] at h h' ⊢
        exact h.trans h'

theorem value_not_lt {x y : Value} (h : le x y = true) : lt y x = false := by
  cases x with
  | nan => cases h
  | infinite a => cases y <;> simp_all [le]
  | finite p => cases y <;> simp_all [le]

theorem value_lt_of_lt_of_le {x y z : Value} (h : lt x y = true) (h' : le y z = true) :
    lt x z = true := by
  cases hxz : lt x z with
  | true => rfl
  | false =>
    -- what is not below a number or an infinity is at least it
    have hle : le z x = true := by
      cases x with
      | nan => cases h
      | infinite a => cases z <;> first | (cases y <;> cases h') | simpa [le] using hxz
      | finite p => cases z <;> first | (cases y <;> cases h') | simpa [le] using hxz
    rw [value_not_lt (value_le_trans h' hle)] at h
    cases h

theorem truncate_lt (q : ℚ) : (truncate q : ℚ) < q + 1 := by
  unfold truncate
  split_ifs
  · have := Int.floor_le q
    linarith
  · exact Int.ceil_lt_add_one q

theorem spacing_pos (q : ℚ) : 0 < spacing q := zpow_pos (by norm_num) _

theorem halfEven_nonneg {q : ℚ} (h : 0 ≤ q) : 0 ≤ halfEven q := by
  have hf : 0 ≤ ⌊q⌋ := Int.floor_nonneg.mpr h
  unfold halfEven
  dsimp only
  split_ifs <;> omega

/-- Rounding keeps the sign. -/
theorem nearest_nonneg {q r : ℚ} (hq : 0 ≤ q) (h : nearest q = .finite r) : 0 ≤ r := by
  unfold nearest at h
  split_ifs at h with h0
  · obtain rfl := Value.finite.inj h
    rfl
  · dsimp only at h
    split_ifs at h
    obtain rfl := Value.finite.inj h
    have hs := spacing_pos q
    have hn : 0 ≤ halfEven (q / spacing q) := halfEven_nonneg (div_nonneg hq hs.le)
    exact mul_nonneg (by exact_mod_cast hn) hs.le

theorem zero_le_nearest {q : ℚ} (hq : 0 ≤ q) : le (.finite 0) (nearest q) = true := by
  cases h : nearest q with
  | finite r => simpa [le, lt] using nearest_nonneg hq h
  | infinite n =>
    unfold nearest at h
    split_ifs at h
    dsimp only at h
    split_ifs at h
    have hn : decide (q < 0) = n := Value.infinite.inj h
    rw [← hn]
    simp [le, lt, hq]
  | nan =>
    unfold nearest at h
    split_ifs at h
    dsimp only at h
    split_ifs at h

theorem exponent_le {q : ℚ} (h : 0 < q) : (2 : ℚ) ^ exponent q ≤ q := by
  unfold exponent
  dsimp only
  split_ifs with hle
  · exact hle
  · have hnum : 0 < q.num := Rat.num_pos.mpr h
    have hn : (2 : ℚ) ^ Nat.log2 q.num.natAbs ≤ q.num.natAbs := by
      exact_mod_cast Nat.log2_self_le (by omega)
    have hd : (q.den : ℚ) ≤ 2 ^ (Nat.log2 q.den + 1) := by
      exact_mod_cast (Nat.lt_log2_self (n := q.den)).le
    have hden : (0 : ℚ) < q.den := by exact_mod_cast q.den_pos
    have habs : ((q.num.natAbs : ℕ) : ℚ) = (q.num : ℚ) := by
      rw [← Int.cast_natCast, Int.natAbs_of_nonneg hnum.le]
    rw [habs] at hn
    have hpow : (2 : ℚ) ^ ((Nat.log2 q.num.natAbs : ℤ) - Nat.log2 q.den - 1) =
        2 ^ Nat.log2 q.num.natAbs / 2 ^ (Nat.log2 q.den + 1) := by
      rw [show ((Nat.log2 q.num.natAbs : ℤ) - Nat.log2 q.den - 1) =
        (Nat.log2 q.num.natAbs : ℤ) - ((Nat.log2 q.den + 1 : ℕ) : ℤ) by push_cast; ring,
        zpow_sub₀ (by norm_num), zpow_natCast, zpow_natCast]
    rw [hpow]
    calc (2 : ℚ) ^ Nat.log2 q.num.natAbs / 2 ^ (Nat.log2 q.den + 1)
        ≤ q.num / 2 ^ (Nat.log2 q.den + 1) := by gcongr
      _ ≤ q.num / q.den := by
        apply div_le_div_of_nonneg_left _ hden hd
        exact_mod_cast hnum.le
      _ = q := Rat.num_div_den q

theorem halfEven_le {y : ℚ} {n : ℤ} (h : y ≤ n) : halfEven y ≤ n := by
  have hfloor : ⌊y⌋ ≤ n := by exact_mod_cast (Int.floor_le y).trans h
  -- Rounding up needs a part beyond the floor, which is then below `n`.
  have hup (hf : ¬y - ⌊y⌋ < 1 / 2) : ⌊y⌋ + 1 ≤ n := by
    have hlt : (⌊y⌋ : ℚ) < n := by linarith
    exact_mod_cast hlt
  unfold halfEven
  dsimp only
  split_ifs with h1 h2 h3
  · exact hfloor
  · exact hup h1
  · exact hfloor
  · exact hup h1

theorem le_halfEven {y : ℚ} {n : ℤ} (h : (n : ℚ) ≤ y) : n ≤ halfEven y := by
  have hfloor : n ≤ ⌊y⌋ := Int.le_floor.mpr h
  unfold halfEven
  dsimp only
  split_ifs <;> omega

/-- A multiple of the spacing that bounds a rational bounds its double too. -/
theorem nearest_of_multiple {x M : ℚ} {n : ℤ} (hM : (n : ℚ) * spacing x = M) (hx : |x| ≤ M)
    (hlt : M < 2 ^ 1024) : ∃ r, nearest x = .finite r ∧ |r| ≤ M := by
  have hs : 0 < spacing x := spacing_pos x
  by_cases h0 : x = 0
  · refine ⟨0, by simp [nearest, h0], ?_⟩
    rw [abs_zero]
    exact (abs_nonneg x).trans hx
  have hbound : |x / spacing x| ≤ n := by
    rw [abs_div, abs_of_pos hs, div_le_iff₀ hs, hM]
    exact hx
  obtain ⟨hlo, hhi⟩ := abs_le.mp hbound
  have hle : halfEven (x / spacing x) ≤ n := halfEven_le hhi
  have hge : -n ≤ halfEven (x / spacing x) := le_halfEven (by exact_mod_cast hlo)
  have habs : |(halfEven (x / spacing x) : ℚ) * spacing x| ≤ M := by
    rw [abs_mul, abs_of_pos hs, ← hM]
    apply mul_le_mul_of_nonneg_right _ hs.le
    exact_mod_cast abs_le.mpr ⟨hge, hle⟩
  refine ⟨halfEven (x / spacing x) * spacing x, ?_, habs⟩
  rw [nearest, if_neg h0]
  dsimp only
  rw [if_pos (lt_of_le_of_lt habs hlt)]

/-- The spacing below `2 ^ (k + 1)`, as a power of two. -/
theorem spacing_eq {x : ℚ} {k : ℕ} (hx : x ≠ 0) (h : |x| < 2 ^ (k + 1)) :
    ∃ j : ℕ, spacing x = 2 ^ ((k : ℤ) - j) ∧ 52 ≤ j := by
  have hlt : (2 : ℚ) ^ exponent |x| < 2 ^ ((k : ℤ) + 1) := by
    refine lt_of_le_of_lt (exponent_le (abs_pos.mpr hx)) ?_
    exact_mod_cast h
  have he : exponent |x| < (k : ℤ) + 1 := (zpow_lt_zpow_iff_right₀ (by norm_num)).mp hlt
  refine ⟨((k : ℤ) - Max.max (exponent |x| - 52) (-1074)).toNat, ?_, ?_⟩
  · rw [spacing, Int.toNat_of_nonneg (by omega)]
    congr 1
    ring
  · omega

/-- No rational up to the largest double rounds to an infinity. -/
theorem nearest_finite {x : ℚ} (h : |x| ≤ 2 ^ 1024 - 2 ^ 971) : ∃ r, nearest x = .finite r := by
  by_cases hx : x = 0
  · exact ⟨0, by simp [nearest, hx]⟩
  have hlt : |x| < 2 ^ (1023 + 1) := lt_of_le_of_lt h (by norm_num)
  obtain ⟨j, hs, hj⟩ := spacing_eq hx hlt
  obtain ⟨i, rfl⟩ : ∃ i, j = 52 + i := ⟨j - 52, by omega⟩
  have hz : (2 : ℚ) ^ ((1023 : ℤ) - (52 + i : ℕ)) * 2 ^ i = 2 ^ 971 := by
    rw [← zpow_natCast (2 : ℚ) i, ← zpow_add₀ (by norm_num),
      show ((1023 : ℤ) - (52 + i : ℕ) + i) = ((971 : ℕ) : ℤ) by push_cast; ring, zpow_natCast]
  have hmax : ((2 ^ (53 + i) - 2 ^ i : ℤ) : ℚ) * spacing x = 2 ^ 1024 - 2 ^ 971 := by
    have htop : (2 : ℚ) ^ 1024 = 2 ^ 53 * 2 ^ 971 := by rw [← pow_add]
    rw [hs]
    push_cast at hz ⊢
    rw [pow_add, htop]
    generalize (2 : ℚ) ^ 971 = y at hz
    linear_combination ((2 : ℚ) ^ 53 - 1) * hz
  obtain ⟨r, hr, _⟩ := nearest_of_multiple hmax h (by norm_num)
  exact ⟨r, hr⟩

/-- A power of two bounds the double of what it bounds. -/
theorem nearest_le_two_pow {x : ℚ} {k : ℕ} (hk : k ≤ 1023) (h : |x| ≤ 2 ^ k) :
    ∃ r, nearest x = .finite r ∧ |r| ≤ 2 ^ k := by
  by_cases hx : x = 0
  · exact ⟨0, by simp [nearest, hx], by simp⟩
  have hlt : |x| < 2 ^ (k + 1) := lt_of_le_of_lt h (pow_lt_pow_right₀ (by norm_num) (by omega))
  obtain ⟨j, hs, _⟩ := spacing_eq hx hlt
  refine nearest_of_multiple (n := 2 ^ j) ?_ h (pow_lt_pow_right₀ (by norm_num) (by omega))
  rw [hs]
  push_cast
  rw [← zpow_natCast (2 : ℚ) j, ← zpow_add₀ (by norm_num), ← zpow_natCast]
  congr 1
  ring

theorem two_pow_le_max {k : ℕ} (h : k ≤ 1023) : (2 : ℚ) ^ k ≤ 2 ^ 1024 - 2 ^ 971 := by
  have hk : (2 : ℚ) ^ k ≤ 2 ^ 1023 := pow_le_pow_right₀ (by norm_num) h
  have hlow : (2 : ℚ) ^ 971 ≤ 2 ^ 1023 := pow_le_pow_right₀ (by norm_num) (by norm_num)
  have htop : (2 : ℚ) ^ 1024 = 2 * 2 ^ 1023 := by rw [← pow_succ']
  rw [htop]
  generalize (2 : ℚ) ^ 1023 = x at hk hlow
  generalize (2 : ℚ) ^ 971 = y at hlow
  linarith

theorem lt_of_nearest {x r : ℚ} (h : nearest x = .finite r) : |r| < 2 ^ 1024 := by
  unfold nearest at h
  split_ifs at h with h0
  · obtain rfl := Value.finite.inj h
    norm_num
  · dsimp only at h
    split_ifs at h with hlt
    rw [← Value.finite.inj h]
    exact hlt

theorem lt_exponent {q : ℚ} (h : 0 < q) : q < 2 ^ (exponent q + 1) := by
  unfold exponent
  dsimp only
  split_ifs with hle
  · have hnum : 0 < q.num := Rat.num_pos.mpr h
    have hn : (q.num.natAbs : ℚ) < 2 ^ (Nat.log2 q.num.natAbs + 1) := by
      exact_mod_cast Nat.lt_log2_self (n := q.num.natAbs)
    have hd : (2 : ℚ) ^ Nat.log2 q.den ≤ q.den := by
      exact_mod_cast Nat.log2_self_le q.den_nz
    have habs : ((q.num.natAbs : ℕ) : ℚ) = (q.num : ℚ) := by
      rw [← Int.cast_natCast, Int.natAbs_of_nonneg hnum.le]
    rw [habs] at hn
    have hpow : (2 : ℚ) ^ ((Nat.log2 q.num.natAbs : ℤ) - Nat.log2 q.den + 1) =
        2 ^ (Nat.log2 q.num.natAbs + 1) / 2 ^ Nat.log2 q.den := by
      rw [show ((Nat.log2 q.num.natAbs : ℤ) - Nat.log2 q.den + 1) =
        ((Nat.log2 q.num.natAbs + 1 : ℕ) : ℤ) - (Nat.log2 q.den : ℤ) by push_cast; ring,
        zpow_sub₀ (by norm_num), zpow_natCast, zpow_natCast]
    rw [hpow]
    calc q = q.num / q.den := (Rat.num_div_den q).symm
      _ ≤ q.num / 2 ^ Nat.log2 q.den := by
        apply div_le_div_of_nonneg_left _ (by positivity) hd
        exact_mod_cast hnum.le
      _ < 2 ^ (Nat.log2 q.num.natAbs + 1) / 2 ^ Nat.log2 q.den := by gcongr
  · rw [sub_add_cancel]
    exact not_le.mp hle

theorem exponent_mono {x y : ℚ} (hx : 0 < x) (h : x ≤ y) : exponent x ≤ exponent y := by
  have hlt : (2 : ℚ) ^ exponent x < 2 ^ (exponent y + 1) :=
    (exponent_le hx).trans_lt (h.trans_lt (lt_exponent (hx.trans_le h)))
  have := (zpow_lt_zpow_iff_right₀ (by norm_num)).mp hlt
  omega

theorem halfEven_mono {x y : ℚ} (h : x ≤ y) : halfEven x ≤ halfEven y := by
  have hfloor : ⌊x⌋ ≤ ⌊y⌋ := Int.floor_le_floor h
  unfold halfEven
  dsimp only
  rcases hfloor.eq_or_lt with heq | hlt
  · rw [← heq]
    have hpart : x - ⌊x⌋ ≤ y - ⌊x⌋ := by linarith
    split_ifs <;> first | omega | linarith
  · split_ifs <;> omega

/-- A power of two between two rationals whose neighbouring doubles differ in their distance. -/
theorem exists_between {x y : ℚ} (hx : 0 < x) (h : x ≤ y) (hs : spacing x ≠ spacing y) :
    ∃ M : ℚ, x ≤ M ∧ M ≤ y ∧ (∃ n : ℤ, (n : ℚ) * spacing x = M) ∧ ∃ n : ℤ, (n : ℚ) * spacing y = M := by
  have hy : 0 < y := hx.trans_le h
  have hexp := exponent_mono hx h
  rw [spacing, spacing, abs_of_pos hx, abs_of_pos hy] at hs
  have hne : Max.max (exponent x - 52) (-1074) ≠ Max.max (exponent y - 52) (-1074) :=
    fun heq => hs (by rw [heq])
  have hmultiple : ∀ e : ℤ, e ≤ exponent y → ∃ n : ℤ, (n : ℚ) * 2 ^ e = 2 ^ exponent y := by
    intro e he
    obtain ⟨j, hj⟩ := Int.eq_ofNat_of_zero_le (sub_nonneg.mpr he)
    refine ⟨2 ^ j, ?_⟩
    push_cast
    rw [← zpow_natCast, ← zpow_add₀ (by norm_num), ← hj, sub_add_cancel]
  refine ⟨2 ^ exponent y, ?_, exponent_le hy, ?_, ?_⟩
  · refine (lt_exponent hx).le.trans (zpow_le_zpow_right₀ (by norm_num) ?_)
    omega
  · rw [spacing, abs_of_pos hx]
    exact hmultiple _ (by omega)
  · rw [spacing, abs_of_pos hy]
    exact hmultiple _ (by omega)

/-- Rounding keeps the order. -/
theorem nearest_mono {x y : ℚ} (hx : 0 < x) (h : x ≤ y) : le (nearest x) (nearest y) = true := by
  have hy : 0 < y := hx.trans_le h
  have hsx := spacing_pos x
  have hsy := spacing_pos y
  have hle : (halfEven (x / spacing x) : ℚ) * spacing x ≤ halfEven (y / spacing y) * spacing y := by
    by_cases hs : spacing x = spacing y
    · rw [← hs]
      apply mul_le_mul_of_nonneg_right _ hsx.le
      exact_mod_cast halfEven_mono (by gcongr)
    · obtain ⟨M, hxM, hMy, ⟨m, hm⟩, n, hn⟩ := exists_between hx h hs
      have hlow : halfEven (x / spacing x) ≤ m := by
        apply halfEven_le
        rw [div_le_iff₀ hsx, hm]
        exact hxM
      have hhigh : n ≤ halfEven (y / spacing y) := by
        apply le_halfEven
        rw [le_div_iff₀ hsy, hn]
        exact hMy
      calc (halfEven (x / spacing x) : ℚ) * spacing x ≤ m * spacing x := by gcongr
        _ = n * spacing y := by rw [hm, hn]
        _ ≤ halfEven (y / spacing y) * spacing y := by gcongr
  have hnonneg : (0 : ℚ) ≤ halfEven (x / spacing x) * spacing x := by
    have hpart : 0 ≤ halfEven (x / spacing x) := halfEven_nonneg (by positivity)
    exact mul_nonneg (by exact_mod_cast hpart) hsx.le
  rw [nearest, nearest, if_neg hx.ne', if_neg hy.ne']
  dsimp only
  rw [abs_of_nonneg hnonneg, abs_of_nonneg (hnonneg.trans hle)]
  split_ifs with hfx hfy hfy
  · simpa [le, lt] using hle
  · simp [le, lt, hy.le]
  · exact absurd (hle.trans_lt hfy) hfx
  · simp [le, lt, hy.le]

theorem nearest_nonpos {x : ℚ} (h : x ≤ 0) : le (nearest x) (.finite 0) = true := by
  rw [nearest]
  split_ifs with h0
  · simp [le, lt]
  · have hneg : x < 0 := lt_of_le_of_ne h h0
    have hs := spacing_pos x
    have hpart : halfEven (x / spacing x) ≤ 0 := by
      apply halfEven_le
      rw [Int.cast_zero]
      exact div_nonpos_of_nonpos_of_nonneg h hs.le
    have hr : (halfEven (x / spacing x) : ℚ) * spacing x ≤ 0 :=
      mul_nonpos_of_nonpos_of_nonneg (by exact_mod_cast hpart) hs.le
    dsimp only
    split_ifs
    · simpa [le, lt] using hr
    · simp [le, lt, hneg]

end PurdueAF.Binary64
