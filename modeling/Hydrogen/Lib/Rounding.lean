import Hydrogen.Lib.ExtRat
import Mathlib.Data.Int.Log

/-!
# Rounding to a binary format

A binary floating-point format has so many digits, a smallest unit and a largest exponent. `BinaryFormat.round` rounds a
rational to the nearest number of the format, the even one of two that are as near, and to an infinity if it is too
large. A number is looked at in its unit, the place of its last digit (`BinaryFormat.unit`); whatever is a whole number
of units bounds what is rounded (`le_roundUnits`, `roundUnits_le`), and from that rounding is monotone
(`BinaryFormat.round_mono`) and leaves alone what has few enough digits (`BinaryFormat.round_of_digits`).
-/

/-! ## Nearest integers -/

/-- The nearest integer, the even one of two. -/
def nearestInt (x : ℚ) : ℤ :=
  if x - ⌊x⌋ < 1 / 2 then ⌊x⌋
  else if 1 / 2 < x - ⌊x⌋ then ⌊x⌋ + 1
  else if ⌊x⌋ % 2 = 0 then ⌊x⌋
  else ⌊x⌋ + 1

theorem nearestInt_intCast (n : ℤ) : nearestInt n = n := by
  unfold nearestInt
  rw [Int.floor_intCast, if_pos (by norm_num)]

theorem floor_le_nearestInt (x : ℚ) : ⌊x⌋ ≤ nearestInt x ∧ nearestInt x ≤ ⌊x⌋ + 1 := by
  unfold nearestInt
  split_ifs <;> omega

theorem nearestInt_mono {x y : ℚ} (h : x ≤ y) : nearestInt x ≤ nearestInt y := by
  have hx := floor_le_nearestInt x
  have hy := floor_le_nearestInt y
  rcases (Int.floor_mono h).lt_or_eq with hlt | heq
  · omega
  · -- between the same two integers
    unfold nearestInt
    rw [heq]
    split_ifs <;> first | omega | (exfalso; linarith)

theorem le_nearestInt {n : ℤ} {x : ℚ} (h : (n : ℚ) ≤ x) : n ≤ nearestInt x := by
  rw [← nearestInt_intCast n]
  exact nearestInt_mono h

theorem nearestInt_le {n : ℤ} {x : ℚ} (h : x ≤ n) : nearestInt x ≤ n := by
  rw [← nearestInt_intCast n]
  exact nearestInt_mono h

/-! ## Multiples of a power of two -/

/-- A whole number of units of `2 ^ e`. -/
def IsUnits (e : ℤ) (v : ℚ) : Prop := ∃ n : ℤ, v = n * 2 ^ e

theorem isUnits_zero (e : ℤ) : IsUnits e 0 := ⟨0, by simp⟩

theorem isUnits_of_le {e k : ℤ} (h : e ≤ k) (n : ℤ) : IsUnits e (n * 2 ^ k) := by
  refine ⟨n * 2 ^ (k - e).toNat, ?_⟩
  have hk : (2 : ℚ) ^ k = 2 ^ (k - e).toNat * 2 ^ e := by
    rw [← zpow_natCast, ← zpow_add₀ (by norm_num)]
    congr 1
    omega
  rw [hk]
  push_cast
  ring

theorem isUnits_pow {e k : ℤ} (h : e ≤ k) : IsUnits e (2 ^ k) := by
  simpa using isUnits_of_le h 1

theorem IsUnits.neg {e : ℤ} {v : ℚ} (h : IsUnits e v) : IsUnits e (-v) := by
  obtain ⟨n, rfl⟩ := h
  exact ⟨-n, by push_cast; ring⟩

theorem two_zpow_pos (e : ℤ) : (0 : ℚ) < 2 ^ e := zpow_pos (by norm_num) e

theorem two_zpow_le {e k : ℤ} (h : e ≤ k) : (2 : ℚ) ^ e ≤ 2 ^ k := zpow_le_zpow_right₀ (by norm_num) h

/-- `x` rounded to a whole number of units. -/
def roundUnits (e : ℤ) (x : ℚ) : ℚ := nearestInt (x / 2 ^ e) * 2 ^ e

theorem roundUnits_mono (e : ℤ) {x y : ℚ} (h : x ≤ y) : roundUnits e x ≤ roundUnits e y := by
  have hpos := two_zpow_pos e
  have hle := nearestInt_mono ((div_le_div_iff_of_pos_right hpos).mpr h)
  exact mul_le_mul_of_nonneg_right (by exact_mod_cast hle) hpos.le

theorem roundUnits_of_isUnits {e : ℤ} {v : ℚ} (h : IsUnits e v) : roundUnits e v = v := by
  obtain ⟨n, rfl⟩ := h
  rw [roundUnits, mul_div_cancel_right₀ _ (two_zpow_pos e).ne', nearestInt_intCast]

theorem le_roundUnits {e : ℤ} {v x : ℚ} (hv : IsUnits e v) (h : v ≤ x) : v ≤ roundUnits e x := by
  rw [← roundUnits_of_isUnits hv]
  exact roundUnits_mono e h

theorem roundUnits_le {e : ℤ} {v x : ℚ} (hv : IsUnits e v) (h : x ≤ v) : roundUnits e x ≤ v := by
  rw [← roundUnits_of_isUnits hv]
  exact roundUnits_mono e h

/-! ## Formats -/

/-- A binary format: its numbers have so many digits and are whole numbers of `2 ^ least`, below `2 ^ top`. -/
structure BinaryFormat where
  digits : ℕ
  least : ℤ
  top : ℕ
  one_le_digits : 1 ≤ digits

/-- Single precision. -/
def binary32 : BinaryFormat := ⟨24, -149, 128, by decide⟩

/-- Double precision. -/
def binary64 : BinaryFormat := ⟨53, -1074, 1024, by decide⟩

namespace BinaryFormat

variable (f : BinaryFormat)

/-- The place of the last digit of a number. -/
def unit (x : ℚ) : ℤ := max f.least (Int.log 2 |x| - f.digits + 1)

/-- The nearest number with enough digits. -/
def nearest (x : ℚ) : ℚ := roundUnits (f.unit x) x

/-- Round to nearest, ties to even; what is too large is infinite. -/
def round (x : ℚ) : ExtRat :=
  if ((2 ^ f.top : ℕ) : ℚ) ≤ f.nearest x then .posInf
  else if f.nearest x ≤ -((2 ^ f.top : ℕ) : ℚ) then .negInf
  else .fin (f.nearest x)

variable {f}

theorem least_le_unit (x : ℚ) : f.least ≤ f.unit x := le_max_left _ _

theorem log_lt_unit (x : ℚ) : Int.log 2 |x| + 1 ≤ f.unit x + f.digits := by
  have := le_max_right f.least (Int.log 2 |x| - f.digits + 1)
  unfold unit
  omega

theorem unit_abs_mono {x y : ℚ} (hx : 0 < |x|) (h : |x| ≤ |y|) : f.unit x ≤ f.unit y := by
  have := Int.log_mono_right (b := 2) hx h
  unfold unit
  omega

/-- Between two numbers with different units lies a power of two. -/
theorem pow_between {x y : ℚ} (hx : 0 < |x|) (h : |x| ≤ |y|) (hlt : f.unit x < f.unit y) :
    ∃ e : ℤ, |x| ≤ 2 ^ e ∧ 2 ^ e ≤ |y| ∧ f.unit x ≤ e ∧ f.unit y ≤ e := by
  have hdigits := f.one_le_digits
  have hlog : f.unit y = Int.log 2 |y| - f.digits + 1 ∧ Int.log 2 |x| < Int.log 2 |y| := by
    unfold unit at hlt ⊢
    omega
  have hlow := Int.zpow_log_le_self (b := 2) (by decide) (hx.trans_le h)
  have hhigh := Int.lt_zpow_succ_log_self (b := 2) (by decide) |x|
  have hle := two_zpow_le (show Int.log 2 |x| + 1 ≤ Int.log 2 |y| by omega)
  push_cast at hlow hhigh
  exact ⟨Int.log 2 |y|, hhigh.le.trans hle, hlow, by omega, by omega⟩

theorem nearest_nonneg {x : ℚ} (h : 0 ≤ x) : 0 ≤ f.nearest x := le_roundUnits (isUnits_zero _) h

theorem nearest_nonpos {x : ℚ} (h : x ≤ 0) : f.nearest x ≤ 0 := roundUnits_le (isUnits_zero _) h

theorem nearest_mono {x y : ℚ} (h : x ≤ y) : f.nearest x ≤ f.nearest y := by
  rcases le_or_gt x 0 with hx | hx
  · rcases le_or_gt 0 y with hy | hy
    · exact (nearest_nonpos hx).trans (nearest_nonneg hy)
    · -- both negative: `y` is the smaller one
      have hy0 : 0 < |y| := abs_pos.mpr hy.ne
      have habs : |y| ≤ |x| := by
        rw [abs_of_neg hy, abs_of_nonpos hx]
        linarith
      rcases (unit_abs_mono (f := f) hy0 habs).lt_or_eq with hlt | heq
      · obtain ⟨e, h1, h2, h3, h4⟩ := pow_between hy0 habs hlt
        rw [abs_of_neg hy] at h1
        rw [abs_of_nonpos hx] at h2
        exact (roundUnits_le (isUnits_pow h4).neg (le_neg.mpr h2)).trans
          (le_roundUnits (isUnits_pow h3).neg (neg_le.mpr h1))
      · unfold nearest
        rw [heq]
        exact roundUnits_mono _ h
  · have hx0 : 0 < |x| := abs_pos.mpr hx.ne'
    have habs : |x| ≤ |y| := by rwa [abs_of_pos hx, abs_of_pos (hx.trans_le h)]
    rcases (unit_abs_mono (f := f) hx0 habs).lt_or_eq with hlt | heq
    · obtain ⟨e, h1, h2, h3, h4⟩ := pow_between hx0 habs hlt
      rw [abs_of_pos hx] at h1
      rw [abs_of_pos (hx.trans_le h)] at h2
      exact (roundUnits_le (isUnits_pow h3) h1).trans (le_roundUnits (isUnits_pow h4) h2)
    · unfold nearest
      rw [heq]
      exact roundUnits_mono _ h

/-- **Rounding is monotone**, so its results are numbers or infinities. -/
theorem round_mono {x y : ℚ} (h : x ≤ y) : (f.round x).le (f.round y) = true := by
  have hle := nearest_mono (f := f) h
  unfold round
  split_ifs <;> first
    | rfl
    | exact decide_eq_true hle
    | (exfalso; linarith)

/-- A number with few enough digits is a whole number of its units. -/
theorem isUnits_of_digits {n k : ℤ} (hn : |n| ≤ 2 ^ f.digits) (hk : f.least ≤ k) :
    IsUnits (f.unit (n * 2 ^ k)) (n * 2 ^ k) := by
  by_cases hzero : n = 0
  · rw [hzero, Int.cast_zero, zero_mul]
    exact isUnits_zero _
  have hdigits := f.one_le_digits
  have hpos : (0 : ℚ) < |(n : ℚ) * 2 ^ k| := abs_pos.mpr (mul_ne_zero (by exact_mod_cast hzero) (two_zpow_pos k).ne')
  have habs : |(n : ℚ) * 2 ^ k| = |(n : ℚ)| * 2 ^ k := by rw [abs_mul, abs_of_pos (two_zpow_pos k)]
  have hpow : (2 : ℚ) ^ (f.digits : ℤ) * 2 ^ k = 2 ^ (f.digits + k : ℤ) := (zpow_add₀ (by norm_num) _ _).symm
  rcases hn.lt_or_eq with hlt | heq
  · -- the unit is not above `k`
    have hlt' : |(n : ℚ) * 2 ^ k| < 2 ^ (f.digits + k : ℤ) := by
      rw [habs, ← hpow]
      refine mul_lt_mul_of_pos_right ?_ (two_zpow_pos k)
      rw [zpow_natCast]
      exact_mod_cast hlt
    have hlog : Int.log 2 |(n : ℚ) * 2 ^ k| < f.digits + k :=
      (Int.lt_zpow_iff_log_lt (by decide) hpos).mp (by exact_mod_cast hlt')
    refine isUnits_of_le ?_ n
    unfold unit
    omega
  · -- a power of two
    have habs' : |(n : ℚ) * 2 ^ k| = ((2 : ℕ) : ℚ) ^ (f.digits + k : ℤ) := by
      rw [habs]
      push_cast
      rw [← hpow, zpow_natCast]
      congr 1
      exact_mod_cast heq
    have hunit : f.unit (n * 2 ^ k) ≤ f.digits + k := by
      unfold unit
      rw [habs', Int.log_zpow (by decide)]
      omega
    have hunits : IsUnits (f.unit (n * 2 ^ k)) |(n : ℚ) * 2 ^ k| := by
      rw [habs']
      exact_mod_cast isUnits_pow hunit
    rcases abs_choice ((n : ℚ) * 2 ^ k) with h | h
    · rwa [h] at hunits
    · rw [h] at hunits
      simpa using hunits.neg

/-- **What has few enough digits is left alone.** -/
theorem round_of_digits {n k : ℤ} (hn : |n| ≤ 2 ^ f.digits) (hk : f.least ≤ k)
    (hsize : |(n : ℚ) * 2 ^ k| < ((2 ^ f.top : ℕ) : ℚ)) : f.round (n * 2 ^ k) = .fin (n * 2 ^ k) := by
  have hnearest : f.nearest (n * 2 ^ k) = n * 2 ^ k := roundUnits_of_isUnits (isUnits_of_digits hn hk)
  obtain ⟨hlo, hhi⟩ := abs_lt.mp hsize
  rw [round, hnearest, if_neg (not_le.mpr hhi), if_neg (not_le.mpr hlo)]

theorem nearest_digits (x : ℚ) : ∃ n : ℤ, |n| ≤ 2 ^ f.digits ∧ f.nearest x = n * 2 ^ f.unit x := by
  refine ⟨_, ?_, rfl⟩
  have hpos := two_zpow_pos (f.unit x)
  have hlt : |x| ≤ ((2 ^ f.digits : ℤ) : ℚ) * 2 ^ f.unit x := by
    have h1 := Int.lt_zpow_succ_log_self (b := 2) (by decide) |x|
    have h2 := two_zpow_le (log_lt_unit (f := f) x)
    rw [zpow_add₀ two_ne_zero (f.unit x), zpow_natCast, mul_comm] at h2
    push_cast at h1 ⊢
    exact h1.le.trans h2
  obtain ⟨hlo, hhi⟩ := abs_le.mp hlt
  refine abs_le.mpr ⟨le_nearestInt ?_, nearestInt_le ?_⟩
  · rw [le_div_iff₀ hpos]
    push_cast at hlo ⊢
    linarith
  · rw [div_le_iff₀ hpos]
    exact hhi

/-- What was rounded is left alone. -/
theorem round_idem {x y : ℚ} (h : f.round x = .fin y) : f.round y = .fin y := by
  have hy : f.nearest x = y ∧ ¬((2 ^ f.top : ℕ) : ℚ) ≤ y ∧ ¬y ≤ -((2 ^ f.top : ℕ) : ℚ) := by
    unfold round at h
    split_ifs at h with h1 h2
    cases h
    exact ⟨rfl, h1, h2⟩
  obtain ⟨rfl, h1, h2⟩ := hy
  obtain ⟨n, hn, heq⟩ := nearest_digits (f := f) x
  rw [heq] at h1 h2 ⊢
  exact round_of_digits hn (least_le_unit x) (abs_lt.mpr ⟨not_le.mp h2, not_le.mp h1⟩)

end BinaryFormat

/-- A tenth in single precision. -/
example : binary32.round (1 / 10) = .fin (13421773 / 2 ^ 27) := by decide +kernel
