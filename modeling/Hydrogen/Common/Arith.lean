import Hydrogen.Lib.Rounding

/-!
# The machine's arithmetic

Costs, scores and slacks are computed in `float` and `double`. What the scheduler does with them is stated for every
arithmetic that rounds monotonically and keeps short numbers, so for the rounding of the machine (`Arith.ieee`) and for
none (`Arith.exact`). An operation is the exact one and a rounding; there is no excess precision.
-/

namespace Hydrogen

/-- What converting a float that is no number, or too large, to an `int` leaves on the machine. -/
def INT_MIN : Int := -2147483648

/-- How `float` and `double` are rounded, and what a `float` is as an `int`. -/
structure Arith where
  float : ℚ → ExtRat
  double : ℚ → ExtRat
  toInt : ExtRat → Int
  float_mono : ∀ {a b : ℚ}, a ≤ b → (float a).le (float b) = true
  double_mono : ∀ {a b : ℚ}, a ≤ b → (double a).le (double b) = true
  float_idem : ∀ {a b : ℚ}, float a = .fin b → float b = .fin b
  double_idem : ∀ {a b : ℚ}, double a = .fin b → double b = .fin b
  /-- 24 digits fit -/
  float_short : ∀ {n k : ℤ}, |n| ≤ 2 ^ 24 → -100 ≤ k → k ≤ 64 → float (n * 2 ^ k) = .fin (n * 2 ^ k)
  /-- 53 digits fit -/
  double_short : ∀ {n k : ℤ}, |n| ≤ 2 ^ 53 → -100 ≤ k → k ≤ 64 → double (n * 2 ^ k) = .fin (n * 2 ^ k)
  /-- an `int` is itself -/
  toInt_intCast : ∀ {n : ℤ}, INT_MIN ≤ n → n < 2 ^ 31 → toInt (.fin n) = n
  /-- below a number that fits, whole numbers fit -/
  toInt_pos : ∀ {x y : ExtRat}, (ExtRat.fin 1).le x = true → x.le y = true → 0 < toInt y → 0 < toInt x

namespace Arith

variable (fp : Arith)

/-- A result as a `float`. -/
def toFloat : ExtRat → ExtRat
  | .fin q => fp.float q
  | x => x

/-- A result as a `double`. -/
def toDouble : ExtRat → ExtRat
  | .fin q => fp.double q
  | x => x

/-- The sum of two `float`s. -/
def addf (x y : ExtRat) : ExtRat := fp.toFloat (x.add y)

/-- Their quotient. -/
def divf (x y : ExtRat) : ExtRat := fp.toFloat (x.div y)

/-- The sum of two `double`s. -/
def addd (x y : ExtRat) : ExtRat := fp.toDouble (x.add y)

/-- Their difference. -/
def subd (x y : ExtRat) : ExtRat := fp.toDouble (x.sub y)

/-- Their quotient. -/
def divd (x y : ExtRat) : ExtRat := fp.toDouble (x.div y)

/-! ## Rounding -/

theorem float_ne_nan (q : ℚ) : fp.float q ≠ .nan := (ExtRat.ne_nan_of_le (fp.float_mono (le_refl q))).1

theorem double_ne_nan (q : ℚ) : fp.double q ≠ .nan := (ExtRat.ne_nan_of_le (fp.double_mono (le_refl q))).1

theorem float_zero : fp.float 0 = .fin 0 := by
  have h := fp.float_short (n := 0) (k := 0) (by decide) (by decide) (by decide)
  simpa using h

theorem double_zero : fp.double 0 = .fin 0 := by
  have h := fp.double_short (n := 0) (k := 0) (by decide) (by decide) (by decide)
  simpa using h

/-- Small whole numbers are kept. -/
theorem float_natCast {n : Nat} (h : n ≤ 2 ^ 24) : fp.float n = .fin n := by
  have habs : |(n : ℤ)| ≤ 2 ^ 24 := by rw [Nat.abs_cast]; exact_mod_cast h
  simpa using fp.float_short habs (k := 0) (by decide) (by decide)

theorem double_natCast {n : Nat} (h : n ≤ 2 ^ 53) : fp.double n = .fin n := by
  have habs : |(n : ℤ)| ≤ 2 ^ 53 := by rw [Nat.abs_cast]; exact_mod_cast h
  simpa using fp.double_short habs (k := 0) (by decide) (by decide)

/-- So is a small power of two. -/
theorem float_pow {k : ℤ} (h : -100 ≤ k) (h' : k ≤ 64) : fp.float (2 ^ k) = .fin (2 ^ k) := by
  simpa using fp.float_short (n := 1) (by decide) h h'

theorem double_pow {k : ℤ} (h : -100 ≤ k) (h' : k ≤ 64) : fp.double (2 ^ k) = .fin (2 ^ k) := by
  simpa using fp.double_short (n := 1) (by decide) h h'

variable {fp}

theorem toFloat_ne_nan {x : ExtRat} (h : x ≠ .nan) : fp.toFloat x ≠ .nan := by
  cases x with
  | fin q => exact fp.float_ne_nan q
  | _ => exact h

theorem toDouble_ne_nan {x : ExtRat} (h : x ≠ .nan) : fp.toDouble x ≠ .nan := by
  cases x with
  | fin q => exact fp.double_ne_nan q
  | _ => exact h

/-- Infinities bound every number. -/
theorem le_posInf {x : ExtRat} (h : x ≠ .nan) : x.le .posInf = true := by
  cases x with
  | nan => exact absurd rfl h
  | _ => rfl

theorem negInf_le {x : ExtRat} (h : x ≠ .nan) : ExtRat.negInf.le x = true := by
  cases x with
  | nan => exact absurd rfl h
  | _ => rfl

theorem toFloat_mono {x y : ExtRat} (h : x.le y = true) : (fp.toFloat x).le (fp.toFloat y) = true := by
  obtain ⟨hx, hy⟩ := ExtRat.ne_nan_of_le h
  cases x with
  | nan => exact absurd rfl hx
  | negInf => exact negInf_le (toFloat_ne_nan hy)
  | posInf =>
    cases y with
    | posInf => rfl
    | _ => cases h
  | fin a =>
    cases y with
    | fin b => exact fp.float_mono (of_decide_eq_true h)
    | posInf => exact le_posInf (fp.float_ne_nan a)
    | _ => cases h

theorem toDouble_double (q : ℚ) : fp.toDouble (fp.double q) = fp.double q := by
  cases h : fp.double q with
  | fin b => exact fp.double_idem h
  | _ => rfl

/-- An integer has the sign of its `float`. -/
theorem float_pos_iff {n : ℤ} : (ExtRat.fin 0).lt (fp.float n) = true ↔ 0 < n := by
  have hone : fp.float (1 : ℚ) = .fin 1 := by simpa using fp.float_natCast (n := 1) (by decide)
  rw [ExtRat.lt_iff_not_le (by decide) (fp.float_ne_nan _)]
  constructor
  · intro h
    by_contra hn
    refine h ?_
    rw [← fp.float_zero]
    exact fp.float_mono (by exact_mod_cast not_lt.mp hn)
  · intro hn hle
    have hge := fp.float_mono (show (1 : ℚ) ≤ n by exact_mod_cast hn)
    rw [hone] at hge
    exact absurd (ExtRat.le_trans hge hle) (by decide)

/-- A number that is kept bounds the rest from below. -/
theorem le_toFloat {a : ℚ} {x : ExtRat} (ha : fp.float a = .fin a) (h : (ExtRat.fin a).le x = true) :
    (ExtRat.fin a).le (fp.toFloat x) = true := by
  rw [← ha]
  exact toFloat_mono h

theorem toFloat_nonneg {x : ExtRat} (h : (ExtRat.fin 0).le x = true) : (ExtRat.fin 0).le (fp.toFloat x) = true :=
  le_toFloat fp.float_zero h

end Arith

/-! ## Two arithmetics -/

/-- A number as an integer, and the integer again. -/
theorem toInt_fin_intCast (i n : ℤ) : (ExtRat.fin n).toInt i = n := by
  simp [ExtRat.toInt]

/-- Without rounding; an `int` holds every whole number. -/
def Arith.exact : Arith where
  float := .fin
  double := .fin
  toInt := ExtRat.toInt INT_MIN
  float_mono := fun h => decide_eq_true h
  double_mono := fun h => decide_eq_true h
  float_idem := fun _ => rfl
  double_idem := fun _ => rfl
  float_short := fun _ _ _ => rfl
  double_short := fun _ _ _ => rfl
  toInt_intCast := fun {n} _ _ => toInt_fin_intCast INT_MIN n
  toInt_pos := by
    intro x y h1 hxy hy
    have h0 : (ExtRat.fin 0).le (.fin 1) = true := by decide
    rcases ExtRat.nonneg_cases (ExtRat.le_trans h0 h1) with ⟨a, ha, rfl⟩ | rfl
    · rw [ExtRat.toInt_fin_of_nonneg _ ha]
      exact Int.lt_of_lt_of_le Int.zero_lt_one (Int.le_floor.mpr (by exact_mod_cast of_decide_eq_true h1))
    · cases y with
      | posInf => exact hy
      | _ => cases hxy

@[simp] theorem Arith.toFloat_exact (x : ExtRat) : Arith.exact.toFloat x = x := by
  cases x with
  | _ => rfl

@[simp] theorem Arith.toDouble_exact (x : ExtRat) : Arith.exact.toDouble x = x := by
  cases x with
  | _ => rfl

@[simp] theorem Arith.addf_exact (x y : ExtRat) : Arith.exact.addf x y = x.add y := toFloat_exact _

@[simp] theorem Arith.divf_exact (x y : ExtRat) : Arith.exact.divf x y = x.div y := toFloat_exact _

@[simp] theorem Arith.addd_exact (x y : ExtRat) : Arith.exact.addd x y = x.add y := toDouble_exact _

@[simp] theorem Arith.subd_exact (x y : ExtRat) : Arith.exact.subd x y = x.sub y := toDouble_exact _

@[simp] theorem Arith.divd_exact (x y : ExtRat) : Arith.exact.divd x y = x.div y := toDouble_exact _

@[simp] theorem Arith.float_exact (q : ℚ) : Arith.exact.float q = .fin q := rfl

@[simp] theorem Arith.double_exact (q : ℚ) : Arith.exact.double q = .fin q := rfl

/-- `int` has 32 bits, and the conversion of what does not fit is indefinite. -/
def int32 (x : ExtRat) : Int :=
  if INT_MIN ≤ x.toInt INT_MIN ∧ x.toInt INT_MIN < 2 ^ 31 then x.toInt INT_MIN else INT_MIN

/-- A positive result is the number converted. -/
theorem int32_pos {x : ExtRat} (h : 0 < int32 x) : int32 x = x.toInt INT_MIN ∧ x.toInt INT_MIN < 2 ^ 31 := by
  unfold int32 at h ⊢
  split_ifs at h ⊢ with hrange
  · exact ⟨rfl, hrange.2⟩
  · exact absurd h (by decide)

theorem abs_short_lt {n k : ℤ} {digits top : ℕ} (hn : |n| ≤ 2 ^ digits) (hk : k ≤ 64) (htop : digits + 64 < top) :
    |(n : ℚ) * 2 ^ k| < ((2 ^ top : ℕ) : ℚ) := by
  have hn' : |(n : ℚ)| ≤ 2 ^ digits := by exact_mod_cast hn
  calc |(n : ℚ) * 2 ^ k| = |(n : ℚ)| * 2 ^ k := by rw [abs_mul, abs_of_pos (two_zpow_pos k)]
    _ ≤ 2 ^ digits * 2 ^ (64 : ℤ) := mul_le_mul hn' (two_zpow_le hk) (two_zpow_pos k).le (by positivity)
    _ = 2 ^ (digits + 64) := by rw [pow_add]; norm_num
    _ < 2 ^ top := pow_lt_pow_right₀ (by norm_num) htop
    _ = ((2 ^ top : ℕ) : ℚ) := by push_cast; rfl

/-- The rounding of single and double precision. -/
def Arith.ieee : Arith where
  float := binary32.round
  double := binary64.round
  toInt := int32
  float_mono := BinaryFormat.round_mono
  double_mono := BinaryFormat.round_mono
  float_idem := BinaryFormat.round_idem
  double_idem := BinaryFormat.round_idem
  float_short := by
    intro n k hn hk hk'
    exact BinaryFormat.round_of_digits hn (le_trans (by decide) hk) (abs_short_lt hn hk' (by decide))
  double_short := by
    intro n k hn hk hk'
    exact BinaryFormat.round_of_digits hn (le_trans (by decide) hk) (abs_short_lt hn hk' (by decide))
  toInt_intCast := by
    intro n hlo hhi
    unfold int32
    rw [toInt_fin_intCast, if_pos ⟨hlo, hhi⟩]
  toInt_pos := by
    intro x y h1 hxy hy
    have h0 : (ExtRat.fin 0).le x = true := ExtRat.le_trans (by decide : (ExtRat.fin 0).le (.fin 1) = true) h1
    have hfit := int32_pos hy
    rcases ExtRat.nonneg_cases (ExtRat.le_trans h0 hxy) with ⟨b, hb, rfl⟩ | rfl
    · rcases ExtRat.nonneg_cases h0 with ⟨a, ha, rfl⟩ | rfl
      · rw [ExtRat.toInt_fin_of_nonneg _ hb] at hfit
        have hone : 1 ≤ ⌊a⌋ := Int.le_floor.mpr (by exact_mod_cast of_decide_eq_true h1)
        have hle : ⌊a⌋ ≤ ⌊b⌋ := Int.floor_mono (of_decide_eq_true hxy)
        have hmin : INT_MIN ≤ 1 := by decide
        unfold int32
        rw [ExtRat.toInt_fin_of_nonneg _ ha, if_pos ⟨by omega, by omega⟩]
        omega
      · cases hxy
    · exact absurd (hfit.1 ▸ hy) (by decide)

end Hydrogen
