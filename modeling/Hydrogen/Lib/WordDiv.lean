import Mathlib.Data.Int.Basic
import Mathlib.Data.Nat.Basic
import Mathlib.Tactic.Linarith
import Mathlib.Tactic.Ring

/-!
# Dividing a negative number as an unsigned word

In C an `int` divided by a `size_t` is converted first: a negative number `-a` becomes `2 ^ 64 - a`, and the low 32 bits
of the quotient are the result. `toInt_udiv_iff` says for which divisors and numbers that is the quotient C gives for two
`int`s.
-/

namespace WordDiv

/-! ## The quotient of the word size -/

section Quotient

variable {B m : Nat}

/-- The low digit of the quotient of `B * B` and the remainder make a multiple of `B`. -/
theorem dvd_mul_quotient_mod_add (m : Nat) : B ∣ m * (B * B / m % B) + B * B % m := by
  have hdiv := Nat.div_add_mod (B * B) m
  have hQ := Nat.div_add_mod (B * B / m) B
  have hall : m * (B * (B * B / m / B)) + (m * (B * B / m % B) + B * B % m) = B * B := by
    calc m * (B * (B * B / m / B)) + (m * (B * B / m % B) + B * B % m)
        = m * (B * (B * B / m / B) + B * B / m % B) + B * B % m := by ring
      _ = B * B := by rw [hQ, hdiv]
  have hleft : B ∣ m * (B * (B * B / m / B)) := ⟨m * (B * B / m / B), by ring⟩
  exact (Nat.dvd_add_right hleft).mp (Dvd.intro B hall.symm)

/-- A quotient of more than one digit has a divisor up to `B`. -/
theorem le_of_quotient_mod_ne (h1 : 1 ≤ m) (h : B * B / m % B ≠ B * B / m) : m ≤ B := by
  by_contra hgt
  have hB : 0 < B := by
    rcases Nat.eq_zero_or_pos B with rfl | hpos
    · exact absurd (Nat.mod_zero _) h
    · exact hpos
  have hlow : B * B / m < B := (Nat.div_lt_iff_lt_mul h1).mpr (Nat.mul_lt_mul_of_pos_left (by omega) hB)
  exact h (Nat.mod_eq_of_lt hlow)

/-- The quotient of `B * B` is a multiple of `B` for the divisors of `B` only. -/
theorem quotient_mod_eq_zero_iff (h1 : 1 ≤ m) (h2 : m ≤ B * B) : B * B / m % B = 0 ↔ m ∣ B := by
  constructor
  · intro h
    have hpos : 0 < B * B / m := Nat.div_pos h2 h1
    have hle : m ≤ B := le_of_quotient_mod_ne h1 (by omega)
    have hzero : B * B % m = 0 := by
      have hdvd := @dvd_mul_quotient_mod_add B m
      rw [h, Nat.mul_zero, Nat.zero_add] at hdvd
      have hlt := Nat.mod_lt (B * B) h1
      exact Nat.eq_zero_of_dvd_of_lt hdvd (by omega)
    obtain ⟨j, hj⟩ := Nat.dvd_of_mod_eq_zero h
    have hdiv := Nat.div_add_mod (B * B) m
    rw [hj, hzero, Nat.add_zero] at hdiv
    refine ⟨j, Nat.eq_of_mul_eq_mul_left (Nat.lt_of_lt_of_le h1 hle) ?_⟩
    rw [← hdiv]
    ring
  · rintro ⟨t, rfl⟩
    have hdiv : m * t * (m * t) / m = m * t * t := by
      rw [Nat.mul_assoc, Nat.mul_div_cancel_left _ h1]
      ring
    rw [hdiv]
    exact Nat.mul_mod_right _ _

/-- The square of `B` divided by `B - 1`. -/
theorem square_div_pred (hB : 3 ≤ B) : B * B / (B - 1) = B + 1 ∧ B * B % (B - 1) = 1 := by
  obtain ⟨b, rfl⟩ : ∃ b, B = b + 1 := ⟨B - 1, by omega⟩
  have hsq : (b + 1) * (b + 1) = 1 + b * (b + 1 + 1) := by ring
  rw [Nat.add_sub_cancel, hsq]
  constructor
  · rw [Nat.add_mul_div_left _ _ (by omega), Nat.div_eq_of_lt (by omega)]
    omega
  · rw [Nat.add_mul_mod_self_left, Nat.mod_eq_of_lt (by omega)]

/-- If the quotient is one more than a multiple, the divisor and the remainder add up to `B`. -/
theorem add_mod_of_quotient_mod (h1 : 1 ≤ m) (hle : m ≤ B) (h : B * B / m % B = 1) : m + B * B % m = B := by
  have hlt := Nat.mod_lt (B * B) h1
  have hdvd := @dvd_mul_quotient_mod_add B m
  rw [h, Nat.mul_one] at hdvd
  obtain ⟨t, ht⟩ := hdvd
  have htpos : 0 < t := Nat.pos_of_mul_pos_left (show 0 < B * t by omega)
  have ht1 : t = 1 := by
    by_contra hne
    have : B * 2 ≤ B * t := Nat.mul_le_mul_left B (by omega)
    omega
  rw [ht, ht1, Nat.mul_one]

/-- And the divisor times the high digit of the quotient is `B - 1`. -/
theorem mul_digit_of_quotient_mod (h1 : 1 ≤ m) (hle : m ≤ B) (h : B * B / m % B = 1) :
    m * (B * B / m / B) = B - 1 := by
  have hsum := add_mod_of_quotient_mod h1 hle h
  have hdiv := Nat.div_add_mod (B * B) m
  have hdigit := Nat.div_add_mod (B * B / m) B
  rw [h] at hdigit
  have hBj : B * (m * (B * B / m / B) + 1) = B * B := by
    calc B * (m * (B * B / m / B) + 1) = m * (B * (B * B / m / B)) + B := by ring
      _ = m * (B * (B * B / m / B)) + (m + B * B % m) := by rw [hsum]
      _ = m * (B * (B * B / m / B) + 1) + B * B % m := by ring
      _ = B * B := by rw [hdigit, hdiv]
  have := Nat.eq_of_mul_eq_mul_left (by omega) hBj
  omega

/-- It is one more than a multiple for `B - 1` only. -/
theorem quotient_mod_eq_one_iff (hB : 3 ≤ B) (h1 : 1 ≤ m) (h2 : 2 * m ≤ B * B) :
    B * B / m % B = 1 ↔ m = B - 1 := by
  constructor
  · intro h
    have hQ : 2 ≤ B * B / m := (Nat.le_div_iff_mul_le h1).mpr h2
    have hle : m ≤ B := le_of_quotient_mod_ne h1 (by omega)
    have hlt := Nat.mod_lt (B * B) h1
    have hsum := add_mod_of_quotient_mod h1 hle h
    have hprod := mul_digit_of_quotient_mod h1 hle h
    generalize B * B / m / B = j at hprod
    have hj1 : j = 1 := by
      have hjpos : 0 < j := Nat.pos_of_mul_pos_left (show 0 < m * j by omega)
      by_contra hne
      have : m * 2 ≤ m * j := Nat.mul_le_mul_left m (by omega)
      omega
    rw [hj1] at hprod
    omega
  · rintro rfl
    rw [(square_div_pred hB).1, Nat.add_mod_left, Nat.mod_eq_of_lt (by omega)]

/-- The quotients of a number and of its complement. -/
theorem div_sub_add_div {W a : Nat} (h1 : 1 ≤ m) (ha : a ≤ W) :
    (W - a) / m + a / m = if a % m ≤ W % m then W / m else W / m - 1 := by
  have hW := Nat.div_add_mod W m
  have ha' := Nat.div_add_mod a m
  have hr := Nat.mod_lt W h1
  have hc := Nat.mod_lt a h1
  have hle : a / m ≤ W / m := Nat.div_le_div_right ha
  generalize W / m = q at *
  generalize W % m = r at *
  generalize a / m = k at *
  generalize a % m = c at *
  obtain ⟨d, rfl⟩ := Nat.exists_eq_add_of_le hle
  split
  · have hsplit : W - a = (r - c) + m * d := by
      have : m * (k + d) = m * k + m * d := Nat.mul_add _ _ _
      omega
    rw [hsplit, Nat.add_mul_div_left _ _ h1, Nat.div_eq_of_lt (by omega)]
    omega
  · rename_i hgt
    have hd : 0 < d := by
      rcases Nat.eq_zero_or_pos d with rfl | hd
      · rw [Nat.add_zero] at hW
        omega
      · exact hd
    obtain ⟨e, rfl⟩ : ∃ e, d = e + 1 := ⟨d - 1, by omega⟩
    have hsplit : W - a = (m + r - c) + m * e := by
      have : m * (k + (e + 1)) = m * k + (m * e + m) := by ring
      omega
    rw [hsplit, Nat.add_mul_div_left _ _ h1, Nat.div_eq_of_lt (by omega)]
    omega

/-- The number before is a multiple. -/
theorem pred_mod_eq_zero_iff {q : Nat} (hB : 2 ≤ B) (hq : 1 ≤ q) : (q - 1) % B = 0 ↔ q % B = 1 := by
  obtain ⟨p, rfl⟩ : ∃ p, q = p + 1 := ⟨q - 1, by omega⟩
  rw [Nat.add_sub_cancel, Nat.add_mod, Nat.mod_eq_of_lt (show 1 < B by omega)]
  have := Nat.mod_lt p (show 0 < B by omega)
  rcases Nat.lt_or_ge (p % B + 1) B with hlt | hge
  · rw [Nat.mod_eq_of_lt hlt]
    omega
  · have : p % B + 1 = B := by omega
    rw [this, Nat.mod_self]
    omega

/-- The two quotients cancel in words of size `B` for exact quotients by a divisor of `B`, and for `B - 1`. -/
theorem div_sub_add_div_mod_iff {a : Nat} (hB : 3 ≤ B) (h1 : 1 ≤ m) (h2 : 2 * m ≤ B * B) (ha : 2 * a ≤ B) :
    ((B * B - a) / m + a / m) % B = 0 ↔ m ∣ B ∧ m ∣ a ∨ m = B - 1 ∧ 1 < a := by
  have haW : a ≤ B * B := by
    have : B ≤ B * B := Nat.le_mul_of_pos_left B (by omega)
    omega
  have hpred : m = B - 1 → B * B % m = 1 ∧ a % m = a := by
    rintro rfl
    exact ⟨(square_div_pred hB).2, Nat.mod_eq_of_lt (by omega)⟩
  rw [div_sub_add_div h1 haW]
  split
  · rename_i hle
    rw [quotient_mod_eq_zero_iff h1 (by omega)]
    constructor
    · intro hdvd
      have hzero : B * B % m = 0 := Nat.mod_eq_zero_of_dvd (hdvd.mul_right B)
      exact .inl ⟨hdvd, Nat.dvd_of_mod_eq_zero (by omega)⟩
    · rintro (⟨hdvd, -⟩ | ⟨hm, ha1⟩)
      · exact hdvd
      · obtain ⟨h3, h4⟩ := hpred hm
        omega
  · rename_i hgt
    have hQ : 2 ≤ B * B / m := (Nat.le_div_iff_mul_le h1).mpr h2
    rw [pred_mod_eq_zero_iff (by omega) (by omega), quotient_mod_eq_one_iff hB h1 h2]
    constructor
    · intro hm
      obtain ⟨h3, h4⟩ := hpred hm
      exact .inr ⟨hm, by omega⟩
    · rintro (⟨-, hdvd⟩ | ⟨hm, -⟩)
      · have := Nat.mod_eq_zero_of_dvd hdvd
        omega
      · exact hm

end Quotient

/-! ## Words -/

/-- The quotient is the truncated one. -/
def Exact (d : Nat) (s : Int) : Prop := 0 ≤ s ∨ d ∣ 2 ^ 32 ∧ (d : Int) ∣ s ∨ d = 2 ^ 32 - 1 ∧ s < -1

instance (d : Nat) (s : Int) : Decidable (Exact d s) := inferInstanceAs (Decidable (_ ∨ _))

/-- The conversion to `size_t`. -/
theorem toNat_signExtend_of_neg {x : BitVec 32} {a : Nat} (hx : x.toInt = -a) (ha : 1 ≤ a) :
    (x.signExtend 64).toNat = 2 ^ 64 - a := by
  have h64 : (x.signExtend 64).toInt = x.toInt := BitVec.toInt_signExtend_of_le (by decide)
  have hlt := (x.signExtend 64).isLt
  rw [BitVec.toInt_eq_toNat_cond, hx] at h64
  split at h64
  · omega
  · omega

theorem toNat_signExtend_of_nonneg {x : BitVec 32} {a : Nat} (hx : x.toInt = a) : (x.signExtend 64).toNat = a := by
  have h64 : (x.signExtend 64).toInt = x.toInt := BitVec.toInt_signExtend_of_le (by decide)
  have hlt := (x.signExtend 64).isLt
  rw [BitVec.toInt_eq_toNat_cond, hx] at h64
  split at h64
  · omega
  · omega

/-- A negative `int`, as bits. -/
theorem toInt_eq_neg_iff {y : BitVec 32} {k : Nat} (hk : k ≤ 2 ^ 31) :
    y.toInt = -k ↔ (y.toNat + k) % 2 ^ 32 = 0 := by
  have hlt := y.isLt
  rw [BitVec.toInt_eq_toNat_cond]
  split
  · omega
  · omega

/-- **Unsigned division of an `int`** gives the truncated quotient if and only if it is exact in this sense. -/
theorem toInt_udiv_iff {x : BitVec 32} {d : BitVec 64} (h1 : 1 ≤ d.toNat) (h2 : d.toNat < 2 ^ 62) :
    ((x.signExtend 64 / d).setWidth 32).toInt = x.toInt.tdiv d.toNat ↔ Exact d.toNat x.toInt := by
  have hlow := BitVec.le_toInt x
  have hhigh := @BitVec.toInt_lt 32 x
  have hq : ((x.signExtend 64 / d).setWidth 32).toNat = (x.signExtend 64).toNat / d.toNat % 2 ^ 32 := by
    rw [BitVec.toNat_setWidth, BitVec.toNat_udiv]
  rcases lt_or_ge x.toInt 0 with hneg | hpos
  · obtain ⟨a, ha⟩ : ∃ a : Nat, x.toInt = -a := ⟨x.toInt.natAbs, by omega⟩
    have hdiv : a / d.toNat ≤ a := Nat.div_le_self _ _
    have hB : (2 : Nat) ^ 64 = 2 ^ 32 * 2 ^ 32 := by norm_num
    rw [ha, Int.neg_tdiv, ← Int.ofNat_tdiv, toInt_eq_neg_iff (by omega), hq, toNat_signExtend_of_neg ha (by omega),
      Nat.mod_add_mod, hB, div_sub_add_div_mod_iff (by norm_num) h1 (by omega) (by omega)]
    unfold Exact
    rw [Int.dvd_neg, Int.natCast_dvd_natCast]
    omega
  · obtain ⟨a, ha⟩ : ∃ a : Nat, x.toInt = a := ⟨x.toInt.natAbs, by omega⟩
    have hdiv : a / d.toNat ≤ a := Nat.div_le_self _ _
    refine iff_of_true ?_ (.inl hpos)
    rw [ha, ← Int.ofNat_tdiv, BitVec.toInt_eq_toNat_of_lt, hq, toNat_signExtend_of_nonneg ha,
      Nat.mod_eq_of_lt (by omega)]
    rw [hq, toNat_signExtend_of_nonneg ha, Nat.mod_eq_of_lt (by omega)]
    omega

end WordDiv
