import Mathlib.Data.Rat.Floor
import Mathlib.Order.WithBot
import Mathlib.Algebra.Order.Field.Rat
import Mathlib.Tactic.Linarith
import Mathlib.Tactic.Positivity

/-!
# Exact arithmetic with the special values of a floating-point number

Rationals with the two infinities and the not-a-number of a floating-point type, and with its rules: a division by
zero is an infinity or not a number, a comparison with not-a-number is false. Rounding is left out.
-/

/-- A rational, an infinity, or not a number. -/
inductive ExtRat where
  | fin (q : ℚ)
  | posInf
  | negInf
  | nan
  deriving DecidableEq

namespace ExtRat

/-- Addition; opposite infinities have no sum. -/
def add : ExtRat → ExtRat → ExtRat
  | .fin a, .fin b => .fin (a + b)
  | .nan, _ => .nan
  | _, .nan => .nan
  | .posInf, .negInf => .nan
  | .negInf, .posInf => .nan
  | .posInf, _ => .posInf
  | _, .posInf => .posInf
  | .negInf, _ => .negInf
  | _, .negInf => .negInf

def neg : ExtRat → ExtRat
  | .fin a => .fin (-a)
  | .posInf => .negInf
  | .negInf => .posInf
  | .nan => .nan

def sub (a b : ExtRat) : ExtRat := a.add b.neg

/-- Division; zero counts as positive. -/
def div : ExtRat → ExtRat → ExtRat
  | .fin a, .fin b =>
    if b = 0 then (if 0 < a then .posInf else if a < 0 then .negInf else .nan) else .fin (a / b)
  | .nan, _ => .nan
  | _, .nan => .nan
  | .fin _, .posInf => .fin 0
  | .fin _, .negInf => .fin 0
  | .posInf, .fin b => if b < 0 then .negInf else .posInf
  | .negInf, .fin b => if b < 0 then .posInf else .negInf
  | .posInf, _ => .nan
  | .negInf, _ => .nan

/-- Strictly less; false on not-a-number. -/
def lt : ExtRat → ExtRat → Bool
  | .fin a, .fin b => a < b
  | .nan, _ => false
  | _, .nan => false
  | .negInf, .negInf => false
  | .negInf, _ => true
  | .posInf, _ => false
  | .fin _, .posInf => true
  | .fin _, .negInf => false

/-- At most; false on not-a-number. -/
def le : ExtRat → ExtRat → Bool
  | .fin a, .fin b => a ≤ b
  | .nan, _ => false
  | _, .nan => false
  | .negInf, _ => true
  | .posInf, .posInf => true
  | .posInf, _ => false
  | .fin _, .posInf => true
  | .fin _, .negInf => false

/-- The integer a conversion gives: truncation toward zero. What is not finite has no conversion; `indefinite` is the
value the machine instruction leaves in that case. -/
def toInt (indefinite : ℤ) : ExtRat → ℤ
  | .fin q => q.num.tdiv q.den
  | _ => indefinite

@[simp] theorem fin_add_fin (a b : ℚ) : (fin a).add (fin b) = fin (a + b) := rfl

@[simp] theorem fin_add_posInf (a : ℚ) : (fin a).add posInf = posInf := rfl

@[simp] theorem posInf_add_fin (a : ℚ) : posInf.add (fin a) = posInf := rfl

@[simp] theorem posInf_add_posInf : posInf.add posInf = posInf := rfl

theorem fin_div_fin {a b : ℚ} (hb : b ≠ 0) : (fin a).div (fin b) = fin (a / b) := if_neg hb

theorem fin_div_zero {a : ℚ} (ha : 0 < a) : (fin a).div (fin 0) = posInf := by simp [div, ha]

/-- Truncation of a non-negative rational rounds down. -/
theorem toInt_fin_of_nonneg (i : ℤ) {q : ℚ} (hq : 0 ≤ q) : (fin q).toInt i = ⌊q⌋ := by
  simp only [toInt]
  rw [Int.tdiv_eq_ediv_of_nonneg (Rat.num_nonneg.mpr hq), Rat.floor_def']

/-! ## Order -/

/-- The order of the values that are numbers. -/
def toOrder : ExtRat → WithBot (WithTop ℚ)
  | .fin q => ((q : WithTop ℚ) : WithBot (WithTop ℚ))
  | .posInf => ((⊤ : WithTop ℚ) : WithBot (WithTop ℚ))
  | .negInf => ⊥
  | .nan => ⊥

theorem lt_eq_decide {x y : ExtRat} (hx : x ≠ .nan) (hy : y ≠ .nan) : x.lt y = decide (x.toOrder < y.toOrder) := by
  cases x <;> cases y <;> first
    | exact absurd rfl hx
    | exact absurd rfl hy
    | simp [lt, toOrder, -WithBot.coe_top]

theorem le_eq_decide {x y : ExtRat} (hx : x ≠ .nan) (hy : y ≠ .nan) : x.le y = decide (x.toOrder ≤ y.toOrder) := by
  cases x <;> cases y <;> first
    | exact absurd rfl hx
    | exact absurd rfl hy
    | simp [le, toOrder, -WithBot.coe_top]

/-- What is compared and at most is a number. -/
theorem ne_nan_of_le {x y : ExtRat} (h : x.le y = true) : x ≠ .nan ∧ y ≠ .nan := by
  cases x <;> cases y <;> simp [le] at h ⊢

theorem le_iff {x y : ExtRat} : x.le y = true ↔ x ≠ .nan ∧ y ≠ .nan ∧ x.toOrder ≤ y.toOrder := by
  constructor
  · intro h
    obtain ⟨hx, hy⟩ := ne_nan_of_le h
    rw [le_eq_decide hx hy, decide_eq_true_eq] at h
    exact ⟨hx, hy, h⟩
  · rintro ⟨hx, hy, h⟩
    rw [le_eq_decide hx hy, decide_eq_true_eq]
    exact h

theorem le_refl {x : ExtRat} (h : x ≠ .nan) : x.le x = true := le_iff.mpr ⟨h, h, le_rfl⟩

theorem le_trans {x y z : ExtRat} (h : x.le y = true) (h' : y.le z = true) : x.le z = true := by
  obtain ⟨hx, -, hxy⟩ := le_iff.mp h
  obtain ⟨-, hz, hyz⟩ := le_iff.mp h'
  exact le_iff.mpr ⟨hx, hz, hxy.trans hyz⟩

theorem lt_iff_not_le {x y : ExtRat} (hx : x ≠ .nan) (hy : y ≠ .nan) : x.lt y = true ↔ ¬y.le x = true := by
  rw [lt_eq_decide hx hy, le_eq_decide hy hx, decide_eq_true_eq, decide_eq_true_eq, not_le]

theorem le_of_lt {x y : ExtRat} (h : x.lt y = true) : x.le y = true := by
  cases x <;> cases y <;> simp [lt, le] at h ⊢
  exact h.le

theorem le_of_not_le {x y : ExtRat} (hx : x ≠ .nan) (hy : y ≠ .nan) (h : ¬y.le x = true) : x.le y = true :=
  le_of_lt ((lt_iff_not_le hx hy).mpr h)

theorem lt_of_lt_of_le {x y z : ExtRat} (h : x.lt y = true) (h' : y.le z = true) : x.lt z = true := by
  obtain ⟨hx, hy⟩ := ne_nan_of_le (le_of_lt h)
  obtain ⟨-, hz, hyz⟩ := le_iff.mp h'
  rw [lt_eq_decide hx hy, decide_eq_true_eq] at h
  rw [lt_eq_decide hx hz, decide_eq_true_eq]
  exact h.trans_le hyz

/-- A positive value is a number or infinite. -/
theorem pos_cases {x : ExtRat} (h : (fin 0).lt x = true) : (∃ q, 0 < q ∧ x = .fin q) ∨ x = .posInf := by
  cases x with
  | fin q => exact .inl ⟨q, of_decide_eq_true h, rfl⟩
  | posInf => exact .inr rfl
  | negInf => cases h
  | nan => cases h

theorem nonneg_cases {x : ExtRat} (h : (fin 0).le x = true) : (∃ q, 0 ≤ q ∧ x = .fin q) ∨ x = .posInf := by
  cases x with
  | fin q => exact .inl ⟨q, of_decide_eq_true h, rfl⟩
  | posInf => exact .inr rfl
  | negInf => cases h
  | nan => cases h

theorem fin_zero_add (x : ExtRat) : (fin 0).add x = x := by
  cases x <;> simp [add]

/-- Addition of values that are not negative is monotone. -/
theorem add_le_add {x y x' y' : ExtRat} (hx : (fin 0).le x = true) (hy : (fin 0).le y = true) (hxx' : x.le x' = true)
    (hyy' : y.le y' = true) : (x.add y).le (x'.add y') = true := by
  rcases nonneg_cases hx with ⟨a, -, rfl⟩ | rfl <;> rcases nonneg_cases hy with ⟨b, -, rfl⟩ | rfl <;>
    rcases nonneg_cases (le_trans hx hxx') with ⟨a', -, rfl⟩ | rfl <;>
      rcases nonneg_cases (le_trans hy hyy') with ⟨b', -, rfl⟩ | rfl <;> simp [le, add] at hxx' hyy' ⊢
  linarith

/-- Division by a positive number is monotone. -/
theorem div_le_div_right {x y : ExtRat} {c : ℚ} (hc : 0 < c) (h : x.le y = true) :
    (x.div (.fin c)).le (y.div (.fin c)) = true := by
  cases x <;> cases y <;> simp [le, div, hc.ne', not_lt.mpr hc.le] at h ⊢
  exact (div_le_div_iff_of_pos_right hc).mpr h

/-- The larger the divisor, the smaller the quotient. -/
theorem div_le_div_left {m m' : ExtRat} {c : ℚ} (hc : 0 ≤ c) (hm : (fin 0).lt m = true) (h : m.le m' = true) :
    ((fin c).div m').le ((fin c).div m) = true ∧ (fin 0).le ((fin c).div m') = true := by
  rcases pos_cases hm with ⟨a, ha, rfl⟩ | rfl
  · rcases pos_cases (lt_of_lt_of_le hm h) with ⟨b, hb, rfl⟩ | rfl
    · have hab : a ≤ b := of_decide_eq_true h
      rw [fin_div_fin ha.ne', fin_div_fin hb.ne']
      exact ⟨decide_eq_true (div_le_div_of_nonneg_left hc ha hab), decide_eq_true (by positivity)⟩
    · rw [fin_div_fin ha.ne']
      exact ⟨decide_eq_true (by positivity), rfl⟩
  · rcases pos_cases (lt_of_lt_of_le hm h) with ⟨b, hb, rfl⟩ | rfl
    · cases h
    · exact ⟨rfl, rfl⟩

/-! ## Negative values -/

/-- Below zero, minus infinity included. -/
def IsNeg (x : ExtRat) : Prop := x.lt (.fin 0) = true

theorem isNeg_fin {q : ℚ} : (fin q).IsNeg ↔ q < 0 := by simp [IsNeg, lt]

theorem isNeg_cases {x : ExtRat} (h : x.IsNeg) : (∃ q < 0, x = .fin q) ∨ x = .negInf := by
  cases x with
  | fin q => exact .inl ⟨q, isNeg_fin.mp h, rfl⟩
  | posInf => cases h
  | negInf => exact .inr rfl
  | nan => cases h

/-- A negative value added to nothing or to another stays negative. -/
theorem isNeg_add {x y : ExtRat} (hx : x.IsNeg ∨ x = .fin 0) (hy : y.IsNeg) : (x.add y).IsNeg := by
  have hx' : (∃ q ≤ 0, x = .fin q) ∨ x = .negInf := by
    rcases hx with hx | rfl
    · rcases isNeg_cases hx with ⟨q, hq, rfl⟩ | rfl
      · exact .inl ⟨q, hq.le, rfl⟩
      · exact .inr rfl
    · exact .inl ⟨0, le_rfl, rfl⟩
  rcases hx' with ⟨p, hp, rfl⟩ | rfl
  · rcases isNeg_cases hy with ⟨q, hq, rfl⟩ | rfl
    · rw [fin_add_fin, isNeg_fin]
      linarith
    · rfl
  · rcases isNeg_cases hy with ⟨q, hq, rfl⟩ | rfl
    · rfl
    · rfl

end ExtRat
