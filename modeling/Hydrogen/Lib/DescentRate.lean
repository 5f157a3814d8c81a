import Hydrogen.Lib.GradientDescent

/-!
# The rate of gradient descent on squared errors

The features of a least squares problem have an energy, the sum of their squares. At a rate of at most 2 by the energy no
step raises the squared error (`leastSquares_descend_le`) or the length of the gradient (`normSq_gradient_descend_le`).
So the squared length of the gradient falls at least as fast as the inverse of the number of steps
(`normSq_gradient_iterate_le`).
-/

namespace GradientDescent

section Sums

variable {ι κ 𝕜 : Type*} [Fintype ι] [Fintype κ] [Field 𝕜]

/-- The squared length of a vector. -/
def normSq (v : ι → 𝕜) : 𝕜 := ∑ i, v i ^ 2

/-- The squared length of all features. -/
def energy (φ : κ → ι → 𝕜) : 𝕜 := ∑ p, normSq (φ p)

/-- How the predictions change along a vector. -/
def slope (φ : κ → ι → 𝕜) (v : ι → 𝕜) (p : κ) : 𝕜 := ∑ i, v i * φ p i

/-- The errors weighted by the features. -/
def weigh (φ : κ → ι → 𝕜) (e : κ → 𝕜) (j : ι) : 𝕜 := ∑ p, e p * φ p j

/-- The errors of the predictions. -/
def errors (φ : κ → ι → 𝕜) (y : κ → 𝕜) (w : ι → 𝕜) (p : κ) : 𝕜 := ∑ i, w i * φ p i - y p

variable (φ : κ → ι → 𝕜)

theorem sum_mul_slope (e : κ → 𝕜) (v : ι → 𝕜) : ∑ p, e p * slope φ v p = ∑ i, v i * weigh φ e i := by
  simp only [slope, weigh, Finset.mul_sum]
  rw [Finset.sum_comm]
  exact Finset.sum_congr rfl fun i _ => Finset.sum_congr rfl fun p _ => by ring

omit [Fintype κ] in
theorem errors_sub (y : κ → 𝕜) (w v : ι → 𝕜) (α : 𝕜) :
    errors φ y (w - α • v) = errors φ y w - α • slope φ v := by
  funext p
  simp only [errors, slope, Pi.sub_apply, Pi.smul_apply, smul_eq_mul, sub_mul, Finset.sum_sub_distrib, mul_assoc,
    ← Finset.mul_sum]
  ring

omit [Fintype ι] in
theorem weigh_sub (e d : κ → 𝕜) (α : 𝕜) : weigh φ (e - α • d) = weigh φ e - α • weigh φ d := by
  funext j
  simp only [weigh, Pi.sub_apply, Pi.smul_apply, smul_eq_mul, sub_mul, Finset.sum_sub_distrib, mul_assoc,
    ← Finset.mul_sum]

/-- The square of a difference. -/
theorem normSq_sub (u v : ι → 𝕜) (α : 𝕜) :
    normSq (u - α • v) = normSq u - 2 * α * ∑ i, u i * v i + α ^ 2 * normSq v := by
  simp only [normSq, Pi.sub_apply, Pi.smul_apply, smul_eq_mul, Finset.mul_sum, ← Finset.sum_sub_distrib,
    ← Finset.sum_add_distrib]
  exact Finset.sum_congr rfl fun i _ => by ring

variable [LinearOrder 𝕜] [IsStrictOrderedRing 𝕜]

theorem normSq_nonneg (v : ι → 𝕜) : 0 ≤ normSq v := Finset.sum_nonneg fun i _ => sq_nonneg (v i)

theorem normSq_slope_le (v : ι → 𝕜) : normSq (slope φ v) ≤ energy φ * normSq v := by
  rw [energy, Finset.sum_mul]
  refine Finset.sum_le_sum fun p _ => ?_
  rw [mul_comm]
  exact Finset.sum_mul_sq_le_sq_mul_sq _ _ _

theorem normSq_weigh_le (e : κ → 𝕜) : normSq (weigh φ e) ≤ energy φ * normSq e := by
  have henergy : energy φ = ∑ j, ∑ p, φ p j ^ 2 := Finset.sum_comm
  rw [henergy, Finset.sum_mul]
  refine Finset.sum_le_sum fun j _ => ?_
  rw [mul_comm]
  exact Finset.sum_mul_sq_le_sq_mul_sq _ _ _

end Sums

variable {ι κ 𝕜 : Type*} [Fintype ι] [DecidableEq ι] [Fintype κ] [NontriviallyNormedField 𝕜] [LinearOrder 𝕜]
  [IsStrictOrderedRing 𝕜] (φ : κ → ι → 𝕜) (y : κ → 𝕜)

theorem gradient_eq_weigh (w : ι → 𝕜) : gradient (leastSquares φ y) w = weigh φ (errors φ y w) :=
  gradient_leastSquares two_ne_zero φ y w

/-- **One step lowers the error** by at least a share of the squared length of the gradient. -/
theorem leastSquares_descend_le (α : 𝕜) (w : ι → 𝕜) :
    leastSquares φ y (descend α (leastSquares φ y) w) ≤
      leastSquares φ y w - α * (1 - α * energy φ / 2) * normSq (gradient (leastSquares φ y) w) := by
  set g := gradient (leastSquares φ y) w with hg
  have herror : normSq (errors φ y (w - α • g)) =
      normSq (errors φ y w) - 2 * α * normSq g + α ^ 2 * normSq (slope φ g) := by
    rw [errors_sub, normSq_sub, sum_mul_slope, ← gradient_eq_weigh, ← hg]
    simp only [normSq, sq]
  have hslope : α ^ 2 * normSq (slope φ g) ≤ α ^ 2 * (energy φ * normSq g) :=
    mul_le_mul_of_nonneg_left (normSq_slope_le φ g) (sq_nonneg α)
  have hbefore : leastSquares φ y w = 1 / 2 * normSq (errors φ y w) := rfl
  have hafter : leastSquares φ y (descend α (leastSquares φ y) w) = 1 / 2 * normSq (errors φ y (w - α • g)) := rfl
  rw [hafter, hbefore, herror]
  linarith

/-- At a rate the energy allows no step makes the gradient longer. -/
theorem normSq_gradient_descend_le {α : 𝕜} (hα : 0 ≤ α) (hrate : α * energy φ ≤ 2) (w : ι → 𝕜) :
    normSq (gradient (leastSquares φ y) (descend α (leastSquares φ y) w)) ≤ normSq (gradient (leastSquares φ y) w) := by
  set g := gradient (leastSquares φ y) w with hg
  have hnext : normSq (gradient (leastSquares φ y) (w - α • g)) =
      normSq g - 2 * α * normSq (slope φ g) + α ^ 2 * normSq (weigh φ (slope φ g)) := by
    have hdot : ∑ i, g i * weigh φ (slope φ g) i = normSq (slope φ g) := by
      rw [← sum_mul_slope]
      simp only [normSq, sq]
    rw [gradient_eq_weigh, errors_sub, weigh_sub, ← gradient_eq_weigh, ← hg, normSq_sub, hdot]
  have hweigh : α ^ 2 * normSq (weigh φ (slope φ g)) ≤ α * (α * energy φ) * normSq (slope φ g) := by
    rw [← mul_assoc, ← sq, mul_assoc]
    exact mul_le_mul_of_nonneg_left (normSq_weigh_le φ _) (sq_nonneg α)
  have hshare : α * (α * energy φ) * normSq (slope φ g) ≤ α * 2 * normSq (slope φ g) :=
    mul_le_mul_of_nonneg_right (mul_le_mul_of_nonneg_left hrate hα) (normSq_nonneg _)
  show normSq (gradient (leastSquares φ y) (w - α • g)) ≤ normSq g
  rw [hnext]
  linarith

section Steps

variable {φ y} {α : 𝕜} (hα : 0 ≤ α) (hrate : α * energy φ ≤ 2) (w : ι → 𝕜)
include hα hrate

/-- The errors of the steps do not rise. -/
theorem antitone_leastSquares : Antitone fun n => leastSquares φ y ((descend α (leastSquares φ y))^[n] w) := by
  refine antitone_nat_of_succ_le fun n => ?_
  rw [Function.iterate_succ_apply']
  refine (leastSquares_descend_le φ y α _).trans (sub_le_self _ ?_)
  exact mul_nonneg (mul_nonneg hα (by linarith)) (normSq_nonneg _)

theorem antitone_normSq_gradient :
    Antitone fun n => normSq (gradient (leastSquares φ y) ((descend α (leastSquares φ y))^[n] w)) := by
  refine antitone_nat_of_succ_le fun n => ?_
  rw [Function.iterate_succ_apply']
  exact normSq_gradient_descend_le φ y hα hrate _

/-- **What remains of the gradient** after `n` steps, against the error that is gone. -/
theorem normSq_gradient_iterate_le (n : Nat) :
    n * (α * (1 - α * energy φ / 2) * normSq (gradient (leastSquares φ y) ((descend α (leastSquares φ y))^[n] w))) ≤
      leastSquares φ y w - leastSquares φ y ((descend α (leastSquares φ y))^[n] w) := by
  have hshare : 0 ≤ α * (1 - α * energy φ / 2) := mul_nonneg hα (by linarith)
  induction n with
  | zero => simp
  | succ n ih =>
    -- the gradients of the steps before were no shorter than the last one
    have hstep := leastSquares_descend_le φ y α ((descend α (leastSquares φ y))^[n] w)
    have hlast := mul_le_mul_of_nonneg_left (antitone_normSq_gradient (y := y) hα hrate w (Nat.le_succ n)) hshare
    have hsteps := mul_le_mul_of_nonneg_left hlast (Nat.cast_nonneg (α := 𝕜) n)
    rw [← Function.iterate_succ_apply' (descend α (leastSquares φ y)) n w] at hstep
    push_cast
    linarith

end Steps

end GradientDescent
