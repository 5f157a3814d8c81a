import Mathlib

/-!
# Batch gradient descent

The gradient of a function of several variables is the vector of its partial derivatives (`gradient`); a step of the
descent changes all components at once (`descend`). The halved sum of squared errors of a linear prediction has the
gradient every program for it computes: the errors weighted by the features (`gradient_leastSquares`).
-/

namespace GradientDescent

variable {ι κ 𝕜 : Type*} [Fintype ι] [DecidableEq ι] [Fintype κ] [NontriviallyNormedField 𝕜]

/-- The partial derivatives. -/
noncomputable def gradient (J : (ι → 𝕜) → 𝕜) (w : ι → 𝕜) : ι → 𝕜 :=
  fun j => deriv (fun t => J (Function.update w j t)) (w j)

/-- One step against the gradient, at the rate `α`. -/
noncomputable def descend (α : 𝕜) (J : (ι → 𝕜) → 𝕜) (w : ι → 𝕜) : ι → 𝕜 := w - α • gradient J w

/-- Half the sum of the squared errors of the prediction `∑ w i * φ p i` of `y p`. -/
def leastSquares (φ : κ → ι → 𝕜) (y : κ → 𝕜) (w : ι → 𝕜) : 𝕜 := 1 / 2 * ∑ p, (∑ i, w i * φ p i - y p) ^ 2

/-- A change of one component changes the prediction by its feature. -/
theorem sum_update (w φ : ι → 𝕜) (j : ι) (t : 𝕜) :
    ∑ i, Function.update w j t i * φ i = ∑ i, w i * φ i + (t - w j) * φ j := by
  have hone : ∀ i, Function.update w j t i * φ i = w i * φ i + if i = j then (t - w j) * φ j else 0 := by
    intro i
    by_cases hij : i = j
    · subst hij
      rw [Function.update_self, if_pos rfl]
      ring
    · rw [Function.update_of_ne hij, if_neg hij, add_zero]
  simp only [hone, Finset.sum_add_distrib, Finset.sum_ite_eq', Finset.mem_univ, if_true]

theorem hasDerivAt_leastSquares (h2 : (2 : 𝕜) ≠ 0) (φ : κ → ι → 𝕜) (y : κ → 𝕜) (w : ι → 𝕜) (j : ι) :
    HasDerivAt (fun t => leastSquares φ y (Function.update w j t)) (∑ p, (∑ i, w i * φ p i - y p) * φ p j) (w j) := by
  have herror : ∀ p, HasDerivAt (fun t => ∑ i, Function.update w j t i * φ p i - y p) (φ p j) (w j) := by
    intro p
    simp only [sum_update]
    have hlinear : HasDerivAt (fun t => (t - w j) * φ p j) (1 * φ p j) (w j) :=
      ((hasDerivAt_id (w j)).sub_const (w j)).mul_const (φ p j)
    rw [one_mul] at hlinear
    exact (hlinear.const_add _).sub_const _
  have hsquare : ∀ p, HasDerivAt (fun t => (∑ i, Function.update w j t i * φ p i - y p) ^ 2)
      (2 * ((∑ i, w i * φ p i - y p) * φ p j)) (w j) := by
    intro p
    have hmul := (herror p).fun_mul (herror p)
    simp only [Function.update_eq_self, ← sq] at hmul
    refine hmul.congr_deriv ?_
    rw [mul_comm (φ p j), ← two_mul]
  refine ((HasDerivAt.fun_sum fun p _ => hsquare p).const_mul (1 / 2)).congr_deriv ?_
  rw [← Finset.mul_sum, ← mul_assoc, one_div_mul_cancel h2, one_mul]

/-- **The gradient of the squared error**: the errors weighted by the features. -/
theorem gradient_leastSquares (h2 : (2 : 𝕜) ≠ 0) (φ : κ → ι → 𝕜) (y : κ → 𝕜) (w : ι → 𝕜) :
    gradient (leastSquares φ y) w = fun j => ∑ p, (∑ i, w i * φ p i - y p) * φ p j :=
  funext fun j => (hasDerivAt_leastSquares h2 φ y w j).deriv

end GradientDescent
