import Hydrogen.Lib.GradientDescent
import Hydrogen.Executor.Training

/-!
# Linear regression

`LinearRegression` keeps the old weights until all new ones are computed, so that an iteration is a step of batch
gradient descent on the squared error of what `QueryModel` answers at the data points (`linearRegression_descends`).
`CreateModel` divides by a hundredth of `maxsize` and by a tenth of the number of iterations; the conditions under which
it completes are exact (`createModel_completes_iff`). A model is equal to the one it was loaded from if and only if the
one field that is compared and not archived agrees (`load_equals_iff`).
-/

namespace Hydrogen

namespace PerfModel

open Exec GradientDescent

/-! ## Loops -/

/-- A loop that sums up. -/
theorem forLoop_sum {body : Nat → ℚ → Exec ℚ} {term : Nat → ℚ} (n : Nat)
    (h : ∀ i < n, ∀ s, body i s = done (s + term i)) : forLoop body n 0 = done (∑ i ∈ Finset.range n, term i) := by
  refine forLoop_counted (fun k => ∑ i ∈ Finset.range k, term i) n fun i hi => ?_
  rw [h i hi, Finset.sum_range_succ]

/-- A loop that pushes. -/
theorem forLoop_push {body : Nat → List ℚ → Exec (List ℚ)} (xs : List ℚ)
    (h : ∀ (i : Nat) (hi : i < xs.length) (ys : List ℚ), body i ys = done (ys ++ [xs[i]])) :
    forLoop body xs.length [] = done xs := by
  have hrun : forLoop body xs.length (xs.take 0) = done (xs.take xs.length) :=
    forLoop_counted (fun k => xs.take k) xs.length fun i hi => by rw [h i hi, List.take_append_getElem hi]
  rwa [List.take_zero, List.take_length] at hrun

/-- A loop that copies one array over another. -/
theorem forLoop_copy (xs ys : List ℚ) (h : ys.length = xs.length) :
    forLoop (fun i ys => do
      let x ← index xs i
      assign ys i x) xs.length ys = done xs := by
  have hrun : forLoop (fun i ys => do
      let x ← index xs i
      assign ys i x) xs.length (xs.take 0 ++ ys.drop 0) = done (xs.take xs.length ++ ys.drop xs.length) := by
    refine forLoop_counted (fun k => xs.take k ++ ys.drop k) xs.length fun i hi => ?_
    have hlen : (xs.take i).length = i := List.length_take_of_le (Nat.le_of_lt hi)
    rw [index_eq_done (List.getElem?_eq_getElem hi), done_bind, assign,
      if_pos (by rw [List.length_append, List.length_drop]; omega), List.set_append_right i _ (by omega), hlen,
      Nat.sub_self, List.drop_eq_getElem_cons (by omega), List.set_cons_zero, ← List.take_append_getElem hi,
      List.append_assoc]
    rfl
  rwa [List.take_zero, List.drop_zero, List.nil_append, List.take_length, List.drop_eq_nil_of_le (Nat.le_of_eq h),
    List.append_nil] at hrun

/-! ## One iteration -/

section Iteration

variable {m : PerfModel ℚ} {points : List (ℚ × ℚ)}

/-- The features of a data point: the powers of its size. -/
def feature (m : PerfModel ℚ) (points : List (ℚ × ℚ)) (p : Fin points.length) (i : Fin m.numberOfFeatures) : ℚ :=
  (points.get p).1 ^ i.val

/-- Its time. -/
def time (points : List (ℚ × ℚ)) (p : Fin points.length) : ℚ := (points.get p).2

theorem row_eq (hm : Sampled m.order m.features m.milliseconds points) {p : Nat} (hp : p < points.length) :
    m.features[p]? = some (powers m.order points[p].1) := by
  rw [hm.rows, List.getElem?_map, List.getElem?_eq_getElem hp]
  rfl

theorem entry_eq {order i : Nat} (x : ℚ) (hi : i < order + 1) : (powers order x)[i]? = some (x ^ i) := by
  rw [powers, List.getElem?_map, List.getElem?_range hi]
  rfl

theorem weight_eq {n i : Nat} (w : Fin n → ℚ) (hi : i < n) : (List.ofFn w)[i]? = some (w ⟨i, hi⟩) := by
  rw [List.getElem?_ofFn, dif_pos hi]

/-- A sum over the indices of a vector. -/
theorem sum_range_eq {n : Nat} {term : Nat → ℚ} {g : Fin n → ℚ} (h : ∀ i : Fin n, term i = g i) :
    ∑ i ∈ Finset.range n, term i = ∑ i, g i := by
  rw [Finset.sum_range]
  exact Finset.sum_congr rfl fun i _ => h i

variable (hm : Sampled m.order m.features m.milliseconds points) (hle : m.numberOfFeatures ≤ m.order + 1)
include hm hle

/-- The prediction for a row. -/
theorem hypothesis_eq (w : Fin m.numberOfFeatures → ℚ) (p : Fin points.length) :
    m.hypothesis (List.ofFn w) p = done (∑ i, w i * m.feature points p i) := by
  let term (i : Nat) : ℚ := if h : i < m.numberOfFeatures then w ⟨i, h⟩ * points[p].1 ^ i else 0
  have hrun : m.hypothesis (List.ofFn w) p = done (∑ i ∈ Finset.range m.numberOfFeatures, term i) := by
    refine forLoop_sum m.numberOfFeatures fun i hi H => ?_
    rw [index_eq_done (weight_eq w hi), done_bind, index_eq_done (row_eq hm p.isLt), done_bind,
      index_eq_done (entry_eq _ (by omega)), done_bind]
    simp only [term, dif_pos hi]
    rfl
  rw [hrun, sum_range_eq fun i => dif_pos i.isLt]
  rfl

/-- The partial derivative. -/
theorem costDerivative_eq (hnum : m.numberOfDataPoints = m.milliseconds.length) (w : Fin m.numberOfFeatures → ℚ)
    (f : Fin m.numberOfFeatures) :
    m.costDerivative (List.ofFn w) f =
      done (∑ p, (∑ i, w i * m.feature points p i - time points p) * m.feature points p f) := by
  let term (p : Nat) : ℚ := if h : p < points.length then
    (∑ i, w i * m.feature points ⟨p, h⟩ i - time points ⟨p, h⟩) * m.feature points ⟨p, h⟩ f else 0
  have hlen : m.numberOfDataPoints = points.length := by rw [hnum, hm.times, List.length_map]
  have hrun : m.costDerivative (List.ofFn w) f = done (∑ p ∈ Finset.range m.numberOfDataPoints, term p) := by
    refine forLoop_sum m.numberOfDataPoints fun p hp sum => ?_
    rw [hlen] at hp
    have htime : m.milliseconds[p]? = some (time points ⟨p, hp⟩) := by
      rw [hm.times, List.getElem?_map, List.getElem?_eq_getElem hp]
      rfl
    rw [index_eq_done htime, done_bind, hypothesis_eq hm hle w ⟨p, hp⟩, done_bind,
      index_eq_done (row_eq hm hp), done_bind,
      index_eq_done (entry_eq _ (by omega)), done_bind]
    simp only [term, dif_pos hp]
    rfl
  rw [hrun, hlen, sum_range_eq fun p => dif_pos p.isLt]

/-- **An iteration is a step of gradient descent.** -/
theorem regressionStep_eq (hnum : m.numberOfDataPoints = m.milliseconds.length) (hiter : 10 ≤ m.iterations)
    (w : Fin m.numberOfFeatures → ℚ) : m.regressionStep (List.ofFn w) =
      done (List.ofFn (descend m.alpha (leastSquares (m.feature points) (time points)) w)) := by
  let w' := descend m.alpha (leastSquares (m.feature points) (time points)) w
  have hnew : ∀ f : Fin m.numberOfFeatures, w' f =
      w f - m.alpha * ∑ p, (∑ i, w i * m.feature points p i - time points p) * m.feature points p f := by
    intro f
    simp only [w', descend, Pi.sub_apply, Pi.smul_apply, smul_eq_mul, gradient_leastSquares two_ne_zero]
  have hlen : (List.ofFn w').length = m.numberOfFeatures := List.length_ofFn
  have hpush : forLoop (fun f newWeights => do
      let currentWeight ← index (List.ofFn w) f
      let costDerivative ← m.costDerivative (List.ofFn w) f
      pure (newWeights ++ [currentWeight - m.alpha * costDerivative])) (List.ofFn w').length [] =
      done (List.ofFn w') := by
    refine forLoop_push (List.ofFn w') fun f hf newWeights => ?_
    have hf' : f < m.numberOfFeatures := by rwa [hlen] at hf
    rw [index_eq_done (weight_eq w hf'), done_bind, costDerivative_eq hm hle hnum w ⟨f, hf'⟩, done_bind,
      List.getElem_ofFn, hnew]
    rfl
  have hcopy := forLoop_copy (List.ofFn w') (List.ofFn w) (by rw [List.length_ofFn, hlen])
  rw [hlen] at hpush hcopy
  rw [regressionStep, if_neg (by omega), hpush, done_bind, hcopy]

end Iteration

/-! ## The regression -/

/-- What `QueryModel` returns at `x` for the weights `w`. -/
def predicted (m : PerfModel ℚ) (w : Fin m.numberOfFeatures → ℚ) (x : ℚ) : ℚ :=
  ({ m with weights := List.ofFn w }.queryModel x).getD 0

/-- Half the squared error of the queried polynomial at the data points. -/
def squaredError (m : PerfModel ℚ) (points : List (ℚ × ℚ)) (w : Fin m.numberOfFeatures → ℚ) : ℚ :=
  1 / 2 * (points.map fun p => (m.predicted w p.1 - p.2) ^ 2).sum

section Descent

variable {m : PerfModel ℚ} {points : List (ℚ × ℚ)}

/-- A query with a weight for each feature is answered. -/
theorem queryModel_weights (hle : m.numberOfFeatures ≤ m.order + 1) (w : Fin m.numberOfFeatures → ℚ) (x : ℚ) :
    { m with weights := List.ofFn w }.queryModel x = some (∑ i, w i * x ^ i.val) := by
  have hfitted : ({ m with weights := List.ofFn w } : PerfModel ℚ).Fitted := ⟨List.length_ofFn.ge, hle⟩
  have hsum : ((List.range m.numberOfFeatures).map fun i => (List.ofFn w).getD i 0 * x ^ i).sum =
      ∑ i ∈ Finset.range m.numberOfFeatures, (List.ofFn w).getD i 0 * x ^ i := rfl
  have hterm : ∀ i : Fin m.numberOfFeatures, (List.ofFn w).getD i 0 * x ^ i.val = w i * x ^ i.val := by
    intro i
    rw [List.getD_eq_getElem?_getD, weight_eq w i.isLt]
    rfl
  rw [queryModel_eq hfitted]
  exact congrArg some (hsum.trans (sum_range_eq hterm))

theorem predicted_eq (hle : m.numberOfFeatures ≤ m.order + 1) (w : Fin m.numberOfFeatures → ℚ) (x : ℚ) :
    m.predicted w x = ∑ i, w i * x ^ i.val := by
  rw [predicted, queryModel_weights hle]
  rfl

theorem squaredError_eq (hle : m.numberOfFeatures ≤ m.order + 1) :
    m.squaredError points = leastSquares (m.feature points) (time points) := by
  funext w
  rw [squaredError, ← Fin.sum_univ_fun_getElem, leastSquares]
  simp only [predicted_eq hle]
  rfl

/-- All iterations. -/
theorem linearRegression_eq (hm : Sampled m.order m.features m.milliseconds points)
    (hle : m.numberOfFeatures ≤ m.order + 1) (hiter : m.iterations = 0 ∨ 10 ≤ m.iterations) :
    m.linearRegression = done { m with
      numberOfDataPoints := m.milliseconds.length
      weights := List.ofFn ((descend m.alpha (m.squaredError points))^[m.iterations] 0) } := by
  let m' := { m with numberOfDataPoints := m.milliseconds.length }
  let step := descend m.alpha (m.squaredError points)
  have hzero : List.replicate m.numberOfFeatures (0 : ℚ) = List.ofFn (0 : Fin m.numberOfFeatures → ℚ) :=
    (List.ofFn_const m.numberOfFeatures 0).symm
  have hrun : forLoop (fun _ weights => m'.regressionStep weights) m.iterations (List.ofFn (step^[0] 0)) =
      done (List.ofFn (step^[m.iterations] 0)) := by
    refine forLoop_counted (fun k => List.ofFn (step^[k] 0)) m.iterations fun k hk => ?_
    have hstep := regressionStep_eq (m := m') hm hle rfl (by show 10 ≤ m.iterations; omega) (step^[k] 0)
    rw [Function.iterate_succ_apply', hstep]
    simp only [step, squaredError_eq hle]
    rfl
  rw [linearRegression]
  dsimp only
  rw [hzero]
  exact bind_eq_done.mpr ⟨_, hrun, rfl⟩

end Descent

/-- A line, fitted in ten iterations. -/
def line : PerfModel ℚ := ⟨1 / 100000, 10, 2, 0, 1, [], [], [], ⟨"", "", "", "", "", ""⟩⟩

theorem line_reached : line.Reached := .construct _ _ _ _ _ _ (by decide)

theorem line_sampled : Sampled line.order line.features line.milliseconds [] := ⟨rfl, rfl⟩

/-- The creation of a model completes: it ends, without a fault, and leaves a time for each row and a weight for each
feature. -/
def Completes (m : PerfModel ℚ) (maxsize : BitVec 64) (f : Nat → BitVec 32 → ℚ) : Prop :=
  ∃ fuel m', m.createModel maxsize f fuel = done m' ∧ m'.features.length = m'.milliseconds.length ∧
    m'.weights.length = m'.numberOfFeatures

/-- Fewer than ten iterations have no tenth. -/
theorem linearRegression_few {m : PerfModel ℚ} (hpos : 0 < m.iterations) (hlt : m.iterations < 10) :
    m.linearRegression = fault .divideByZero := by
  rw [linearRegression]
  dsimp only
  rw [forLoop_fault (by rw [regressionStep, if_pos (by show m.iterations / 10 = 0; omega)]) _ hpos, fault_bind]

/-- A model that can be created, and its data points. -/
theorem createModel_eq {m : PerfModel ℚ} {points : List (ℚ × ℚ)} {maxsize : BitVec 64}
    (hm : Sampled m.order m.features m.milliseconds points) (hle : m.numberOfFeatures ≤ m.order + 1)
    (ho : m.order + 1 < 2 ^ 31) (hends : SamplingEnds maxsize) (hiter : m.iterations = 0 ∨ 10 ≤ m.iterations)
    (f : Nat → BitVec 32 → ℚ) :
    ∃ fuel m', m.createModel maxsize f fuel = done m' ∧ m'.features.length = m'.milliseconds.length ∧
      m'.weights.length = m'.numberOfFeatures ∧ m'.numberOfDataPoints = m'.milliseconds.length ∧
      m'.milliseconds ≠ [] := by
  obtain ⟨fuel, m₁, hgen⟩ := (sampling_ends_iff (f := fun call i => f call (i.setWidth 32)) hm).mpr ⟨ho, hends⟩
  obtain ⟨-, hframe, k, -, -, -, hdata⟩ := generateTestData_sampled hm hgen
  have horder : m₁.order = m.order := by rw [hframe]
  have hfeatures : m₁.numberOfFeatures = m.numberOfFeatures := by rw [hframe]
  have hiterations : m₁.iterations = m.iterations := by rw [hframe]
  rw [← horder] at hdata
  refine ⟨fuel, _, bind_eq_done.mpr ⟨m₁, hgen, linearRegression_eq hdata (by omega) (by omega)⟩, hdata.length_eq,
    List.length_ofFn, rfl, ?_⟩
  show m₁.milliseconds ≠ []
  rw [hdata.times]
  simp

/-- **The creation of a model completes** if and only if its order is not the largest `int`, the sampling ends and the
number of iterations is zero or has a tenth. -/
theorem createModel_completes_iff {m : PerfModel ℚ} (hreached : m.Reached) (hle : m.numberOfFeatures ≤ m.order + 1)
    (maxsize : BitVec 64) (f : Nat → BitVec 32 → ℚ) :
    m.Completes maxsize f ↔
      m.order ≠ 2 ^ 31 - 1 ∧
      (maxsize = 0 ∨ 100 ≤ maxsize.toNat ∧ maxsize.toNat + Nat.gcd (maxsize.toNat / 100) (2 ^ 64) ≤ 2 ^ 64) ∧
      (m.iterations = 0 ∨ 10 ≤ m.iterations) := by
  obtain ⟨hint, points, hpoints⟩ := hreached.sampled
  constructor
  · rintro ⟨fuel, m', hrun, -, -⟩
    obtain ⟨m₁, hgen, hreg⟩ := bind_eq_done.mp hrun
    obtain ⟨ho, hends⟩ := (sampling_ends_iff hpoints).mp ⟨fuel, m₁, hgen⟩
    obtain ⟨-, hframe, -⟩ := generateTestData_sampled hpoints hgen
    have hiterations : m₁.iterations = m.iterations := by rw [hframe]
    refine ⟨by omega, hends, ?_⟩
    by_contra hfew
    rw [linearRegression_few (by omega) (by omega)] at hreg
    cases hreg
  · rintro ⟨ho, hends, hiter⟩
    obtain ⟨fuel, m', hrun, hdata, hweights, -⟩ := createModel_eq hpoints hle (by omega) hends hiter f
    exact ⟨fuel, m', hrun, hdata, hweights⟩

theorem line_completes : line.Completes 200 fun _ i => i.toNat :=
  (createModel_completes_iff line_reached (by decide) 200 _).mpr
    ⟨by decide, (by decide : SamplingEnds 200), .inr (by decide)⟩

/-- Fifty sizes have no hundredth. -/
theorem line_crashes : ¬∀ (m : PerfModel ℚ), m.Reached → 1 ≤ m.numberOfFeatures → m.numberOfFeatures ≤ m.order + 1 →
    ∀ (maxsize : BitVec 64) (f : Nat → BitVec 32 → ℚ), m.Completes maxsize f := by
  intro h
  obtain ⟨fuel, m', hrun, -⟩ := h line line_reached (by decide) (by decide) 50 fun _ i => i.toNat
  obtain ⟨m₁, hgen, -⟩ := bind_eq_done.mp hrun
  have hends := (sampling_ends_iff line_sampled).mp ⟨fuel, m₁, hgen⟩
  exact absurd hends.2 (by decide)

/-! ## Saved models -/

/-- **A model that is loaded equals the one that was saved**, and answers like it, if and only if the number of data
points, which is compared and not archived, was the same before, and no number that is compared differs from itself; it
answers like it in any case. -/
theorem load_equals_iff {α : Type} [Zero α] [Add α] [Mul α] [Pow α Nat] [BEq α] (m t : PerfModel α) :
    ∃ t', t.load m.save = some t' ∧ (∀ x, t'.queryModel x = m.queryModel x) ∧
      ((t'.equals m = true ∧ ∀ x, t'.queryModel x = m.queryModel x) ↔
        t.numberOfDataPoints = m.numberOfDataPoints ∧ m.SelfEqual) := by
  have hquery : ∀ x, ({ m with numberOfDataPoints := t.numberOfDataPoints, imp := t.imp } : PerfModel α).queryModel x =
      m.queryModel x := fun _ => rfl
  refine ⟨_, load_save t m, hquery, ?_⟩
  rw [← equals_load_iff t m]
  exact and_iff_left hquery

/-- A new object, which has no data points, loads a model that has some. -/
theorem load_differs : ¬∀ (m₀ m t : PerfModel ℚ) (maxsize : BitVec 64) (f : Nat → BitVec 32 → ℚ) (fuel : Nat),
    m₀.Reached → m₀.createModel maxsize f fuel = done m → t.Reached →
      ∃ t', t.load m.save = some t' ∧ t'.equals m = true ∧ ∀ x, t'.queryModel x = m.queryModel x := by
  intro h
  obtain ⟨fuel, m, hrun, -, -, hnumber, hdata⟩ := createModel_eq line_sampled (by decide) (by decide)
    (by decide : SamplingEnds 200) (by decide) fun _ i => i.toNat
  obtain ⟨t', hload, heq, -⟩ := h line m line 200 _ fuel line_reached hrun line_reached
  rw [load_save] at hload
  cases hload
  have hnone : line.numberOfDataPoints = m.numberOfDataPoints := by simpa [equals] using heq
  rw [hnumber] at hnone
  exact hdata (List.length_eq_zero_iff.mp hnone.symm)

end PerfModel

end Hydrogen
