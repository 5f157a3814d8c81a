import Hydrogen.Lib.ExtRat
import Mathlib.Algebra.Order.Ring.Rat

/-!
# Performance models

A `PerfModel` belongs to an implementation of a task and predicts its time as a polynomial of the size of the data. A
model can be written to an archive and read back into another object; the number of data points is compared by
`operator==` but not archived, so that the two objects are equal only if it was equal before.

The type of the numbers is a parameter. For archives nothing is assumed of it, in particular not that a number equals
itself, as one that is no number does not; models are trained with exact numbers.
-/

namespace Hydrogen

/-- `Implementation`. -/
structure Implementation where
  libraryName : String
  funcName : String
  name : String
  url : String
  port : String
  type : String
  deriving DecidableEq

/-- `PerfModel`; `α` is `double`. -/
structure PerfModel (α : Type) where
  alpha : α
  iterations : Nat
  numberOfFeatures : Nat
  numberOfDataPoints : Nat
  order : Nat
  features : List (List α)
  weights : List α
  milliseconds : List α
  imp : Implementation
  deriving DecidableEq

namespace PerfModel

variable {α : Type}

/-- `QueryModel`; none if an index is out of bounds. -/
def queryModel [Zero α] [Add α] [Mul α] [Pow α Nat] (m : PerfModel α) (input : α) : Option α :=
  let inputData := (List.range (m.order + 1)).map fun i => input ^ i
  (List.range m.numberOfFeatures).foldlM (fun projectedCost i => do
    let w ← m.weights[i]?
    let x ← inputData[i]?
    pure (projectedCost + w * x)) 0

/-- Weights have been learned or loaded for every feature, and every feature is a power that is computed. -/
def Fitted (m : PerfModel α) : Prop := m.numberOfFeatures ≤ m.weights.length ∧ m.numberOfFeatures ≤ m.order + 1

instance (m : PerfModel α) : Decidable m.Fitted := inferInstanceAs (Decidable (_ ∧ _))

/-- The polynomial. -/
def value (m : PerfModel ℚ) (input : ℚ) : ℚ :=
  ((List.range m.numberOfFeatures).map fun i => m.weights.getD i 0 * input ^ i).sum

/-- **A fitted model is queried within bounds** and gives the value of its polynomial. -/
theorem queryModel_eq {m : PerfModel ℚ} (h : m.Fitted) (input : ℚ) : m.queryModel input = some (m.value input) := by
  obtain ⟨hw, ho⟩ := h
  have hloop : ∀ (is : List Nat) (acc : ℚ), (∀ i ∈ is, i < m.numberOfFeatures) →
      is.foldlM (fun projectedCost i => do
        let w ← m.weights[i]?
        let x ← ((List.range (m.order + 1)).map fun i => input ^ i)[i]?
        pure (projectedCost + w * x)) acc =
      some (acc + (is.map fun i => m.weights.getD i 0 * input ^ i).sum) := by
    intro is
    induction is with
    | nil =>
      intro acc _
      rw [List.map_nil, List.sum_nil, add_zero]
      rfl
    | cons i is ih =>
      intro acc hlt
      have hi := hlt i List.mem_cons_self
      have hweight : m.weights[i]? = some (m.weights.getD i 0) := by
        rw [List.getD_eq_getElem?_getD, List.getElem?_eq_getElem (by omega)]
        rfl
      have hpower : ((List.range (m.order + 1)).map fun i => input ^ i)[i]? = some (input ^ i) := by
        rw [List.getElem?_map, List.getElem?_range (by omega)]
        rfl
      rw [List.foldlM_cons, hweight, hpower, List.map_cons, List.sum_cons, ← add_assoc]
      exact ih _ fun j hj => hlt j (List.mem_cons_of_mem _ hj)
  unfold queryModel
  rw [hloop _ 0 fun i hi => List.mem_range.mp hi, zero_add]
  rfl

/-! ## Archives -/

/-- What `boost::archive` writes for one field. -/
inductive Archived (α : Type) where
  | double (x : α)
  | integer (n : Nat)
  | vectors (v : List (List α))
  | vector (v : List α)
  deriving DecidableEq

/-- `serialize` into an output archive. -/
def save (m : PerfModel α) : List (Archived α) :=
  [.double m.alpha, .integer m.iterations, .integer m.numberOfFeatures, .integer m.order, .vectors m.features,
    .vector m.weights, .vector m.milliseconds]

/-- `serialize` from an input archive; none if the archive does not hold the fields in their order. -/
def load (m : PerfModel α) : List (Archived α) → Option (PerfModel α)
  | [.double alpha, .integer iterations, .integer numberOfFeatures, .integer order, .vectors features, .vector weights,
      .vector milliseconds] =>
    some { m with alpha, iterations, numberOfFeatures, order, features, weights, milliseconds }
  | _ => none

/-- `operator==`. -/
def equals [BEq α] (lhs rhs : PerfModel α) : Bool :=
  lhs.alpha == rhs.alpha && lhs.iterations == rhs.iterations && lhs.numberOfFeatures == rhs.numberOfFeatures &&
    lhs.numberOfDataPoints == rhs.numberOfDataPoints && lhs.order == rhs.order && lhs.features == rhs.features &&
    lhs.weights == rhs.weights && lhs.milliseconds == rhs.milliseconds

/-- What is read back is the saved model, but for what is not archived. -/
theorem load_save (t m : PerfModel α) :
    t.load m.save = some { m with numberOfDataPoints := t.numberOfDataPoints, imp := t.imp } := rfl

/-! ## Models and themselves -/

variable [BEq α]

/-- No number that `operator==` compares differs from itself: none is not a number. -/
structure SelfEqual (m : PerfModel α) : Prop where
  alpha : (m.alpha == m.alpha) = true
  features : ∀ row ∈ m.features, ∀ x ∈ row, (x == x) = true
  weights : ∀ x ∈ m.weights, (x == x) = true
  milliseconds : ∀ x ∈ m.milliseconds, (x == x) = true

omit [BEq α] in
/-- A list equals itself if what is in it does. -/
theorem beq_self_iff {β : Type} [BEq β] (xs : List β) : (xs == xs) = true ↔ ∀ x ∈ xs, (x == x) = true := by
  induction xs with
  | nil => simp
  | cons x xs ih => simp [ih]

/-- **A model equals what it was loaded into** if and only if the number of data points was the same before and no number
compared differs from itself. -/
theorem equals_load_iff (t m : PerfModel α) :
    ({ m with numberOfDataPoints := t.numberOfDataPoints, imp := t.imp } : PerfModel α).equals m = true ↔
      t.numberOfDataPoints = m.numberOfDataPoints ∧ m.SelfEqual := by
  have hfeatures : (m.features == m.features) = true ↔ ∀ row ∈ m.features, ∀ x ∈ row, (x == x) = true := by
    simp only [beq_self_iff]
  simp only [equals, Bool.and_eq_true, hfeatures, beq_self_iff m.weights, beq_self_iff m.milliseconds, beq_self_eq_true,
    and_true, beq_iff_eq]
  constructor
  · rintro ⟨⟨⟨⟨halpha, hnumber⟩, hrows⟩, hweights⟩, hmilliseconds⟩
    exact ⟨hnumber, halpha, hrows, hweights, hmilliseconds⟩
  · rintro ⟨hnumber, h⟩
    exact ⟨⟨⟨⟨h.alpha, hnumber⟩, h.features⟩, h.weights⟩, h.milliseconds⟩

/-- With a weight that is no number, a model does not equal itself. -/
example : let m : PerfModel ExtRat := ⟨.fin 1, 10, 1, 1, 0, [[.fin 1]], [.nan], [.fin 1], ⟨"", "", "", "", "", ""⟩⟩
    @equals ExtRat ⟨fun x y => x.le y && y.le x⟩ m m = false := by
  decide +kernel

end PerfModel

end Hydrogen
