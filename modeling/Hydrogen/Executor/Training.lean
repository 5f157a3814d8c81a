import Hydrogen.Lib.Exec
import Hydrogen.Executor.PerfModel
import Mathlib.Data.Int.GCD
import Mathlib.Data.Nat.Find

/-!
# Training data

`CreateModel` samples a benchmark at about a hundred sizes up to `maxsize` (`GenerateTestData`) and fits the weights of
the model to the times (`LinearRegression`). Both divide by quotients of what the caller chose. The sampling loop counts
in steps of `maxsize / 100` with a `uint64_t` that wraps; it ends if and only if the step is not zero and some multiple
of it, modulo 2^64, reaches `maxsize` (`sampling_ends_iff`). Each sample is a row of powers of the size and an average
of three times (`generateTestData_sampled`).
-/

namespace Hydrogen

namespace PerfModel

open Exec

/-! ## The code -/

/-- `for (int j = 0; j <= order; j++) tmp.push_back(entry(j))`; the counter wraps. -/
def pushRow (order : Nat) (entry : Int → ℚ) (fuel : Nat) : Exec (List ℚ) := do
  let s ← loop (fun s : BitVec 32 × List ℚ => decide (s.1.toInt ≤ order))
    (fun s => done (s.1 + 1, s.2 ++ [entry s.1.toInt])) fuel (0, [])
  pure s.2

/-- The sampling loop: its counter, the calls of the benchmark so far, and the two vectors. -/
structure Sampling where
  i : BitVec 64
  calls : Nat
  features : List (List ℚ)
  milliseconds : List ℚ

/-- The sample at the counter, if it is above zero. What the benchmark returns may differ from call to call; of the four
calls the first warms up the cache. -/
def takeSample (order : Nat) (f : Nat → BitVec 64 → ℚ) (fuel : Nat) (s : Sampling) : Exec Sampling :=
  if 0 < s.i then do
    let tmp ← pushRow order (fun j => (s.i.toNat : ℚ) ^ j) fuel
    let ave := (f (s.calls + 1) s.i + f (s.calls + 2) s.i + f (s.calls + 3) s.i) / 3
    pure ⟨s.i, s.calls + 4, s.features ++ [tmp], s.milliseconds ++ [ave]⟩
  else pure s

/-- One round of the sampling loop. -/
def sample (order : Nat) (maxsize : BitVec 64) (f : Nat → BitVec 64 → ℚ) (fuel : Nat) (s : Sampling) :
    Exec Sampling := do
  let s ← takeSample order f fuel s
  -- the test for a dot of progress takes the remainder by the step
  if maxsize / 100 = 0 then fault .divideByZero
  else pure { s with i := s.i + maxsize / 100 }

/-- `GenerateTestData`. -/
def generateTestData (m : PerfModel ℚ) (maxsize : BitVec 64) (f : Nat → BitVec 64 → ℚ) (fuel : Nat) :
    Exec (PerfModel ℚ) := do
  let tmp ← pushRow m.order (fun _ => 1) fuel
  let s ← loop (fun s => decide (s.i < maxsize)) (sample m.order maxsize f fuel) fuel
    ⟨0, 0, m.features ++ [tmp], m.milliseconds ++ [1]⟩
  pure { m with features := s.features, milliseconds := s.milliseconds }

/-- `H`, the time predicted for a row. -/
def hypothesis (m : PerfModel ℚ) (weights : List ℚ) (p : Nat) : Exec ℚ :=
  forLoop (fun i H => do
    let w ← index weights i
    let row ← index m.features p
    let x ← index row i
    pure (H + w * x)) m.numberOfFeatures 0

/-- `costDerivative` of one feature. -/
def costDerivative (m : PerfModel ℚ) (weights : List ℚ) (f : Nat) : Exec ℚ :=
  forLoop (fun p costDerivative => do
    let Y ← index m.milliseconds p
    let H ← m.hypothesis weights p
    let row ← index m.features p
    let x ← index row f
    pure (costDerivative + (H - Y) * x)) m.numberOfDataPoints 0

/-- One iteration: the new weights are computed from the old ones, and then replace them. -/
def regressionStep (m : PerfModel ℚ) (weights : List ℚ) : Exec (List ℚ) := do
  -- the test for a dot of progress takes the remainder by a tenth of the iterations
  if m.iterations / 10 = 0 then fault .divideByZero
  else
    let newWeights ← forLoop (fun f newWeights => do
      let currentWeight ← index weights f
      let costDerivative ← m.costDerivative weights f
      pure (newWeights ++ [currentWeight - m.alpha * costDerivative])) m.numberOfFeatures []
    forLoop (fun f weights => do
      let w ← index newWeights f
      assign weights f w) m.numberOfFeatures weights

/-- `LinearRegression`. -/
def linearRegression (m : PerfModel ℚ) : Exec (PerfModel ℚ) := do
  let m := { m with numberOfDataPoints := m.milliseconds.length }
  let weights ← forLoop (fun _ weights => m.regressionStep weights) m.iterations (List.replicate m.numberOfFeatures 0)
  pure { m with weights }

/-- `CreateModel`; its benchmark takes an `int`. -/
def createModel (m : PerfModel ℚ) (maxsize : BitVec 64) (f : Nat → BitVec 32 → ℚ) (fuel : Nat) : Exec (PerfModel ℚ) := do
  let m ← m.generateTestData maxsize (fun call i => f call (i.setWidth 32)) fuel
  m.linearRegression

/-! ## Rows -/

/-- The powers of `x` up to the order. -/
def powers (order : Nat) (x : ℚ) : List ℚ := (List.range (order + 1)).map fun j => x ^ j

theorem toInt_counter {k : Nat} (h : k < 2 ^ 31) : (BitVec.ofNat 32 k).toInt = k := by
  rw [BitVec.toInt_eq_toNat_cond, BitVec.toNat_ofNat, Nat.mod_eq_of_lt (by omega), if_pos (by omega)]

/-- A row has `order + 1` entries, if that many can be counted. -/
theorem pushRow_eq {order fuel : Nat} (entry : Int → ℚ) (ho : order + 1 < 2 ^ 31) (hfuel : order + 1 < fuel) :
    pushRow order entry fuel = done ((List.range (order + 1)).map fun j : Nat => entry j) := by
  let state (k : Nat) : BitVec 32 × List ℚ := (BitVec.ofNat 32 k, (List.range k).map fun j : Nat => entry j)
  have hrun : loop (fun s : BitVec 32 × List ℚ => decide (s.1.toInt ≤ order))
      (fun s => done (s.1 + 1, s.2 ++ [entry s.1.toInt])) fuel (state 0) = done (state (0 + (order + 1))) := by
    refine loop_counted state (order + 1) 0 fuel ?_ ?_ ?_ hfuel
    · intro i _ hi
      have hint : (BitVec.ofNat 32 i).toInt = i := toInt_counter (by omega)
      simp only [state, hint, decide_eq_true_eq]
      omega
    · intro i _ hi
      have hint : (BitVec.ofNat 32 i).toInt = i := toInt_counter (by omega)
      have hnext : BitVec.ofNat 32 i + 1 = BitVec.ofNat 32 (i + 1) := (BitVec.ofNat_add i 1).symm
      simp only [state, hint, hnext, List.range_succ, List.map_append, List.map_cons, List.map_nil]
    · have hint : (BitVec.ofNat 32 (0 + (order + 1))).toInt = (0 + (order + 1) : Nat) := toInt_counter (by omega)
      simp only [state, hint, decide_eq_false_iff_not]
      omega
  rw [Nat.zero_add] at hrun
  show (loop _ _ fuel (state 0) >>= fun s => pure s.2) = _
  rw [hrun]
  rfl

/-- With the largest `int` as order no counter is above it. -/
theorem pushRow_ne_done {order fuel : Nat} {entry : Int → ℚ} {row : List ℚ} (ho : 2 ^ 31 ≤ order + 1) :
    pushRow order entry fuel ≠ done row := by
  intro h
  obtain ⟨s, hs, -⟩ := bind_eq_done.mp h
  refine loop_ne_done (I := fun _ => True) (fun s _ => ?_) (fun _ _ _ _ => trivial) fuel s trivial hs
  have hlt := BitVec.toInt_lt (x := s.1)
  rw [decide_eq_true_eq]
  omega

/-- A row that was pushed has all its entries. -/
theorem pushRow_done {order fuel : Nat} {entry : Int → ℚ} {row : List ℚ} (h : pushRow order entry fuel = done row) :
    order + 1 < 2 ^ 31 ∧ row = (List.range (order + 1)).map fun j : Nat => entry j := by
  have ho : order + 1 < 2 ^ 31 := by
    by_contra hnot
    exact pushRow_ne_done (by omega) h
  obtain ⟨s, hs, hrow⟩ := bind_eq_done.mp h
  have hmore := loop_mono (fun _ _ ht => ht) (Nat.le_add_right fuel (order + 2)) hs
  have hall := pushRow_eq entry ho (show order + 1 < fuel + (order + 2) by omega)
  rw [pushRow, hmore] at hall
  rw [pure_eq] at hrow
  rw [done_bind, pure_eq] at hall
  exact ⟨ho, by rw [← Exec.done.inj hrow, Exec.done.inj hall]⟩

/-! ## Samples -/

/-- The average of three of the times at a size. -/
def average (f : Nat → BitVec 64 → ℚ) (calls : Nat) (i : BitVec 64) : ℚ :=
  (f (calls + 1) i + f (calls + 2) i + f (calls + 3) i) / 3

/-- The data points of sampled sizes: the size and its averaged time. -/
def samplePoints (f : Nat → BitVec 64 → ℚ) (sizes : List (BitVec 64)) : List (ℚ × ℚ) :=
  sizes.zipIdx.map fun p => ((p.1.toNat : ℚ), average f (4 * p.2) p.1)

theorem samplePoints_snoc (f : Nat → BitVec 64 → ℚ) (sizes : List (BitVec 64)) (i : BitVec 64) :
    samplePoints f (sizes ++ [i]) = samplePoints f sizes ++ [((i.toNat : ℚ), average f (4 * sizes.length) i)] := by
  simp [samplePoints, List.zipIdx_append]

/-- **The rows and times are data points**: each row has the powers of a size, each time is the one at that size. -/
structure Sampled (order : Nat) (features : List (List ℚ)) (milliseconds : List ℚ) (points : List (ℚ × ℚ)) : Prop where
  rows : features = points.map fun p => powers order p.1
  times : milliseconds = points.map Prod.snd

namespace Sampled

variable {order : Nat} {features : List (List ℚ)} {milliseconds : List ℚ} {points : List (ℚ × ℚ)}

theorem snoc (h : Sampled order features milliseconds points) (x y : ℚ) :
    Sampled order (features ++ [powers order x]) (milliseconds ++ [y]) (points ++ [(x, y)]) :=
  ⟨by simp [h.rows], by simp [h.times]⟩

theorem length_eq (h : Sampled order features milliseconds points) : features.length = milliseconds.length := by
  rw [h.rows, h.times, List.length_map, List.length_map]

end Sampled

/-- The counter after so many rounds. -/
def counter (maxsize : BitVec 64) (k : Nat) : BitVec 64 := BitVec.ofNat 64 (k * (maxsize / 100).toNat)

/-- The sizes sampled in so many rounds. -/
def visited (maxsize : BitVec 64) (k : Nat) : List (BitVec 64) := ((List.range k).map (counter maxsize)).filter (0 < ·)

theorem counter_succ (maxsize : BitVec 64) (k : Nat) : counter maxsize k + maxsize / 100 = counter maxsize (k + 1) := by
  rw [counter, counter, Nat.succ_mul, BitVec.ofNat_add, BitVec.ofNat_toNat, BitVec.setWidth_eq]

theorem visited_succ (maxsize : BitVec 64) (k : Nat) : visited maxsize (k + 1) =
    if 0 < counter maxsize k then visited maxsize k ++ [counter maxsize k] else visited maxsize k := by
  rw [visited, List.range_succ, List.map_append, List.filter_append]
  split
  · rename_i hpos
    rw [List.map_singleton, List.filter_cons_of_pos (by simpa using hpos)]
    rfl
  · rename_i hzero
    rw [List.map_singleton, List.filter_cons_of_neg (by simpa using hzero)]
    exact List.append_nil _

section Rounds

variable {order : Nat} {maxsize : BitVec 64} {f : Nat → BitVec 64 → ℚ} {fuel : Nat}

/-- The state after a round. -/
def Sampling.next (order : Nat) (maxsize : BitVec 64) (f : Nat → BitVec 64 → ℚ) (s : Sampling) : Sampling :=
  if 0 < s.i then
    ⟨s.i + maxsize / 100, s.calls + 4, s.features ++ [powers order s.i.toNat], s.milliseconds ++ [average f s.calls s.i]⟩
  else { s with i := s.i + maxsize / 100 }

theorem powers_eq (order : Nat) (x : ℚ) :
    ((List.range (order + 1)).map fun j : Nat => x ^ (j : Int)) = powers order x := by
  simp only [zpow_natCast, powers]

/-- A round that has fuel for its row. -/
theorem sample_eq (ho : order + 1 < 2 ^ 31) (hfuel : order + 1 < fuel) (hstep : maxsize / 100 ≠ 0) (s : Sampling) :
    sample order maxsize f fuel s = done (s.next order maxsize f) := by
  unfold sample takeSample Sampling.next
  by_cases hpos : 0 < s.i
  · rw [if_pos hpos, if_pos hpos, pushRow_eq _ ho hfuel, powers_eq, done_bind, pure_eq, done_bind, if_neg hstep]
    rfl
  · rw [if_neg hpos, if_neg hpos, pure_eq, done_bind, if_neg hstep]
    rfl

/-- A round that ended. -/
theorem sample_done {s t : Sampling} (h : sample order maxsize f fuel s = done t) :
    maxsize / 100 ≠ 0 ∧ t = s.next order maxsize f := by
  obtain ⟨u, hu, h⟩ := bind_eq_done.mp h
  split at h
  · cases h
  rename_i hstep
  cases h
  refine ⟨hstep, ?_⟩
  unfold takeSample at hu
  unfold Sampling.next
  split at hu
  · rename_i hpos
    obtain ⟨tmp, htmp, hu⟩ := bind_eq_done.mp hu
    cases hu
    rw [if_pos hpos, (pushRow_done htmp).2, powers_eq]
    rfl
  · rename_i hzero
    cases hu
    rw [if_neg hzero]

/-- The loop after `k` rounds, which all began below `maxsize`. -/
structure SamplingAt (order : Nat) (maxsize : BitVec 64) (f : Nat → BitVec 64 → ℚ) (points : List (ℚ × ℚ)) (k : Nat)
    (s : Sampling) : Prop where
  i : s.i = counter maxsize k
  calls : s.calls = 4 * (visited maxsize k).length
  data : Sampled order s.features s.milliseconds (points ++ samplePoints f (visited maxsize k))
  below : ∀ j < k, counter maxsize j < maxsize
  step : 0 < k → maxsize / 100 ≠ 0

theorem SamplingAt.next {points : List (ℚ × ℚ)} {k : Nat} {s : Sampling} (h : SamplingAt order maxsize f points k s)
    (hlt : s.i < maxsize) (hstep : maxsize / 100 ≠ 0) :
    SamplingAt order maxsize f points (k + 1) (s.next order maxsize f) := by
  have hbelow : ∀ j < k + 1, counter maxsize j < maxsize := by
    intro j hj
    rcases Nat.lt_succ_iff_lt_or_eq.mp hj with hj | rfl
    · exact h.below j hj
    · exact h.i ▸ hlt
  have hnext : s.i + maxsize / 100 = counter maxsize (k + 1) := by rw [h.i, counter_succ]
  have hvisited := visited_succ maxsize k
  rw [← h.i] at hvisited
  unfold Sampling.next
  by_cases hpos : 0 < s.i
  · rw [if_pos hpos] at hvisited ⊢
    refine ⟨hnext, ?_, ?_, hbelow, fun _ => hstep⟩
    · show s.calls + 4 = _
      rw [hvisited, List.length_append, List.length_singleton, h.calls, Nat.mul_add]
    · rw [hvisited, samplePoints_snoc, ← List.append_assoc, ← h.calls]
      exact h.data.snoc _ _
  · rw [if_neg hpos] at hvisited ⊢
    exact ⟨hnext, by rw [hvisited]; exact h.calls, by rw [hvisited]; exact h.data, hbelow, fun _ => hstep⟩

/-- The loop stays in these states as long as the counter is below `maxsize`. -/
theorem SamplingAt.iterate {points : List (ℚ × ℚ)} {k : Nat} {s : Sampling} (h : SamplingAt order maxsize f points 0 s)
    (hbelow : ∀ j < k, counter maxsize j < maxsize) (hstep : 0 < k → maxsize / 100 ≠ 0) :
    ∀ j ≤ k, SamplingAt order maxsize f points j ((Sampling.next order maxsize f)^[j] s) := by
  intro j
  induction j with
  | zero => exact fun _ => h
  | succ j ih =>
    intro hj
    have hs := ih (by omega)
    rw [Function.iterate_succ_apply']
    exact hs.next (by rw [hs.i]; exact hbelow j (by omega)) (hstep (by omega))

/-- The loop, if it ends after `k` rounds. -/
theorem loop_sample {points : List (ℚ × ℚ)} {k n : Nat} {s : Sampling} (ho : order + 1 < 2 ^ 31)
    (hfuel : order + 1 < fuel) (h : SamplingAt order maxsize f points 0 s)
    (hbelow : ∀ j < k, counter maxsize j < maxsize) (hreach : maxsize ≤ counter maxsize k)
    (hstep : 0 < k → maxsize / 100 ≠ 0) (hn : k < n) :
    loop (fun s => decide (s.i < maxsize)) (sample order maxsize f fuel) n s =
      done ((Sampling.next order maxsize f)^[k] s) := by
  have hstates := h.iterate hbelow hstep
  have hrun : loop (fun s => decide (s.i < maxsize)) (sample order maxsize f fuel) n s =
      done ((Sampling.next order maxsize f)^[0 + k] s) := by
    refine loop_counted (fun j => (Sampling.next order maxsize f)^[j] s) k 0 n ?_ ?_ ?_ hn
    · intro j _ hj
      rw [decide_eq_true_eq, (hstates j (by omega)).i]
      exact hbelow j (by omega)
    · intro j _ hj
      rw [sample_eq ho hfuel (hstep (by omega)), Function.iterate_succ_apply']
    · rw [decide_eq_false_iff_not, Nat.zero_add, (hstates k (Nat.le_refl k)).i]
      exact BitVec.not_lt.mpr hreach
  rwa [Nat.zero_add] at hrun

end Rounds

/-! ## The sampling loop -/

/-- The multiples of `s` reach `M` modulo `N` if and only if the largest multiple of the common divisor does. -/
theorem exists_mul_mod_ge_iff {M s N : Nat} (hN : 0 < N) : (∃ k, M ≤ k * s % N) ↔ M + Nat.gcd s N ≤ N := by
  have hpos : 0 < Nat.gcd s N := Nat.gcd_pos_of_pos_right s hN
  obtain ⟨q, hq⟩ := Nat.gcd_dvd_right s N
  constructor
  · rintro ⟨k, hk⟩
    have hdvd : Nat.gcd s N ∣ k * s % N :=
      (Nat.dvd_mod_iff (Nat.gcd_dvd_right s N)).mpr ((Nat.gcd_dvd_left s N).mul_left k)
    have hsub := Nat.le_of_dvd (Nat.sub_pos_of_lt (Nat.mod_lt (k * s) hN)) (Nat.dvd_sub (Nat.gcd_dvd_right s N) hdvd)
    have hlt := Nat.mod_lt (k * s) hN
    omega
  · intro hle
    suffices h : ∃ k, k * s % N = N - Nat.gcd s N by
      obtain ⟨k, hk⟩ := h
      exact ⟨k, by omega⟩
    rcases Nat.lt_or_ge (Nat.gcd s N) N with hlt | hge
    · obtain ⟨k, -, hk⟩ := Nat.exists_mul_mod_eq_gcd hlt
      refine ⟨(q - 1) * k, ?_⟩
      have hmul : (q - 1) * Nat.gcd s N = N - Nat.gcd s N := by
        rw [Nat.sub_mul, Nat.one_mul, Nat.mul_comm q, ← hq]
      rw [Nat.mul_assoc, Nat.mul_comm k s, ← Nat.mul_mod_mod, hk, hmul]
      exact Nat.mod_eq_of_lt (by omega)
    · exact ⟨0, by rw [Nat.zero_mul, Nat.zero_mod]; omega⟩

theorem toNat_step (maxsize : BitVec 64) : (maxsize / 100).toNat = maxsize.toNat / 100 := BitVec.toNat_udiv

theorem step_ne_zero_iff (maxsize : BitVec 64) : maxsize / 100 ≠ 0 ↔ 100 ≤ maxsize.toNat := by
  have hstep := toNat_step maxsize
  rw [Ne, ← BitVec.toNat_inj, hstep]
  show ¬maxsize.toNat / 100 = 0 ↔ _
  omega

/-- Some value of the counter ends the loop. -/
theorem counter_reaches_iff (maxsize : BitVec 64) : (∃ k, maxsize ≤ counter maxsize k) ↔
    maxsize.toNat + Nat.gcd (maxsize.toNat / 100) (2 ^ 64) ≤ 2 ^ 64 := by
  rw [← exists_mul_mod_ge_iff (Nat.two_pow_pos 64), ← toNat_step]
  simp only [BitVec.le_def, counter, BitVec.toNat_ofNat]

/-- What the loop needs to end: nothing to sample, or a step that is not zero and whose multiples reach `maxsize`. -/
def SamplingEnds (maxsize : BitVec 64) : Prop :=
  maxsize = 0 ∨ 100 ≤ maxsize.toNat ∧ maxsize.toNat + Nat.gcd (maxsize.toNat / 100) (2 ^ 64) ≤ 2 ^ 64

instance (maxsize : BitVec 64) : Decidable (SamplingEnds maxsize) := inferInstanceAs (Decidable (_ ∨ _))

/-- The number of rounds. -/
theorem SamplingEnds.rounds {maxsize : BitVec 64} (h : SamplingEnds maxsize) :
    ∃ k, (∀ j < k, counter maxsize j < maxsize) ∧ maxsize ≤ counter maxsize k ∧ (0 < k → maxsize / 100 ≠ 0) := by
  rcases h with rfl | ⟨h100, hgcd⟩
  · exact ⟨0, fun j hj => absurd hj (Nat.not_lt_zero j), Nat.zero_le _, fun h => absurd h (Nat.lt_irrefl 0)⟩
  · classical
    have hex := (counter_reaches_iff maxsize).mpr hgcd
    exact ⟨Nat.find hex, fun j hj => BitVec.not_le.mp (Nat.find_min hex hj), Nat.find_spec hex,
      fun _ => (step_ne_zero_iff maxsize).mpr h100⟩

section Generate

variable {m m' : PerfModel ℚ} {maxsize : BitVec 64} {f : Nat → BitVec 64 → ℚ} {fuel : Nat} {points : List (ℚ × ℚ)}

/-- Before the first round there is the row of ones. -/
theorem SamplingAt.start (hm : Sampled m.order m.features m.milliseconds points) :
    SamplingAt m.order maxsize f (points ++ [(1, 1)]) 0
      ⟨0, 0, m.features ++ [powers m.order 1], m.milliseconds ++ [1]⟩ where
  i := by rw [counter, Nat.zero_mul]; rfl
  calls := rfl
  data := by simpa [visited, samplePoints] using hm.snoc 1 1
  below := fun j hj => absurd hj (Nat.not_lt_zero j)
  step := fun h => absurd h (Nat.lt_irrefl 0)

theorem ones_eq (order : Nat) : ((List.range (order + 1)).map fun _ : Nat => (1 : ℚ)) = powers order 1 := by
  simp only [powers, one_pow]

/-- **What was generated**: behind the old data a point for the row of ones and one for each size that was visited,
until the counter was no longer below `maxsize`. -/
theorem generateTestData_sampled (hm : Sampled m.order m.features m.milliseconds points)
    (h : m.generateTestData maxsize f fuel = done m') :
    m.order + 1 < 2 ^ 31 ∧ m' = { m with features := m'.features, milliseconds := m'.milliseconds } ∧
      ∃ k, (∀ j < k, counter maxsize j < maxsize) ∧ maxsize ≤ counter maxsize k ∧ (0 < k → maxsize / 100 ≠ 0) ∧
        Sampled m.order m'.features m'.milliseconds (points ++ (1, 1) :: samplePoints f (visited maxsize k)) := by
  obtain ⟨tmp, htmp, h⟩ := bind_eq_done.mp h
  obtain ⟨s, hloop, h⟩ := bind_eq_done.mp h
  cases h
  obtain ⟨ho, rfl⟩ := pushRow_done htmp
  rw [ones_eq] at hloop
  obtain ⟨⟨k, hs⟩, hend⟩ := loop_invariant
    (I := fun s => ∃ k, SamplingAt m.order maxsize f (points ++ [(1, 1)]) k s)
    (fun s t ⟨k, hs⟩ hcond hbody => by
      obtain ⟨hstep, rfl⟩ := sample_done hbody
      exact ⟨k + 1, hs.next (of_decide_eq_true hcond) hstep⟩)
    fuel ⟨0, SamplingAt.start hm⟩ hloop
  have hdata := hs.data
  rw [List.append_assoc] at hdata
  refine ⟨ho, rfl, k, hs.below, ?_, hs.step, hdata⟩
  rw [← hs.i]
  exact BitVec.not_lt.mp (of_decide_eq_false hend)

/-- **The sampling ends** if and only if the powers of the rows can be counted and the counter gets to `maxsize`. -/
theorem sampling_ends_iff (hm : Sampled m.order m.features m.milliseconds points) :
    (∃ fuel m', m.generateTestData maxsize f fuel = done m') ↔ m.order + 1 < 2 ^ 31 ∧ SamplingEnds maxsize := by
  constructor
  · rintro ⟨fuel, m', h⟩
    obtain ⟨ho, -, k, -, hreach, hstep, -⟩ := generateTestData_sampled hm h
    refine ⟨ho, ?_⟩
    rcases Nat.eq_zero_or_pos k with rfl | hk
    · refine .inl (BitVec.eq_of_toNat_eq ?_)
      rw [BitVec.le_def, counter, Nat.zero_mul] at hreach
      exact Nat.le_zero.mp hreach
    · exact .inr ⟨(step_ne_zero_iff maxsize).mp (hstep hk), (counter_reaches_iff maxsize).mp ⟨k, hreach⟩⟩
  · rintro ⟨ho, hends⟩
    obtain ⟨k, hbelow, hreach, hstep⟩ := hends.rounds
    refine ⟨k + m.order + 2, ?_⟩
    rw [generateTestData, pushRow_eq _ ho (by omega), ones_eq, done_bind,
      loop_sample ho (by omega) (SamplingAt.start hm) hbelow hreach hstep (by omega), done_bind]
    exact ⟨_, rfl⟩

end Generate

/-! ## The life of a model -/

/-- The objects there are: constructed, with `numberOfDataPoints` left to chance, and then changed by the methods. -/
inductive Reached : PerfModel ℚ → Prop where
  | construct (imp : Implementation) (alpha : ℚ) (iterations numberOfFeatures numberOfDataPoints order : Nat) :
      order < 2 ^ 31 → Reached ⟨alpha, iterations, numberOfFeatures, numberOfDataPoints, order, [], [], [], imp⟩
  | setAlpha {m : PerfModel ℚ} (alpha : ℚ) : Reached m → Reached { m with alpha }
  | setIter {m : PerfModel ℚ} (iterations : Nat) : Reached m → Reached { m with iterations }
  | generateTestData {m m' : PerfModel ℚ} {maxsize : BitVec 64} {f : Nat → BitVec 64 → ℚ} {fuel : Nat} :
      Reached m → m.generateTestData maxsize f fuel = done m' → Reached m'
  | linearRegression {m m' : PerfModel ℚ} : Reached m → m.linearRegression = done m' → Reached m'
  | load {t m m' : PerfModel ℚ} : Reached t → Reached m → t.load m.save = some m' → Reached m'

theorem linearRegression_frame {m m' : PerfModel ℚ} (h : m.linearRegression = done m') :
    m' = { m with numberOfDataPoints := m.milliseconds.length, weights := m'.weights } := by
  obtain ⟨weights, -, h⟩ := bind_eq_done.mp h
  cases h
  rfl

/-- **The data of a model are always data points**, however often it was trained. -/
theorem Reached.sampled {m : PerfModel ℚ} (h : m.Reached) :
    m.order < 2 ^ 31 ∧ ∃ points, Sampled m.order m.features m.milliseconds points := by
  induction h with
  | construct imp alpha iterations numberOfFeatures numberOfDataPoints order ho => exact ⟨ho, [], rfl, rfl⟩
  | setAlpha alpha _ ih => exact ih
  | setIter iterations _ ih => exact ih
  | generateTestData _ hgen ih =>
    obtain ⟨ho, points, hpoints⟩ := ih
    obtain ⟨-, hframe, k, -, -, -, hdata⟩ := generateTestData_sampled hpoints hgen
    rw [hframe]
    exact ⟨ho, _, hdata⟩
  | linearRegression _ hreg ih =>
    rw [linearRegression_frame hreg]
    exact ih
  | load _ _ hload _ ih =>
    rw [load_save] at hload
    cases hload
    exact ih

end PerfModel

end Hydrogen
