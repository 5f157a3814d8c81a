import Hydrogen.Scheduler.Score
import Mathlib.Tactic.FieldSimp
import Mathlib.Algebra.BigOperators.Group.List.Basic
import Mathlib.Algebra.Order.BigOperators.Group.List

/-!
# Scores without rounding

In exact arithmetic the makespan is the sum of the shares of the predicted times, or infinite if a pair has no resources
(`makespan_fin`, `makespan_posInf`), and the score counts the jobs before it looks at the makespan (`score_fin`,
`score_posInf`).
-/

namespace Hydrogen

/-! ## Makespan -/

/-- The share of the predicted time of one pair. -/
def share (p : JobResPair) : ℚ := p.1.predictedTimeMillis / p.2.length

theorem cost_of_ne_nil {p : JobResPair} (h : p.2 ≠ []) : p.cost .exact = .fin (share p) := by
  have hlen : (p.2.length : ℚ) ≠ 0 := by
    have := List.length_pos_iff.mpr h
    exact_mod_cast this.ne'
  simp [JobResPair.cost, defaultCostFunction, Job.costOn, Job.getDefaultJobTime, share, ExtRat.fin_div_fin hlen]

theorem cost_nil {p : JobResPair} (h : p.2 = []) (ht : 0 < p.1.predictedTimeMillis) : p.cost .exact = .posInf := by
  simp [JobResPair.cost, defaultCostFunction, Job.costOn, Job.getDefaultJobTime, h, ExtRat.fin_div_zero ht]

theorem share_pos {p : JobResPair} (h : p.2 ≠ []) (ht : 0 < p.1.predictedTimeMillis) : 0 < share p := by
  have := List.length_pos_iff.mpr h
  exact div_pos ht (by exact_mod_cast this)

theorem foldl_cost_fin : ∀ (ps : List JobResPair) (x : ℚ), (∀ p ∈ ps, p.2 ≠ []) →
    ps.foldl (fun sum p => Arith.exact.addf sum (p.cost .exact)) (.fin x) = .fin (x + (ps.map share).sum)
  | [], x, _ => by simp
  | p :: ps, x, h => by
    rw [List.foldl_cons, cost_of_ne_nil (h p List.mem_cons_self), Arith.addf_exact, ExtRat.fin_add_fin,
      foldl_cost_fin ps _ fun p' hp' => h p' (List.mem_cons_of_mem _ hp')]
    simp [add_assoc]

/-- If every pair has resources the makespan is the sum of the shares. -/
theorem makespan_fin {a : Allocations} (h : ∀ p ∈ a.jobs, p.2 ≠ []) :
    a.makespan .exact = .fin (a.jobs.map share).sum := by
  simpa only [Allocations.makespan, zero_add] using foldl_cost_fin a.jobs 0 h

theorem foldl_cost_posInf : ∀ (ps : List JobResPair), (∀ p ∈ ps, 0 < p.1.predictedTimeMillis) →
    ps.foldl (fun sum p => Arith.exact.addf sum (p.cost .exact)) .posInf = .posInf
  | [], _ => rfl
  | p :: ps, h => by
    have hp : Arith.exact.addf .posInf (p.cost .exact) = .posInf := by
      by_cases hnil : p.2 = []
      · rw [cost_nil hnil (h p List.mem_cons_self), Arith.addf_exact, ExtRat.posInf_add_posInf]
      · rw [cost_of_ne_nil hnil, Arith.addf_exact, ExtRat.posInf_add_fin]
    rw [List.foldl_cons, hp]
    exact foldl_cost_posInf ps fun p' hp' => h p' (List.mem_cons_of_mem _ hp')

theorem foldl_cost_nil : ∀ (ps : List JobResPair) (x : ℚ), (∀ p ∈ ps, 0 < p.1.predictedTimeMillis) →
    (∃ p ∈ ps, p.2 = []) →
    ps.foldl (fun sum p => Arith.exact.addf sum (p.cost .exact)) (.fin x) = .posInf
  | [], _, _, h => by obtain ⟨p, hp, -⟩ := h; cases hp
  | p :: ps, x, ht, h => by
    have ht' : ∀ p' ∈ ps, 0 < p'.1.predictedTimeMillis := fun p' hp' => ht p' (List.mem_cons_of_mem _ hp')
    by_cases hnil : p.2 = []
    · rw [List.foldl_cons, cost_nil hnil (ht p List.mem_cons_self), Arith.addf_exact, ExtRat.fin_add_posInf,
        foldl_cost_posInf ps ht']
    · rw [List.foldl_cons, cost_of_ne_nil hnil, Arith.addf_exact, ExtRat.fin_add_fin]
      apply foldl_cost_nil ps _ ht'
      obtain ⟨p', hp', hnil'⟩ := h
      rcases List.mem_cons.mp hp' with rfl | hp'
      · exact absurd hnil' hnil
      · exact ⟨p', hp', hnil'⟩

/-- A pair without resources makes the makespan infinite. -/
theorem makespan_posInf {a : Allocations} (ht : ∀ p ∈ a.jobs, 0 < p.1.predictedTimeMillis)
    (h : ∃ p ∈ a.jobs, p.2 = []) : a.makespan .exact = .posInf :=
  foldl_cost_nil a.jobs 0 ht h

/-- With positive times the shares add up to a positive makespan. -/
theorem sum_share_pos {a : Allocations} (hne : ∀ p ∈ a.jobs, p.2 ≠ []) (ht : ∀ p ∈ a.jobs, 0 < p.1.predictedTimeMillis)
    (ha : a.noJobs ≠ 0) : 0 < (a.jobs.map share).sum := by
  refine List.sum_pos _ (fun x hx => ?_) fun h => ha ?_
  · obtain ⟨p, hp, rfl⟩ := List.mem_map.mp hx
    exact share_pos (hne p hp) (ht p hp)
  · rw [noJobs_of_ne_nil hne, List.map_eq_nil_iff.mp h]
    rfl

/-! ## Scores under the completion time strategy -/

/-- The score is the whole part. -/
theorem scoreOf_fin {q n : Nat} {m : ℚ} (hpos : 0 < m) : scoreOf .exact q n (.fin m) = ⌊(q * n : ℚ) + n / m⌋ := by
  have hscore : scoreOf .exact q n (.fin m) = (ExtRat.fin ((q * n : Nat) + n / m)).toInt INT_MIN := by
    simp only [scoreOf, Arith.addf_exact, Arith.divf_exact, Arith.float_exact, ExtRat.fin_div_fin hpos.ne',
      ExtRat.fin_add_fin]
    rfl
  rw [hscore, ExtRat.toInt_fin_of_nonneg _ (by positivity)]
  push_cast
  rfl

theorem scoreOf_posInf (q n : Nat) : scoreOf .exact q n .posInf = q * n := by
  have hdiv : (ExtRat.fin n).div .posInf = .fin 0 := rfl
  have hscore : scoreOf .exact q n .posInf = (ExtRat.fin (q * n : Nat)).toInt INT_MIN := by
    simp only [scoreOf, Arith.addf_exact, Arith.divf_exact, Arith.float_exact, hdiv, ExtRat.fin_add_fin, add_zero]
    rfl
  rw [hscore, ExtRat.toInt_fin_of_nonneg _ (by positivity), Int.floor_natCast]
  push_cast
  rfl

/-- No score is too large. -/
theorem scoresFit_exact (w top : Nat) : Arith.exact.ScoresFit w top := by
  intro q n m hq _ hn _ hm
  have hqn : 0 < q * n := Nat.mul_pos hq hn
  have hpow : (ExtRat.fin 0).lt (.fin (2 ^ (-12 : ℤ))) = true := decide_eq_true (two_zpow_pos (-12))
  have hpos : (ExtRat.fin 0).lt m = true := ExtRat.lt_of_lt_of_le hpow hm
  rcases ExtRat.pos_cases hpos with ⟨x, hx, rfl⟩ | rfl
  · rw [scoreOf_fin hx]
    have hle : ((q * n : Nat) : ℚ) ≤ (q * n : ℚ) + n / x := by
      have : (0 : ℚ) ≤ n / x := by positivity
      push_cast
      linarith
    have hfloor := Int.floor_mono hle
    rw [Int.floor_natCast] at hfloor
    exact_mod_cast (show (0 : ℤ) < (q * n : Nat) by exact_mod_cast hqn).trans_le hfloor
  · rw [scoreOf_posInf]
    exact_mod_cast hqn

/-- A positive finite makespan is divided by. -/
theorem score_fin_eq {n : Nat} (hn : 0 < n) {a : Allocations} {m : ℚ} (hm : a.makespan .exact = .fin m) (hpos : 0 < m)
    (ha : 1 ≤ a.noJobs) : (score .exact .completionTime n a).score = ⌊(n * a.noJobs : ℚ) + a.noJobs / m⌋ := by
  have hcond : ¬(a.noJobs = 0 ∨ (a.makespan .exact).le (.fin 0) = true) := by
    rw [hm]
    simp only [ExtRat.le, decide_eq_true_eq]
    rintro (h | h)
    · omega
    · exact absurd h (not_le.mpr hpos)
  rw [score_of_not hn hcond, hm, scoreOf_fin hpos]

/-- It adds to one queue length for each job. -/
theorem score_fin {n : Nat} (hn : 0 < n) {a : Allocations} {m : ℚ} (hm : a.makespan .exact = .fin m) (hpos : 0 < m)
    (ha : 1 ≤ a.noJobs) : (n * a.noJobs : Int) ≤ (score .exact .completionTime n a).score := by
  rw [score_fin_eq hn hm hpos ha, Int.le_floor]
  push_cast
  have : (0 : ℚ) ≤ a.noJobs / m := by positivity
  linarith

/-- An infinite makespan adds nothing. -/
theorem score_posInf {n : Nat} (hn : 0 < n) {a : Allocations} (hm : a.makespan .exact = .posInf) :
    (score .exact .completionTime n a).score = n * a.noJobs := by
  by_cases h0 : a.noJobs = 0
  · rw [score_zero (.inl h0), h0]
    simp
  · have hcond : ¬(a.noJobs = 0 ∨ (a.makespan .exact).le (.fin 0) = true) := by
      rw [hm]
      simpa [ExtRat.le] using h0
    rw [score_of_not hn hcond, hm, scoreOf_posInf]

/-! ## The choice -/

theorem float_le_exact {n k : ℤ} : (Arith.exact.float n).le (Arith.exact.float k) = true ↔ n ≤ k := by
  simp [ExtRat.le]

end Hydrogen
