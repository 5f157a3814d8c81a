import Hydrogen.Common.Arith
import Hydrogen.Common.Message

/-!
# Resources and jobs

A resource is a device behind a dispatcher. A job is built from a request; it asks for between `min` and `max`
resources and carries a predicted and a target execution time. The durations are `duration<double>`, hence in seconds
whatever their names say. A job has them as they were converted from milliseconds, before they are rounded to `double`;
whoever reads them rounds them.
-/

namespace Hydrogen

/-- `Resource`; two resources are the same when their ids are. -/
structure Resource where
  rid : Nat
  port : Nat
  url : String
  type : String
  deriving DecidableEq

/-- The ids of resources. -/
def rids (rs : List Resource) : List Nat := rs.map Resource.rid

@[simp] theorem rids_nil : rids [] = [] := rfl

@[simp] theorem rids_cons (r : Resource) (rs : List Resource) : rids (r :: rs) = r.rid :: rids rs := rfl

@[simp] theorem rids_append (rs ts : List Resource) : rids (rs ++ ts) = rids rs ++ rids ts := List.map_append

/-- `Job`: the fields the scheduler reads. No job asks for fewer than one resource or for more at least than at most,
and `max` is a `size_t`. -/
structure Job where
  jid : Nat
  min : Nat
  max : Nat
  priority : Int
  predictedTimeMillis : ℚ
  targetExecutionTimeMillis : ℚ
  req : Msg
  one_le_min : 1 ≤ min
  min_le_max : min ≤ max
  max_lt : max < 2 ^ 64
  deriving DecidableEq

namespace Job

/-- The constructor: a job of one to four resources, with the times of the request and its client as priority. -/
def ofRequest (request : Msg) (id : Nat) : Job where
  jid := id
  min := 1
  max := 4
  priority := request.clientId.toInt
  predictedTimeMillis := (request.predictedTimeMillis.toInt : ℚ) / 1000
  targetExecutionTimeMillis := (request.targetExecutionTimeMillis.toInt : ℚ) / 1000
  req := request
  one_le_min := by decide
  min_le_max := by decide
  max_lt := by decide

/-- The job comes from the constructor. -/
def Built (j : Job) : Prop := ∃ request id, j = ofRequest request id

theorem Built.min_eq {j : Job} (h : j.Built) : j.min = 1 := by
  obtain ⟨request, id, rfl⟩ := h; rfl

theorem Built.max_eq {j : Job} (h : j.Built) : j.max = 4 := by
  obtain ⟨request, id, rfl⟩ := h; rfl

variable (fp : Arith)

/-- `getDefaultJobTime`, in seconds. -/
def getDefaultJobTime (j : Job) : ExtRat := fp.toFloat (fp.double j.predictedTimeMillis)

/-- `minCost`: the time on the fewest resources the job accepts. -/
def minCost (j : Job) : ExtRat := fp.toFloat (fp.divd (fp.double j.predictedTimeMillis) (fp.double j.min))

/-- `getJlo`: the slack of the job on `resourceCount` resources, negative when it misses its target. -/
def getJlo (j : Job) (resourceCount : Nat) : ExtRat :=
  fp.subd (fp.double j.targetExecutionTimeMillis) (fp.divd (fp.double j.predictedTimeMillis) (.fin resourceCount))

theorem getDefaultJobTime_ne_nan (j : Job) : j.getDefaultJobTime fp ≠ .nan :=
  Arith.toFloat_ne_nan (fp.double_ne_nan _)

/-- The number of resources is a positive number. -/
theorem double_min (j : Job) : ∃ m, 0 < m ∧ fp.double j.min = .fin m := by
  have hlow : (ExtRat.fin 1).le (fp.double j.min) = true := by
    have h := fp.double_mono (show (2 : ℚ) ^ (0 : ℤ) ≤ j.min by simpa using j.one_le_min)
    rwa [fp.double_pow (by decide) (by decide), zpow_zero] at h
  have hhigh : (fp.double j.min).le (.fin (2 ^ (64 : ℤ))) = true := by
    have hlt : (j.min : ℚ) ≤ 2 ^ (64 : ℤ) := by
      have := j.min_le_max.trans j.max_lt.le
      exact_mod_cast this
    have h := fp.double_mono hlt
    rwa [fp.double_pow (by decide) (by decide)] at h
  cases h : fp.double j.min with
  | fin m =>
    rw [h] at hlow
    exact ⟨m, zero_lt_one.trans_le (of_decide_eq_true hlow), rfl⟩
  | posInf => rw [h] at hhigh; cases hhigh
  | negInf => rw [h] at hlow; cases hlow
  | nan => rw [h] at hlow; cases hlow

theorem minCost_ne_nan (j : Job) : j.minCost fp ≠ .nan := by
  obtain ⟨m, hm, heq⟩ := j.double_min fp
  refine Arith.toFloat_ne_nan (Arith.toDouble_ne_nan ?_)
  rw [heq]
  have hself := ExtRat.div_le_div_right hm (ExtRat.le_refl (fp.double_ne_nan j.predictedTimeMillis))
  exact (ExtRat.ne_nan_of_le hself).1

/-- On one resource the cost is the time. -/
theorem minCost_of_min_one {j : Job} (h : j.min = 1) : j.minCost fp = j.getDefaultJobTime fp := by
  have hone : fp.double ((1 : Nat) : ℚ) = .fin ((1 : Nat) : ℚ) := fp.double_natCast (by decide)
  have hdiv : (fp.double j.predictedTimeMillis).div (.fin ((1 : Nat) : ℚ)) = fp.double j.predictedTimeMillis := by
    cases fp.double j.predictedTimeMillis <;> simp [ExtRat.div]
  rw [minCost, h, hone, Arith.divd, hdiv, Arith.toDouble_double]
  rfl

theorem minCost_exact (j : Job) : j.minCost .exact = .fin (j.predictedTimeMillis / j.min) := by
  have hmin : (j.min : ℚ) ≠ 0 := by
    have := j.one_le_min
    exact_mod_cast Nat.ne_of_gt this
  simp [minCost, Arith.divd, ExtRat.fin_div_fin hmin]

end Job

/-- A job and the resources allocated to it. -/
abbrev JobResPair := Job × List Resource

/-- The predicted time shared among `n` resources. -/
def Job.costOn (fp : Arith) (j : Job) (n : Nat) : ExtRat := fp.divf (j.getDefaultJobTime fp) (fp.float n)

/-- `defaultCostFunction`: the predicted time shared among the resources. -/
def defaultCostFunction (fp : Arith) (p : JobResPair) : ExtRat := p.1.costOn fp p.2.length

/-- `Job::cost`, the cost function every job is built with. -/
def JobResPair.cost (fp : Arith) (p : JobResPair) : ExtRat := defaultCostFunction fp p

end Hydrogen
