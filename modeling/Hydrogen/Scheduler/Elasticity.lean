import Hydrogen.Scheduler.System

/-!
# The elasticity manager

`getJLOMetric` keeps the misses of the jobs and their slacks apart in two running sums. In exact arithmetic, once every
job has a resource, the first is negative exactly if some job misses its target, so that no slack hides a miss, and
without a miss the second is the slack of all jobs together (`getJLOMetric_missed`, `getJLOMetric_met`). The manager
therefore adds a resource if
a job misses its target, gives one back if none does and the slack is above a second, and else leaves the pool as it is
(`updateResourcePool_follows_objectives`).
-/

namespace Hydrogen

/-! ## Decisions -/

/-- What the manager may do. -/
inductive Elasticity where
  | provision
  | deprovision
  | keep
  deriving DecidableEq

/-- The branch `updateResourcePool` takes. -/
def Allocations.elasticity (fp : Arith) (a : Allocations) : Elasticity :=
  if (a.getJLOMetric fp).lt (.fin 0) then .provision
  else if beta.lt (a.getJLOMetric fp) then .deprovision
  else .keep

/-- The effect of a decision. -/
def Elasticity.apply (cfg : Config) : Elasticity → State → Option State
  | provision, s => some (provisionResource cfg s)
  | deprovision, s => deprovisionResource s
  | keep, s => some s

theorem updateResourcePool_eq (cfg : Config) (a : Allocations) (s : State) :
    updateResourcePool cfg a s = (a.elasticity cfg.fp).apply cfg s := by
  unfold updateResourcePool Allocations.elasticity
  split
  · rfl
  split
  · rfl
  · rfl

/-! ## The two sums -/

/-- The slack of a job on its resources; negative when the job misses its target. -/
def slack (p : JobResPair) : ℚ := p.1.targetExecutionTimeMillis - share p

/-- The job misses its target on the resources it has. -/
def Missed (p : JobResPair) : Prop := p.1.targetExecutionTimeMillis < share p

theorem slack_neg_iff (p : JobResPair) : slack p < 0 ↔ Missed p := sub_neg

theorem getJlo_of_ne_nil {p : JobResPair} (h : p.2 ≠ []) : p.1.getJlo .exact p.2.length = .fin (slack p) := by
  have hlen : (p.2.length : ℚ) ≠ 0 := by
    have := List.length_pos_iff.mpr h
    exact_mod_cast this.ne'
  have hshare : (ExtRat.fin p.1.predictedTimeMillis).div (.fin p.2.length) = .fin (share p) := ExtRat.fin_div_fin hlen
  simp only [Job.getJlo, Arith.subd_exact, Arith.divd_exact, Arith.double_exact]
  rw [hshare, slack, sub_eq_add_neg]
  rfl

/-- The sum of the misses. -/
def misses (ps : List JobResPair) : ℚ := (ps.map fun p => min (slack p) 0).sum

/-- The sum of the slacks of the jobs that meet their target. -/
def slacks (ps : List JobResPair) : ℚ := (ps.map fun p => max (slack p) 0).sum

/-- One round of the loop. -/
theorem jlo_step {p : JobResPair} (h : p.2 ≠ []) (x y : ℚ) :
    (if (p.1.getJlo .exact p.2.length).lt (.fin 0) then
        (Arith.exact.addd (.fin x) (p.1.getJlo .exact p.2.length), ExtRat.fin y)
      else (.fin x, Arith.exact.addd (.fin y) (p.1.getJlo .exact p.2.length))) =
      (.fin (x + min (slack p) 0), .fin (y + max (slack p) 0)) := by
  rw [getJlo_of_ne_nil h]
  by_cases hneg : slack p < 0
  · simp [ExtRat.lt, hneg, min_eq_left hneg.le, max_eq_right hneg.le]
  · simp [ExtRat.lt, hneg, min_eq_right (not_lt.mp hneg), max_eq_left (not_lt.mp hneg)]

/-- The loop, from any two sums. -/
theorem jlo_loop : ∀ (ps : List JobResPair) (x y : ℚ), (∀ p ∈ ps, p.2 ≠ []) →
    ps.foldl (fun (s : ExtRat × ExtRat) p =>
      let jlo := p.1.getJlo .exact p.2.length
      if jlo.lt (.fin 0) then (Arith.exact.addd s.1 jlo, s.2) else (s.1, Arith.exact.addd s.2 jlo)) (.fin x, .fin y) =
      (.fin (x + misses ps), .fin (y + slacks ps))
  | [], x, y, _ => by simp [misses, slacks]
  | p :: ps, x, y, h => by
    rw [List.foldl_cons]
    dsimp only
    rw [jlo_step (h p List.mem_cons_self), jlo_loop ps _ _ fun p' hp' => h p' (List.mem_cons_of_mem _ hp')]
    simp [misses, slacks, add_assoc]

/-- The metric of an allocation in which every job has a resource. -/
theorem getJLOMetric_eq {a : Allocations} (h : ∀ p ∈ a.jobs, p.2 ≠ []) :
    a.getJLOMetric .exact = if misses a.jobs < 0 then .fin (misses a.jobs) else .fin (slacks a.jobs) := by
  have hsums := jlo_loop a.jobs 0 0 h
  rw [zero_add, zero_add] at hsums
  unfold Allocations.getJLOMetric
  rw [hsums]
  simp [ExtRat.lt]

/-! ## Misses -/

theorem misses_cons (p : JobResPair) (ps : List JobResPair) : misses (p :: ps) = min (slack p) 0 + misses ps :=
  List.sum_cons

theorem misses_nonpos (ps : List JobResPair) : misses ps ≤ 0 := by
  induction ps with
  | nil => simp [misses]
  | cons p ps ih =>
    have := min_le_right (slack p) 0
    rw [misses_cons]
    linarith

/-- **No slack hides a miss**: the sum of the misses is negative if and only if there is one. -/
theorem misses_neg_iff (ps : List JobResPair) : misses ps < 0 ↔ ∃ p ∈ ps, Missed p := by
  induction ps with
  | nil => simp [misses]
  | cons p ps ih =>
    have hle := misses_nonpos ps
    have hsplit : (∃ p' ∈ p :: ps, Missed p') ↔ slack p < 0 ∨ misses ps < 0 := by
      rw [ih, slack_neg_iff]
      simp
    rw [hsplit, misses_cons]
    constructor
    · intro hneg
      by_cases hp : slack p < 0
      · exact .inl hp
      · rw [min_eq_right (not_lt.mp hp), zero_add] at hneg
        exact .inr hneg
    · rintro (hp | hps)
      · rw [min_eq_left hp.le]
        linarith
      · have := min_le_right (slack p) 0
        linarith

/-- Without a miss the second sum is the slack of all jobs. -/
theorem slacks_of_met {ps : List JobResPair} (h : ¬∃ p ∈ ps, Missed p) : slacks ps = (ps.map slack).sum := by
  have hmap : (ps.map fun p => max (slack p) 0) = ps.map slack := by
    refine List.map_congr_left fun p hp => max_eq_left (not_lt.mp fun hneg => ?_)
    exact h ⟨p, hp, (slack_neg_iff p).mp hneg⟩
  rw [slacks, hmap]

theorem getJLOMetric_missed {a : Allocations} (h : ∀ p ∈ a.jobs, p.2 ≠ []) (hmiss : ∃ p ∈ a.jobs, Missed p) :
    ∃ x < 0, a.getJLOMetric .exact = .fin x := by
  have hneg := (misses_neg_iff a.jobs).mpr hmiss
  exact ⟨misses a.jobs, hneg, by rw [getJLOMetric_eq h, if_pos hneg]⟩

theorem getJLOMetric_met {a : Allocations} (h : ∀ p ∈ a.jobs, p.2 ≠ []) (hmet : ¬∃ p ∈ a.jobs, Missed p) :
    a.getJLOMetric .exact = .fin (a.jobs.map slack).sum := by
  rw [getJLOMetric_eq h, if_neg (mt (misses_neg_iff a.jobs).mp hmet), slacks_of_met hmet]

/-- The slack of jobs that meet their targets is none or more. -/
theorem slack_sum_nonneg {ps : List JobResPair} (hmet : ¬∃ p ∈ ps, Missed p) : 0 ≤ (ps.map slack).sum := by
  refine List.sum_nonneg fun x hx => ?_
  obtain ⟨p, hp, rfl⟩ := List.mem_map.mp hx
  exact not_lt.mp fun hneg => hmet ⟨p, hp, (slack_neg_iff p).mp hneg⟩

/-! ## The manager -/

theorem elasticity_provision_iff {a : Allocations} (h : ∀ p ∈ a.jobs, p.2 ≠ []) :
    a.elasticity .exact = .provision ↔ ∃ p ∈ a.jobs, Missed p := by
  unfold Allocations.elasticity
  by_cases hmiss : ∃ p ∈ a.jobs, Missed p
  · obtain ⟨x, hneg, hmetric⟩ := getJLOMetric_missed h hmiss
    simp [hmetric, ExtRat.lt, hneg, hmiss]
  · have hnonneg := slack_sum_nonneg hmiss
    rw [getJLOMetric_met h hmiss, if_neg (by simpa [ExtRat.lt] using hnonneg)]
    split <;> simp [hmiss]

theorem elasticity_deprovision_iff {a : Allocations} (h : ∀ p ∈ a.jobs, p.2 ≠ []) :
    a.elasticity .exact = .deprovision ↔ (¬∃ p ∈ a.jobs, Missed p) ∧ 1 < (a.jobs.map slack).sum := by
  by_cases hmiss : ∃ p ∈ a.jobs, Missed p
  · simp [(elasticity_provision_iff h).mpr hmiss, hmiss]
  · have hnonneg := slack_sum_nonneg hmiss
    unfold Allocations.elasticity
    rw [getJLOMetric_met h hmiss, if_neg (by simpa [ExtRat.lt] using hnonneg)]
    by_cases hslack : 1 < (a.jobs.map slack).sum
    · simp [beta, ExtRat.lt, hslack, hmiss]
    · simp [beta, ExtRat.lt, hslack]

/-- **The elasticity manager follows the objectives of the jobs.** In whatever order the pairs are, it provisions a
resource if and only if some job's target is below its share of the predicted time, and deprovisions if and only if none
is and the slacks of all jobs sum to more than one, computed without rounding; what it does to the scheduler is that
decision and nothing else, in any arithmetic. -/
theorem updateResourcePool_follows_objectives (a : Allocations) (h : ∀ p ∈ a.jobs, p.2 ≠ []) (b : Allocations)
    (hperm : b.jobs.Perm a.jobs) :
    (b.elasticity .exact = .provision ↔
      ∃ p ∈ a.jobs, p.1.targetExecutionTimeMillis < p.1.predictedTimeMillis / p.2.length) ∧
    (b.elasticity .exact = .deprovision ↔
      (¬∃ p ∈ a.jobs, p.1.targetExecutionTimeMillis < p.1.predictedTimeMillis / p.2.length) ∧
        1 < (a.jobs.map fun p => p.1.targetExecutionTimeMillis - p.1.predictedTimeMillis / (p.2.length : ℚ)).sum) ∧
    ∀ (cfg : Config) (s : State), updateResourcePool cfg b s = (b.elasticity cfg.fp).apply cfg s := by
  have hb : ∀ p ∈ b.jobs, p.2 ≠ [] := fun p hp => h p (hperm.mem_iff.mp hp)
  have hmiss : (∃ p ∈ b.jobs, Missed p) ↔ ∃ p ∈ a.jobs, Missed p := by simp only [hperm.mem_iff]
  have hsum : (b.jobs.map slack).sum = (a.jobs.map slack).sum := (hperm.map slack).sum_eq
  refine ⟨?_, ?_, fun cfg s => updateResourcePool_eq cfg b s⟩
  · rw [elasticity_provision_iff hb, hmiss]
    rfl
  · rw [elasticity_deprovision_iff hb, hmiss, hsum]
    rfl

/-- A job of five seconds that must be done in one has two resources, and one that has a minute has another. -/
def missAndSlack : Allocations :=
  let late := { Job.ofRequest msgEmpty 1 with predictedTimeMillis := 5, targetExecutionTimeMillis := 1 }
  let early := { Job.ofRequest msgEmpty 2 with predictedTimeMillis := 1, targetExecutionTimeMillis := 60 }
  ⟨[(late, [⟨1, 0, "", "DFE"⟩, ⟨2, 0, "", "DFE"⟩]), (early, [⟨3, 0, "", "DFE"⟩])], 0⟩

theorem missAndSlack_provisions : missAndSlack.elasticity .exact = .provision :=
  (updateResourcePool_follows_objectives missAndSlack (by decide) missAndSlack (List.Perm.refl _)).1.mpr
    ⟨_, List.mem_cons_self, by decide +kernel⟩

/-- In `double` a slack of one second is more than one: 2.2 - 1.2 is 1.0000000000000002. -/
example : let a : Allocations := ⟨[(Job.ofRequest ({ timedRequest 1200 with targetExecutionTimeMillis := 2200 }) 1,
      [firstResource])], 0⟩
    a.elasticity .exact = .keep ∧ a.elasticity .ieee = .deprovision := by decide +kernel

end Hydrogen
