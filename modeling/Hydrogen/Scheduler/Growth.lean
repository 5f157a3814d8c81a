import Hydrogen.Scheduler.Elasticity
import Hydrogen.Scheduler.Statistics

/-!
# Requests without a target

Only `optionPricingJlo` sets a target time; in the requests of the other calls it is zero, so that a job with a positive
predicted time misses it on any number of resources. The elasticity manager then provisions a resource in every round
and never gives one back: after `n` schedules there are `n + 1` resources, and every one that was ever provisioned is in
the pool or held for a job (`untargeted_growth`). Nothing bounds them, although the devices of the dispatcher are four.
-/

namespace Hydrogen

open StdAlgorithm

/-! ## The metric -/

/-- A job without a target misses it with any number of resources, also with none. -/
theorem getJlo_isNeg {j : Job} (hpos : 0 < j.predictedTimeMillis) (htarget : j.targetExecutionTimeMillis ≤ 0) (n : Nat) :
    (j.getJlo .exact n).IsNeg := by
  simp only [Job.getJlo, Arith.subd_exact, Arith.divd_exact, Arith.double_exact]
  cases n with
  | zero =>
    rw [Nat.cast_zero, ExtRat.fin_div_zero hpos]
    rfl
  | succ n =>
    have hn : ((n + 1 : Nat) : ℚ) ≠ 0 := by positivity
    have hshare : 0 < j.predictedTimeMillis / (n + 1 : Nat) := by positivity
    rw [ExtRat.fin_div_fin hn]
    simp only [ExtRat.sub, ExtRat.neg, ExtRat.fin_add_fin, ExtRat.isNeg_fin]
    linarith

/-- The loop of `getJLOMetric` only adds to the misses. -/
theorem jlo_loop_isNeg : ∀ (ps : List JobResPair) (x y : ExtRat),
    (∀ p ∈ ps, (p.1.getJlo .exact p.2.length).IsNeg) → x.IsNeg ∨ x = .fin 0 ∧ ps ≠ [] →
    ((ps.foldl (fun (s : ExtRat × ExtRat) p =>
      let jlo := p.1.getJlo .exact p.2.length
      if jlo.lt (.fin 0) then (Arith.exact.addd s.1 jlo, s.2) else (s.1, Arith.exact.addd s.2 jlo)) (x, y)).1).IsNeg
  | [], x, y, _, hx => by
    rcases hx with hx | ⟨-, hne⟩
    · exact hx
    · exact absurd rfl hne
  | p :: ps, x, y, h, hx => by
    have hp := h p List.mem_cons_self
    have hlt : (p.1.getJlo .exact p.2.length).lt (.fin 0) = true := hp
    rw [List.foldl_cons]
    dsimp only
    rw [if_pos hlt, Arith.addd_exact]
    refine jlo_loop_isNeg ps _ y (fun p' hp' => h p' (List.mem_cons_of_mem _ hp')) (.inl ?_)
    exact ExtRat.isNeg_add (hx.imp_right And.left) hp

/-- The request has a time and no target. -/
def Job.Untargeted (j : Job) : Prop := 0 < j.predictedTimeMillis ∧ j.targetExecutionTimeMillis ≤ 0

theorem getJLOMetric_isNeg {a : Allocations} (hne : a.jobs ≠ []) (h : ∀ p ∈ a.jobs, p.1.Untargeted) :
    (a.getJLOMetric .exact).lt (.fin 0) = true := by
  have hneg := jlo_loop_isNeg a.jobs (.fin 0) (.fin 0) (fun p hp => getJlo_isNeg (h p hp).1 (h p hp).2 _)
    (.inr ⟨rfl, hne⟩)
  unfold Allocations.getJLOMetric
  dsimp only
  split
  · assumption
  · rename_i hnot
    exact absurd hneg hnot

/-! ## Whole runs -/

/-- Requests come with a time and without a target. -/
def Plain (_ : Clocked) : ClockedAct → Prop
  | .act (.drawId request) _ _ =>
    0 < request.predictedTimeMillis.toInt ∧ request.targetExecutionTimeMillis.toInt ≤ 0
  | _ => True

instance (w : Clocked) (a : ClockedAct) : Decidable (Plain w a) := by
  unfold Plain
  split <;> infer_instance

variable {cfg : Config} {startTime : ℚ} {memory : Nat → Times} {w v : Clocked} {s t : State} {c : List Resource}

theorem step_untargeted {a : Act} (h : ∀ j ∈ s.entering ++ s.issued, j.Untargeted)
    (ha : ∀ request, a = .drawId request →
      0 < request.predictedTimeMillis.toInt ∧ request.targetExecutionTimeMillis.toInt ≤ 0)
    (hs : s.step cfg a = some t) : ∀ j ∈ t.entering ++ t.issued, j.Untargeted := by
  intro j hj
  rcases step_jobs hs j hj with hj | ⟨request, rfl, rfl⟩
  · exact h j hj
  · obtain ⟨hpos, htarget⟩ := ha request rfl
    have hpos' : (0 : ℚ) < request.predictedTimeMillis.toInt := by exact_mod_cast hpos
    have htarget' : (request.targetExecutionTimeMillis.toInt : ℚ) ≤ 0 := by exact_mod_cast htarget
    simp only [Job.Untargeted, Job.ofRequest]
    exact ⟨by positivity, div_nonpos_of_nonpos_of_nonneg htarget' (by norm_num)⟩

/-- An allocation of jobs without targets misses one. -/
theorem Life.metric_isNeg (hfp : cfg.fp = .exact) (hl : Life s) (h : ∀ j ∈ s.entering ++ s.issued, j.Untargeted)
    {a : Allocations} (hpc : s.pc = .chosen a) (hjobs : a.noJobs > 0) :
    (a.getJLOMetric cfg.fp).lt (.fin 0) = true := by
  rw [hfp]
  refine getJLOMetric_isNeg (List.length_pos_iff.mp (a.jobs_length_pos hjobs)) fun p hp => ?_
  have hsel := hl.selects
  rw [hpc] at hsel
  refine h _ (List.mem_append_right _ (hl.placed.subset ?_))
  simp only [State.places, List.append_assoc]
  exact List.mem_append_left _ (hsel.subset (List.mem_map_of_mem hp))

/-- Then the elasticity step gives nothing back. -/
theorem spares_of_untargeted (hfp : cfg.fp = .exact) (hl : Life s) (h : ∀ j ∈ s.entering ++ s.issued, j.Untargeted) :
    Spares cfg.fp s := by
  unfold Spares
  split
  · rename_i a hpc
    intro hjobs hmiss
    rw [hl.metric_isNeg hfp h hpc hjobs] at hmiss
    cases hmiss
  · trivial

/-- One resource for each schedule, the one of the constructor, and in a round that is being serviced its own. -/
structure Grown (w : Clocked) : Prop where
  count : w.sched.provisionedResources = 1 + w.stats.numSchedules + w.sched.pc.inService.toNat
  next : w.sched.resourceId = w.sched.provisionedResources + 1

/-- A step that provisions nothing and ends no round. -/
theorem Grown.same {start now : ℚ} {e : Event} (h : Grown w) (he : e ≠ .serviced)
    (hprov : t.provisionedResources = w.sched.provisionedResources) (hid : t.resourceId = w.sched.resourceId)
    (hpc : t.pc.inService = w.sched.pc.inService) :
    Grown { w.observe start now e with sched := t, clock := now } := by
  refine ⟨?_, ?_⟩
  · dsimp only
    rw [hprov, hpc, w.observe_numSchedules start now he]
    exact h.count
  · dsimp only
    rw [hprov, hid]
    exact h.next

theorem schedLoop_grown (hfp : cfg.fp = .exact) {start now : ℚ} (hl : Life w.sched) (h : Grown w)
    (hjobs : ∀ j ∈ w.sched.entering ++ w.sched.issued, j.Untargeted) (hs : schedLoop cfg w.sched = some t) :
    Grown { w.observe start now (w.sched.event .sched) with sched := t, clock := now } := by
  have hsame : w.sched.pc ≠ .servicing [] → t.provisionedResources = w.sched.provisionedResources →
      t.resourceId = w.sched.resourceId → t.pc.inService = w.sched.pc.inService →
      Grown { w.observe start now (w.sched.event .sched) with sched := t, clock := now } :=
    fun hpc => h.same (event_ne_serviced fun _ => hpc)
  cases schedLoop_cases hs with
  | start hpc _ _ => exact hsame (by simp [hpc]) rfl rfl (by simp [hpc, SchedPc.inService])
  | choose hpc => exact hsame (by simp [hpc]) rfl rfl (by simp [hpc, SchedPc.inService])
  | operate hpc _ => exact hsame (by simp [hpc]) rfl rfl (by simp [hpc, SchedPc.inService])
  | @adjust a u hpc hpos hu =>
    have hev : w.sched.event .sched = .counted a.noJobs := by simp only [State.event, hpc]
    rw [updateResourcePool, if_pos (hl.metric_isNeg hfp hjobs hpc hpos)] at hu
    obtain rfl := Option.some.inj hu
    rw [hev]
    have hcount := h.count
    have hnext := h.next
    rw [hpc] at hcount
    refine ⟨?_, ?_⟩
    · show w.sched.provisionedResources + 1 = 1 + w.stats.numSchedules + 1
      simp only [SchedPc.inService, Bool.toNat_false] at hcount
      omega
    · show w.sched.resourceId + 1 = w.sched.provisionedResources + 1 + 1
      omega
  | giveUp hpc => exact hsame (by simp [hpc]) rfl rfl (by simp [hpc, SchedPc.inService])
  | rest hpc =>
    have hev : w.sched.event .sched = .serviced := by simp only [State.event, hpc]
    have hcount := h.count
    rw [hpc] at hcount
    rw [hev]
    refine ⟨?_, h.next⟩
    show w.sched.provisionedResources = 1 + (w.stats.numSchedules + 1) + 0
    simp only [SchedPc.inService, Bool.toNat_true] at hcount
    omega
  | remove hpc => exact hsame (by simp [hpc]) rfl rfl (by simp [hpc, SchedPc.inService])
  | claim hpc => exact hsame (by simp [hpc]) rfl rfl (by simp [hpc, SchedPc.inService])
  | add hpc => exact hsame (by simp [hpc]) rfl rfl (by simp [hpc, SchedPc.inService])

theorem step_grown (hfp : cfg.fp = .exact) {a : ClockedAct} (hl : Life w.sched) (h : Grown w)
    (hjobs : ∀ j ∈ w.sched.entering ++ w.sched.issued, j.Untargeted) (hs : w.step cfg a = some v) : Grown v := by
  rcases Clocked.step_cases hs with ⟨b, start, now, t, -, ht, rfl⟩ | ⟨j, -, -, -, -, rfl⟩
  · have hne : b ≠ .sched → w.sched.event b ≠ .serviced := fun hb => event_ne_serviced fun he => absurd he hb
    cases b with
    | drawId request =>
      obtain rfl := Option.some.inj ht
      exact h.same (hne (by simp)) rfl rfl rfl
    | enqueue i =>
      obtain ⟨j, -, -, rfl⟩ := enqueue_cases ht
      exact h.same (hne (by simp)) rfl rfl rfl
    | sched => exact schedLoop_grown hfp hl h hjobs ht
    | dispatch =>
      cases dispatcherLoop_cases ht with
      | _ => exact h.same (hne (by simp)) rfl rfl rfl
    | run i rsp =>
      obtain ⟨th, -, hrun⟩ := runJob_cases ht
      cases hrun with
      | _ => exact h.same (hne (by simp)) rfl rfl rfl
    | finish =>
      cases finishedLoop_cases ht with
      | _ => exact h.same (hne (by simp)) rfl rfl rfl
    | copy i =>
      obtain ⟨j, -, -, rfl⟩ := copyResponse_cases ht
      exact h.same (hne (by simp)) rfl rfl rfl
  · exact ⟨h.count, h.next⟩

/-- What holds of plain requests. -/
structure PlainRun (w : Clocked) : Prop where
  life : Life w.sched
  jobs : ∀ j ∈ w.sched.entering ++ w.sched.issued, j.Untargeted
  grown : Grown w
  resources : ∃ c, Distinct w.sched c ∧ Conserved w.sched c

theorem step_plainRun (hfp : cfg.fp = .exact) {a : ClockedAct} (h : PlainRun w) (ha : Plain w a)
    (hs : w.step cfg a = some v) : PlainRun v := by
  refine ⟨step_unclocked_life h.life hs, ?_, step_grown hfp h.life h.grown h.jobs hs, ?_⟩
  · rcases Clocked.step_cases hs with ⟨b, start, now, t, rfl, ht, rfl⟩ | ⟨j, -, -, -, -, rfl⟩
    · refine step_untargeted h.jobs (fun request hb => ?_) ht
      subst hb
      exact ha
    · exact h.jobs
  · obtain ⟨c, hd, hc⟩ := h.resources
    rcases Clocked.step_cases hs with ⟨b, start, now, t, -, ht, rfl⟩ | ⟨j, -, -, -, -, rfl⟩
    · obtain ⟨c', hd', hc'⟩ := step_keeping h.life hd ht
      exact ⟨c', hd', hc' (spares_of_untargeted hfp h.life h.jobs) hc⟩
    · exact ⟨c, hd, hc⟩

theorem plainRun_init (cfg : Config) (startTime : ℚ) (memory : Nat → Times) :
    PlainRun (clocked cfg startTime memory).init :=
  ⟨life_init cfg, fun j hj => (by cases hj), ⟨rfl, rfl⟩, _, distinct_init cfg, conserved_init cfg⟩

/-- As many distinct ids from one on as there can be are all of them. -/
theorem Fresh.perm_range {n : Nat} {rs : List Resource} (h : Fresh (n + 1) rs) (hlen : rs.length = n) :
    (rids rs).Perm (List.range' 1 n) := by
  have hsub : rids rs ⊆ List.range' 1 n := fun i hi => by
    have := h.2 i hi
    rw [List.mem_range'_1]
    omega
  exact (h.1.subperm hsub).perm_of_length_le (by rw [List.length_range', rids, List.length_map, hlen])

/-- **Growth without targets**: in every run whose requests have a time and no target, with slacks that are not rounded,
the resources provisioned are one more than the schedules, not counting a round that is being serviced; and between
rounds the pool and the jobs have them all, each once. -/
theorem untargeted_growth (cfg : Config) (hfp : cfg.fp = .exact) (startTime : ℚ) (memory : Nat → Times) (w : Clocked)
    (h : (clocked cfg startTime memory).ReachableIf Plain w) :
    w.sched.provisionedResources = 1 + w.stats.numSchedules + w.sched.pc.inService.toNat ∧
      w.sched.erasedEnd = false ∧
      (w.sched.pc.locksReadyQ = false →
        (rids (w.sched.resPool ++ w.sched.held)).Perm (List.range' 1 w.sched.provisionedResources)) := by
  have hinv : PlainRun w := h.invariant (I := PlainRun) (plainRun_init cfg startTime memory) fun _ _ _ hi ha hs =>
    step_plainRun hfp hi ha hs
  obtain ⟨c, hd, hc⟩ := hinv.resources
  refine ⟨hinv.grown.count, hc.found, fun hpc => ?_⟩
  have hperm := (hd.pool.perm hpc).append_right w.sched.held
  have hfresh := hd.all.subperm hperm.subperm
  rw [hinv.grown.next] at hfresh
  exact hfresh.perm_range (hperm.length_eq.trans hc.count)

/-- A scheduler on the local machine that does not round, with a clock that starts at zero. -/
def exactClocked : Machine Clocked ClockedAct :=
  clocked { localConfig with fp := .exact } 0 fun _ => ⟨0, 0, 0, 0, 0⟩

/-- Two requests, one after the other: three resources. -/
theorem untargeted_growth_two : ∃ w, exactClocked.ReachableIf Plain w ∧ w.stats.numSchedules = 2 ∧
    w.sched.provisionedResources = 3 := by
  obtain ⟨w, hr, hw⟩ := Machine.exists_reachableIf exactClocked Plain
    (readings ((serve (timedRequest 100) 24 ++ serve (timedRequest 100) 24).map fun a => (a, 0)))
    (fun w => (w.stats.numSchedules, w.sched.pc.inService)) (2, false) (by decide +kernel)
  simp only [Prod.mk.injEq] at hw
  obtain ⟨hn, hpc⟩ := hw
  have hcount := (untargeted_growth _ rfl _ _ w hr).1
  rw [hn, hpc] at hcount
  exact ⟨w, hr, hn, hcount⟩

end Hydrogen
