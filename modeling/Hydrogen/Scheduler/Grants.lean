import Hydrogen.Scheduler.Trial

/-!
# What the algorithms grant when they run alone

On a pool nobody else touches an algorithm is a function: `fcfsGrants` and `greedyGrants` are the pairs the two kinds of
loop return and the pool they leave (`run_fcfsLoop`, `run_greedy`). A call of managed mode is then five such functions,
each on a pool with the resources of the first (`run_managedMode`).
-/

namespace Hydrogen

open StdAlgorithm

/-! ## Taking from the back -/

/-- What `allocate` takes from a pool. -/
def taken (maxRes minRes : Nat) (q : List Resource) : List Resource :=
  if minRes ≤ q.length then q.reverse.take maxRes else []

/-- What it leaves. -/
def left (maxRes minRes : Nat) (q : List Resource) : List Resource :=
  if minRes ≤ q.length then q.take (q.length - maxRes) else q

theorem run_allocateLoop : ∀ (maxRes : Nat) (acc q : List Resource),
    (allocateLoop maxRes acc).run q = .done (acc ++ q.reverse.take maxRes) (q.take (q.length - maxRes))
  | 0, acc, q => by simp [allocateLoop]
  | maxRes + 1, acc, q => by
    rcases List.eq_nil_or_concat q with rfl | ⟨q, r, rfl⟩
    · simp [allocateLoop]
    · rw [List.concat_eq_append]
      have hlen : (q ++ [r]).length > 0 := by simp
      have htake : (q ++ [r]).take ((q ++ [r]).length - (maxRes + 1)) = q.take (q.length - maxRes) := by
        rw [List.length_append, List.length_singleton, Nat.add_sub_add_right]
        exact List.take_append_of_le_length (by omega)
      simp only [allocateLoop, Prog.run_bind, Prog.run_getSize, Outcome.bind_done, if_pos hlen, Prog.run_waitPopBack,
        run_allocateLoop maxRes, htake]
      simp

theorem run_allocate (maxRes minRes : Nat) (q : List Resource) :
    (allocate maxRes minRes).run q = .done (taken maxRes minRes q) (left maxRes minRes q) := by
  simp only [allocate, Prog.run_bind, Prog.run_getSize, Outcome.bind_done, taken, left, ge_iff_le]
  split
  · simp [run_allocateLoop]
  · rfl

theorem length_taken (maxRes minRes : Nat) (q : List Resource) :
    (taken maxRes minRes q).length = if minRes ≤ q.length then Nat.min maxRes q.length else 0 := by
  unfold taken
  split
  · simp [Nat.min_def]
  · rfl

theorem length_left (maxRes minRes : Nat) (q : List Resource) :
    (left maxRes minRes q).length = if minRes ≤ q.length then q.length - maxRes else q.length := by
  unfold left
  split
  · simp
  · rfl

/-! ## First come, first served -/

/-- The pairs of the FCFS loop and the pool it leaves. -/
def fcfsGrants (maxOf minOf : Job → Nat) : List Job → List Resource → List JobResPair × List Resource
  | [], q => ([], q)
  | j :: js, q =>
    if (taken (maxOf j) (minOf j) q).length > 0 then
      let r := fcfsGrants maxOf minOf js (left (maxOf j) (minOf j) q)
      ((j, taken (maxOf j) (minOf j) q) :: r.1, r.2)
    else ([], left (maxOf j) (minOf j) q)

theorem run_fcfsLoop (maxOf minOf : Job → Nat) : ∀ (js : List Job) (a : Allocations) (q : List Resource),
    (fcfsLoop maxOf minOf js a).run q =
      .done ⟨a.jobs ++ (fcfsGrants maxOf minOf js q).1, a.score⟩ (fcfsGrants maxOf minOf js q).2
  | [], a, q => by simp [fcfsLoop, fcfsGrants]
  | j :: js, a, q => by
    simp only [fcfsLoop, fcfsGrants, Prog.run_bind, run_allocate, Outcome.bind_done]
    split
    · simp [run_fcfsLoop maxOf minOf js, Allocations.addJobResourcePair]
    · simp

/-- Every job of an FCFS allocation has a resource. -/
theorem fcfsGrants_ne_nil (maxOf minOf : Job → Nat) : ∀ (js : List Job) (q : List Resource),
    ∀ p ∈ (fcfsGrants maxOf minOf js q).1, p.2 ≠ []
  | [], _, p, hp => by cases hp
  | j :: js, q, p, hp => by
    unfold fcfsGrants at hp
    split at hp
    · rename_i hpos
      rcases List.mem_cons.mp hp with rfl | hp
      · exact List.length_pos_iff.mp hpos
      · exact fcfsGrants_ne_nil maxOf minOf js _ p hp
    · cases hp

/-! ## The window loops -/

/-- The pairs of the greedy loop and the pool it leaves. -/
def greedyGrants (better : Job → Job → Bool) (demand : Job → Nat) :
    Nat → List Job → List Resource → List JobResPair × List Resource
  | 0, _, q => ([], q)
  | n + 1, live, q =>
    match live[bestIdx better live]? with
    | none => ([], q)
    | some j =>
      if demand j < q.length then
        let r := greedyGrants better demand n (live.eraseIdx (bestIdx better live)) (left j.max j.max q)
        ((j, taken j.max j.max q) :: r.1, r.2)
      else ([], q)

theorem run_greedy (better : Job → Job → Bool) (demand : Job → Nat) : ∀ (n : Nat) (live : List Job)
    (a : Allocations) (q : List Resource), (greedy better demand n live a).run q =
      .done ⟨a.jobs ++ (greedyGrants better demand n live q).1, a.score⟩ (greedyGrants better demand n live q).2
  | 0, live, a, q => by simp [greedy, greedyGrants]
  | n + 1, live, a, q => by
    cases hj : live[bestIdx better live]? with
    | none => simp [greedy, greedyGrants, hj]
    | some j =>
      simp only [greedy, greedyGrants, hj, Prog.run_bind, Prog.run_getSize, Outcome.bind_done]
      split
      · simp [run_allocate, run_greedy better demand n, Allocations.addJobResourcePair]
      · simp

/-! ## Managed mode -/

section Managed

variable {fp : Arith} (sort : StdSort Job) {rq : List Job} {window : Nat} (hnd : rq.Nodup) (hrq : rq ≠ [])
  (hw : 1 ≤ window)
include hnd hrq hw

/-- Each trial runs alone on a pool with the same resources. -/
theorem run_trials : ∀ (algs : List Alg), (∀ alg ∈ algs, alg ∈ algVec fp sort) → ∀ q : List Resource, q ≠ [] →
    ∃ as q', (trials rq window algs).run q = .done as q' ∧ q'.Perm q ∧
      List.Forall₂ (fun alg a => ∃ p p', p.Perm q ∧ (alg rq window).run p = .done a p') algs as
  | [], _, q, _ => ⟨[], q, rfl, .refl q, .nil⟩
  | alg :: algs, halg, q, hq => by
    have hpos : 0 < rq.length := List.length_pos_iff.mpr hrq
    have hq0 : q.length > 0 := List.length_pos_iff.mpr hq
    obtain ⟨a, p', hrun, hperm, -⟩ := (sat_alg sort hnd hrq hw (halg alg List.mem_cons_self) q).run
    rw [List.append_nil] at hperm
    have hne : p' ++ a.resources ≠ [] := fun h => by
      rw [h] at hperm
      exact hq hperm.symm.eq_nil
    obtain ⟨as, q', htrials, hq', hall⟩ :=
      run_trials algs (fun b hb => halg b (List.mem_cons_of_mem _ hb)) (p' ++ a.resources) hne
    refine ⟨a :: as, q', ?_, hq'.trans hperm, .cons ⟨q, p', .refl q, hrun⟩ ?_⟩
    · simp [trials, schedule, hq0, hpos, hrun, returnResources, htrials]
    · refine hall.imp fun b c h => ?_
      obtain ⟨p, p'', hp, hr⟩ := h
      exact ⟨p, p'', hp.trans hperm, hr⟩

/-- The five candidates of managed mode, each the result of its algorithm on a pool with the same resources. -/
structure Candidates (fp : Arith) (sort : StdSort Job) (rq : List Job) (window : Nat) (q : List Resource)
    (max min amap sjt prio : Allocations) : Prop where
  max_run : ∃ p p', p.Perm q ∧ (fcfsMax rq window).run p = .done max p'
  min_run : ∃ p p', p.Perm q ∧ (fcfsMin rq window).run p = .done min p'
  amap_run : ∃ p p', p.Perm q ∧ (fcfsAsManyAsPos rq window).run p = .done amap p'
  sjt_run : ∃ p p', p.Perm q ∧ (sjtf fp sort rq window).run p = .done sjt p'
  prio_run : ∃ p p', p.Perm q ∧ (priority sort rq window).run p = .done prio p'

variable (fp) in
/-- **Managed mode alone**: it chooses among its five candidates by score. -/
theorem run_managedMode (strat : Strategy) (q : List Resource) (hq : q ≠ []) :
    ∃ max min amap sjt prio a q', Candidates fp sort rq window q max min amap sjt prio ∧
      selectMaxScore fp ([max, min, amap, sjt, prio].map (score fp strat rq.length)) = some a ∧
      (managedMode fp sort strat rq window).run q = .done a q' := by
  obtain ⟨as, q', htrials, -, hall⟩ := run_trials sort hnd hrq hw (algVec fp sort) (fun _ h => h) q hq
  obtain ⟨max, _, hmax, h₁, rfl⟩ := List.forall₂_cons_left_iff.mp hall
  obtain ⟨min, _, hmin, h₂, rfl⟩ := List.forall₂_cons_left_iff.mp h₁
  obtain ⟨amap, _, hamap, h₃, rfl⟩ := List.forall₂_cons_left_iff.mp h₂
  obtain ⟨sjt, _, hsjt, h₄, rfl⟩ := List.forall₂_cons_left_iff.mp h₃
  obtain ⟨prio, _, hprio, h₅, rfl⟩ := List.forall₂_cons_left_iff.mp h₄
  cases h₅
  have hne : [max, min, amap, sjt, prio].map (score fp strat rq.length) ≠ [] := by simp
  obtain ⟨a, -, hsel⟩ := selectMaxScore_mem hne
  refine ⟨max, min, amap, sjt, prio, a, q', ⟨hmax, hmin, hamap, hsjt, hprio⟩, hsel, ?_⟩
  simp only [managedMode, Prog.run_bind, htrials, Outcome.bind_done, hsel, Prog.run_pure]

end Managed

end Hydrogen
