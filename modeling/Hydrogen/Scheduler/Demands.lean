import Hydrogen.Scheduler.Fcfs
import Hydrogen.Scheduler.PickOrder

/-!
# What the algorithms give and when they stop

An FCFS algorithm serves the longest first part of its window whose demands the pool can meet one after the other
(`fcfs_longest_feasible`). `Priority` and `SJTF` walk along the window in an order of their own; they test a job's
demand with `<`, and `SJTF` tests for the least demand and allocates the largest. So `SJTF` gives a job whose demands
lie on both sides of what is left an empty list (`demands_respected_iff`), and both stop at a job that needs exactly
what is left (`workConserving_iff`).
-/

namespace Hydrogen

open StdAlgorithm

/-! ## First come, first served -/

namespace Fcfs

/-- The resources a job gets when so many are left. -/
def receives (v : Fcfs) (j : Job) (left : Nat) : Nat :=
  match v with
  | min => j.min
  | asManyAsPos => Nat.min j.max left
  | max => j.max

/-- Each job finds its demand in what the ones before it leave. -/
def Feasible (v : Fcfs) : List Job → Nat → Prop
  | [], _ => True
  | j :: js, p => v.demand j ≤ p ∧ v.Feasible js (p - v.receives j p)

/-- What the jobs get, one after the other. -/
def received (v : Fcfs) : List Job → Nat → List Nat
  | [], _ => []
  | j :: js, p => v.receives j p :: v.received js (p - v.receives j p)

variable {v : Fcfs} {j : Job}

theorem receives_le {p : Nat} (h : v.demand j ≤ p) : v.receives j p ≤ p := by
  cases v with
  | min => exact h
  | asManyAsPos => exact Nat.min_le_right _ _
  | max => exact h

/-- A job that finds its demand gets between its least and its largest. -/
theorem receives_between {p : Nat} (h : v.demand j ≤ p) : j.min ≤ v.receives j p ∧ v.receives j p ≤ j.max := by
  have hj := j.min_le_max
  cases v with
  | min => exact ⟨Nat.le_refl _, hj⟩
  | asManyAsPos => exact ⟨Nat.le_min.mpr ⟨hj, h⟩, Nat.min_le_left _ _⟩
  | max => exact ⟨hj, Nat.le_refl _⟩

theorem length_taken_most {q : List Resource} (h : v.demand j ≤ q.length) :
    (taken (v.most j) (v.demand j) q).length = v.receives j q.length := by
  rw [length_taken, if_pos h]
  cases v with
  | min => exact Nat.min_eq_left h
  | asManyAsPos => rfl
  | max => exact Nat.min_eq_left h

theorem length_left_most {q : List Resource} (h : v.demand j ≤ q.length) :
    (left (v.most j) (v.demand j) q).length = q.length - v.receives j q.length := by
  rw [length_left, if_pos h]
  cases v with
  | min => rfl
  | asManyAsPos => simp only [most, receives, Nat.min_def]; split <;> omega
  | max => rfl

/-- A job that finds its demand is served. -/
theorem grants_served (js : List Job) {q : List Resource} (h : v.demand j ≤ q.length) :
    fcfsGrants v.most v.demand (j :: js) q =
      ((j, taken (v.most j) (v.demand j) q) :: (fcfsGrants v.most v.demand js (left (v.most j) (v.demand j) q)).1,
        (fcfsGrants v.most v.demand js (left (v.most j) (v.demand j) q)).2) := by
  have hpos : 0 < (taken (v.most j) (v.demand j) q).length := by
    have := j.one_le_min
    have := (receives_between h).1
    rw [length_taken_most h]
    omega
  simp only [fcfsGrants, gt_iff_lt, if_pos hpos]

/-- A job that does not ends the loop. -/
theorem grants_refused (js : List Job) {q : List Resource} (h : ¬v.demand j ≤ q.length) :
    fcfsGrants v.most v.demand (j :: js) q = ([], q) := by
  simp [fcfsGrants, taken, left, if_neg h]

/-- The jobs served are feasible, -/
theorem feasible_grants : ∀ (js : List Job) (q : List Resource),
    v.Feasible ((fcfsGrants v.most v.demand js q).1.map Prod.fst) q.length
  | [], _ => trivial
  | j :: js, q => by
    by_cases h : v.demand j ≤ q.length
    · rw [grants_served js h, List.map_cons]
      refine ⟨h, ?_⟩
      rw [← length_left_most h]
      exact feasible_grants js _
    · rw [grants_refused js h]
      trivial

/-- no more of them are, -/
theorem not_feasible_grants : ∀ (js : List Job) (q : List Resource) (k : Nat),
    (fcfsGrants v.most v.demand js q).1.length < k → k ≤ js.length → ¬v.Feasible (js.take k) q.length
  | [], _, k, hlt, hle => absurd hle (Nat.not_le_of_lt hlt)
  | j :: js, q, k + 1, hlt, hle => by
    rw [List.take_succ_cons]
    rintro ⟨h, hrest⟩
    rw [grants_served js h, List.length_cons] at hlt
    rw [← length_left_most h] at hrest
    exact not_feasible_grants js _ k (Nat.lt_of_succ_lt_succ hlt) (Nat.le_of_succ_le_succ hle) hrest

/-- each has what it receives, -/
theorem lens_grants : ∀ (js : List Job) (q : List Resource),
    lens (fcfsGrants v.most v.demand js q).1 =
      v.received ((fcfsGrants v.most v.demand js q).1.map Prod.fst) q.length
  | [], _ => rfl
  | j :: js, q => by
    by_cases h : v.demand j ≤ q.length
    · rw [grants_served js h, List.map_cons, received, lens, List.map_cons, length_taken_most h, ← length_left_most h]
      exact congrArg _ (lens_grants js _)
    · rw [grants_refused js h]
      rfl

/-- and the pool has the rest. -/
theorem length_pool_grants : ∀ (js : List Job) (q : List Resource),
    (fcfsGrants v.most v.demand js q).2.length + (lens (fcfsGrants v.most v.demand js q).1).sum = q.length
  | [], _ => rfl
  | j :: js, q => by
    by_cases h : v.demand j ≤ q.length
    · have hrest := length_pool_grants js (left (v.most j) (v.demand j) q)
      have hle := receives_le h
      rw [grants_served js h, lens, List.map_cons, List.sum_cons, length_taken_most h]
      rw [length_left_most h, lens] at hrest
      dsimp only
      omega
    · rw [grants_refused js h]
      rfl

end Fcfs

/-- **The longest feasible first part**: an FCFS algorithm returns the first `k` jobs of the window, as many as find
their demands in what the ones before them leave, each with what it is to receive, and leaves the rest of the pool. -/
theorem fcfs_longest_feasible (v : Fcfs) (rq : List Job) (w : Nat) (pool : List Resource) :
    ∃ a pool', (v.alg rq w).run pool = .done a pool' ∧ ∃ k ≤ Nat.min w rq.length, a.jobList = rq.take k ∧
      v.Feasible (rq.take k) pool.length ∧
      (∀ k', k < k' → k' ≤ Nat.min w rq.length → ¬v.Feasible (rq.take k') pool.length) ∧
      a.jobs.map (fun p => p.2.length) = v.received (rq.take k) pool.length ∧
      pool'.length = pool.length - (v.received (rq.take k) pool.length).sum ∧
      (v.received (rq.take k) pool.length).sum ≤ pool.length := by
  have hfirst := fcfsGrants_first v.most v.demand (rq.take w) pool
  have hfeasible := Fcfs.feasible_grants (v := v) (rq.take w) pool
  have hmore := Fcfs.not_feasible_grants (v := v) (rq.take w) pool
  have hlens := Fcfs.lens_grants (v := v) (rq.take w) pool
  have hpool := Fcfs.length_pool_grants (v := v) (rq.take w) pool
  refine ⟨_, _, run_fcfs v rq w pool, (fcfsGrants v.most v.demand (rq.take w) pool).1.length, ?_⟩
  rw [Fcfs.allocation]
  generalize fcfsGrants v.most v.demand (rq.take w) pool = r at hfirst hfeasible hmore hlens hpool ⊢
  have hlen : r.1.length ≤ Nat.min w rq.length := by
    have := hfirst.length_le
    rwa [List.length_map, List.length_take] at this
  have htake : ∀ k ≤ Nat.min w rq.length, (rq.take w).take k = rq.take k := fun k hk => by
    rw [List.take_take, Nat.min_eq_left (hk.trans (Nat.min_le_left _ _))]
  have hjobs : r.1.map Prod.fst = rq.take r.1.length := by
    have := List.prefix_iff_eq_take.mp hfirst
    rwa [List.length_map, htake _ hlen] at this
  rw [hjobs] at hfeasible hlens
  rw [hlens] at hpool
  refine ⟨hlen, hjobs, hfeasible, fun k' hlt hle => ?_, hlens, by omega, by omega⟩
  rw [← htake k' hle]
  exact hmore k' hlt (by rwa [List.length_take])

/-! ## The order of the window -/

section Window

variable (fp : Arith) (sort : StdSort Job) (rq : List Job) (window : Nat)

/-- The window by falling priority; jobs of equal priority as `std::sort` leaves them. -/
def byPriority : List Job :=
  (sort.sort sortByPriority (rq.take window)).mergeSort fun i j => i.priority ≥ j.priority

/-- The window by least demand; jobs of equal demand by time, as `std::sort` leaves them. -/
def byDemand : List Job := (sort.sort (sortByTime fp) (rq.take window)).mergeSort fun i j => i.min ≤ j.min

variable {rq window} (hnd : rq.Nodup)
include hnd

theorem priorityOrder_eq_byPriority : priorityOrder sort rq window = byPriority sort rq window := by
  rw [priorityOrder, pickOrder_eq_mergeSort strictWeak_higherPriority (window_nodup sort hnd _), byPriority]
  congr 1
  funext i j
  rw [higherPriority, sortByPriority, ← decide_not]
  exact decide_eq_decide.mpr not_lt

theorem sjtfOrder_eq_byDemand : sjtfOrder fp sort rq window = byDemand fp sort rq window := by
  rw [sjtfOrder, pickOrder_eq_mergeSort strictWeak_sortByMin (window_nodup sort hnd _), byDemand]
  congr 1
  funext i j
  rw [sortByMin, ← decide_not]
  exact decide_eq_decide.mpr not_lt

end Window

/-- The resources left when each of these jobs has taken its largest demand, or nothing if there are too few. -/
def leftAfter : Nat → List Job → Nat
  | p, [] => p
  | p, j :: js => leftAfter (if j.max ≤ p then p - j.max else p) js

theorem leftAfter_le : ∀ (p : Nat) (js : List Job), leftAfter p js ≤ p
  | _, [] => Nat.le_refl _
  | p, j :: js => by
    refine (leftAfter_le _ js).trans ?_
    split <;> omega

/-- A property of every place in a list, at its first place and at the others. -/
theorem forall_places_cons {P : List Job → Job → Prop} {x : Job} {xs : List Job} :
    (∀ before j after, x :: xs = before ++ j :: after → P before j) ↔
      P [] x ∧ ∀ before j after, xs = before ++ j :: after → P (x :: before) j := by
  constructor
  · intro h
    refine ⟨h [] x xs rfl, fun before j after he => h (x :: before) j after ?_⟩
    rw [he, List.cons_append]
  · rintro ⟨hx, hxs⟩ before j after he
    cases before with
    | nil =>
      obtain ⟨rfl, -⟩ := List.cons.inj he
      exact hx
    | cons y before =>
      obtain ⟨rfl, hrest⟩ := List.cons.inj he
      exact hxs before j after hrest

/-- A list of one element has one place. -/
theorem eq_of_singleton_eq {x j : Job} {before after : List Job} (h : [x] = before ++ j :: after) :
    before = [] ∧ j = x := by
  cases before with
  | nil => exact ⟨rfl, (List.cons.inj h).1.symm⟩
  | cons y before => simp at h

/-! ## The steps of the walk -/

section Walk

variable {demand : Job → Nat} {j : Job} {q : List Resource}

theorem walk_served (js : List Job) (h : demand j < q.length) : walk demand (j :: js) q =
    ((j, taken j.max j.max q) :: (walk demand js (left j.max j.max q)).1, (walk demand js (left j.max j.max q)).2) := by
  rw [walk, if_pos h]

theorem walk_stopped (js : List Job) (h : ¬demand j < q.length) : walk demand (j :: js) q = ([], q) := by
  rw [walk, if_neg h]

theorem length_left_max : (left j.max j.max q).length = if j.max ≤ q.length then q.length - j.max else q.length :=
  length_left _ _ _

end Walk

/-! ## What a job gets -/

/-- The job's resources are between its least and its largest demand. -/
def JobResPair.Respects (p : JobResPair) : Prop := p.1.min ≤ p.2.length ∧ p.2.length ≤ p.1.max

theorem fcfsGrants_respects (v : Fcfs) : ∀ (js : List Job) (q : List Resource),
    ∀ p ∈ (fcfsGrants v.most v.demand js q).1, JobResPair.Respects p
  | [], _, p, hp => by cases hp
  | j :: js, q, p, hp => by
    by_cases h : v.demand j ≤ q.length
    · rw [Fcfs.grants_served js h] at hp
      rcases List.mem_cons.mp hp with rfl | hp
      · unfold JobResPair.Respects
        rw [Fcfs.length_taken_most h]
        exact Fcfs.receives_between h
      · exact fcfsGrants_respects v js _ p hp
    · rw [Fcfs.grants_refused js h] at hp
      cases hp

/-- What `allocate` takes for the largest demand is all of it or nothing. -/
theorem respects_taken_max (j : Job) (q : List Resource) :
    JobResPair.Respects (j, taken j.max j.max q) ↔ j.max ≤ q.length := by
  by_cases h : j.max ≤ q.length
  · have hlen : (taken j.max j.max q).length = j.max := by
      rw [length_taken, if_pos h]
      exact Nat.min_eq_left h
    exact iff_of_true ⟨j.min_le_max.trans_eq hlen.symm, hlen.le⟩ h
  · have hlen : (taken j.max j.max q).length = 0 := by rw [length_taken, if_neg h]
    refine iff_of_false (fun hr => ?_) h
    exact absurd (j.one_le_min.trans (hr.1.trans_eq hlen)) (by decide)

theorem walk_max_respects : ∀ (js : List Job) (q : List Resource),
    ∀ p ∈ (walk Job.max js q).1, JobResPair.Respects p
  | [], _, p, hp => by cases hp
  | j :: js, q, p, hp => by
    by_cases h : j.max < q.length
    · rw [walk_served js h] at hp
      rcases List.mem_cons.mp hp with rfl | hp
      · exact (respects_taken_max j q).mpr h.le
      · exact walk_max_respects js _ p hp
    · rw [walk_stopped js h] at hp
      cases hp

theorem le_of_mem_cons {i j : Job} {js : List Job} (hj : ∀ i ∈ js, j.min ≤ i.min) (hi : i ∈ j :: js) :
    j.min ≤ i.min := by
  rcases List.mem_cons.mp hi with rfl | hi
  · exact Nat.le_refl _
  · exact hj i hi

/-- In an order of rising demand the walk reaches every job whose least demand is below what is left. -/
theorem walk_min_respects : ∀ (js : List Job) (q : List Resource), js.Pairwise (fun i j => i.min ≤ j.min) →
    ((∀ p ∈ (walk Job.min js q).1, JobResPair.Respects p) ↔ ∀ before j after, js = before ++ j :: after →
      ¬(j.min < leftAfter q.length before ∧ leftAfter q.length before < j.max))
  | [], _, _ => by simp [walk]
  | j :: js, q, hle => by
    obtain ⟨hj, hjs⟩ := List.pairwise_cons.mp hle
    by_cases h : j.min < q.length
    · rw [forall_places_cons, walk_served js h, List.forall_mem_cons, respects_taken_max, walk_min_respects js _ hjs,
        length_left_max]
      refine and_congr ?_ Iff.rfl
      simp only [leftAfter, h, true_and, not_lt]
    · rw [walk_stopped js h]
      refine ⟨fun _ before i after he hi => ?_, fun _ p hp => by cases hp⟩
      have hmin : j.min ≤ i.min := le_of_mem_cons hj (he ▸ List.mem_append_right _ List.mem_cons_self)
      have := leftAfter_le q.length before
      omega

/-- A window with jobs in it. -/
theorem of_take_ne_nil {rq : List Job} {window : Nat} (h : rq.take window ≠ []) : rq ≠ [] ∧ 1 ≤ window := by
  simp only [ne_eq, List.take_eq_nil_iff, not_or] at h
  exact ⟨h.2, Nat.one_le_iff_ne_zero.mpr h.1⟩

/-- Without jobs in its window `Priority` returns nothing, -/
theorem not_run_priority (sort : StdSort Job) {rq : List Job} {window : Nat} (h : rq.take window = [])
    {pool pool' : List Resource} {a : Allocations} : (priority sort rq window).run pool ≠ .done a pool' := by
  have hsort : sort.sort sortByPriority [] = [] := (sort.perm _ _).eq_nil
  rw [priority, h, hsort]
  intro hrun
  cases hrun

/-- and `SJTF` nothing or no job. -/
theorem run_sjtf_nil {fp : Arith} (sort : StdSort Job) {rq : List Job} {window : Nat} (h : rq.take window = [])
    {pool pool' : List Resource} {a : Allocations} (hrun : (sjtf fp sort rq window).run pool = .done a pool') :
    a.jobs = [] := by
  have hsort : sort.sort (sortByTime fp) [] = [] := (sort.perm _ _).eq_nil
  rw [sjtf, h, hsort] at hrun
  split at hrun
  · cases hrun
    rfl
  · cases hrun

/-- The algorithm gives every job of its allocation resources between the job's demands. -/
def Alg.Respects (alg : Alg) (rq : List Job) (window : Nat) (pool : List Resource) : Prop :=
  ∀ a pool', (alg rq window).run pool = .done a pool' → ∀ p ∈ a.jobs, JobResPair.Respects p

theorem respects_fcfs (v : Fcfs) (rq : List Job) (window : Nat) (pool : List Resource) :
    Alg.Respects v.alg rq window pool := by
  intro a pool' hrun p hp
  rw [run_fcfs] at hrun
  cases hrun
  exact fcfsGrants_respects v _ pool p hp

section Respects

variable (fp : Arith) (sort : StdSort Job) {rq : List Job} (hnd : rq.Nodup) (window : Nat) (pool : List Resource)
include hnd

theorem respects_priority : Alg.Respects (priority sort) rq window pool := by
  intro a pool' hrun p hp
  by_cases hwin : rq.take window = []
  · exact absurd hrun (not_run_priority sort hwin)
  · obtain ⟨hrq, hw⟩ := of_take_ne_nil hwin
    rw [run_priority sort hnd hrq hw] at hrun
    cases hrun
    exact walk_max_respects _ pool p hp

theorem byDemand_perm : (byDemand fp sort rq window).Perm (rq.take window) := by
  rw [← sjtfOrder_eq_byDemand fp sort hnd]
  exact sjtfOrder_perm fp sort rq window

theorem byDemand_pairwise : (byDemand fp sort rq window).Pairwise fun i j => i.min ≤ j.min := by
  rw [← sjtfOrder_eq_byDemand fp sort hnd]
  refine (sjtfOrder_pairwise fp sort rq window).imp fun {i j} h => ?_
  exact Prod.Lex.monotone_fst _ _ h

theorem respects_sjtf_iff : Alg.Respects (sjtf fp sort) rq window pool ↔
    ∀ before j after, byDemand fp sort rq window = before ++ j :: after →
      ¬(j.min < leftAfter pool.length before ∧ leftAfter pool.length before < j.max) := by
  by_cases hwin : rq.take window = []
  · have hnil : byDemand fp sort rq window = [] := by
      have := byDemand_perm fp sort hnd window
      rw [hwin] at this
      exact this.eq_nil
    refine iff_of_true (fun a pool' hrun p hp => ?_) (fun before j after he => ?_)
    · rw [run_sjtf_nil sort hwin hrun] at hp
      cases hp
    · rw [hnil] at he
      cases before <;> cases he
  · obtain ⟨hrq, hw⟩ := of_take_ne_nil hwin
    rw [← walk_min_respects _ pool (byDemand_pairwise fp sort hnd window),
      ← sjtfOrder_eq_byDemand fp sort hnd]
    unfold Alg.Respects
    rw [run_sjtf sort hnd hrq hw]
    constructor
    · exact fun h p hp => h _ _ rfl p hp
    · intro h a pool' hrun p hp
      cases hrun
      exact h p hp

end Respects

/-- **Demands are respected** by every algorithm, `SJTF` apart; by it if and only if no job of the window finds its
least demand exceeded and its largest not met by what is left for it. -/
theorem demands_respected_iff (fp : Arith) (sort : StdSort Job) (rq : List Job) (hnd : rq.Nodup) (window : Nat)
    (pool : List Resource) :
    (rq ≠ [] → 1 ≤ window → ∀ alg ∈ algVec fp sort, ∃ a pool', (alg rq window).run pool = .done a pool') ∧
    ((∀ alg ∈ algVec fp sort, Alg.Respects alg rq window pool) ↔
      ∀ before j after, byDemand fp sort rq window = before ++ j :: after →
        ¬(j.min < leftAfter pool.length before ∧ leftAfter pool.length before < j.max)) := by
  refine ⟨fun hrq hw alg halg => ?_, ?_⟩
  · obtain ⟨a, pool', hrun, -⟩ := (sat_alg sort hnd hrq hw halg pool).run
    exact ⟨a, pool', hrun⟩
  · rw [← respects_sjtf_iff fp sort hnd window pool]
    constructor
    · exact fun h => h _ (by simp [algVec])
    · intro h alg halg
      simp only [algVec, List.mem_cons, List.not_mem_nil, or_false] at halg
      rcases halg with rfl | rfl | rfl | rfl | rfl
      · exact respects_fcfs .max rq window pool
      · exact respects_fcfs .min rq window pool
      · exact respects_fcfs .asManyAsPos rq window pool
      · exact h
      · exact respects_priority sort hnd window pool

/-- One job, and a pool of five resources. -/
theorem demands_respected_one : ∃ a pool', (sjtf .ieee .insertion [Job.ofRequest msgEmpty 1] 5).run (localDfes 5) =
    .done a pool' ∧ ∀ p ∈ a.jobs, JobResPair.Respects p := by
  obtain ⟨hends, hiff⟩ :=
    demands_respected_iff .ieee .insertion [Job.ofRequest msgEmpty 1] (by decide) 5 (localDfes 5)
  have hmem : sjtf .ieee .insertion ∈ algVec .ieee .insertion := by simp [algVec]
  obtain ⟨a, pool', hrun⟩ := hends (by decide) (by decide) _ hmem
  refine ⟨a, pool', hrun, hiff.mpr (fun before j after he => ?_) _ hmem a pool' hrun⟩
  have hone : byDemand .ieee .insertion [Job.ofRequest msgEmpty 1] 5 = [Job.ofRequest msgEmpty 1] :=
    List.mergeSort_singleton _
  obtain ⟨rfl, rfl⟩ := eq_of_singleton_eq (hone.symm.trans he)
  decide

/-- One job of one to four resources on a pool of two gets none from `SJTF`. -/
theorem demands_not_respected : ¬∀ (sort : StdSort Job) (rq : List Job) (window : Nat) (pool : List Resource),
    rq.Nodup → pool ≠ [] → ∀ alg ∈ algVec .ieee sort, Alg.Respects alg rq window pool := by
  intro h
  have hsjtf := h .insertion [Job.ofRequest msgEmpty 1] 5 (localDfes 2) (by decide) (by decide)
    (sjtf .ieee .insertion) (by simp [algVec])
  have hnone := hsjtf ⟨[(Job.ofRequest msgEmpty 1, [])], 0⟩ (localDfes 2) (by decide +kernel) _
    List.mem_cons_self
  exact absurd hnone.1 (by decide)

/-! ## Where the loops stop -/

/-- The job a loop picks next among the live ones. -/
def nextPick (better : Job → Job → Bool) (live : List Job) : Option Job := live[bestIdx better live]?

/-- What is left after the first `k` picks has pick `k` as its best. -/
theorem nextPick_pickOrder {better : Job → Job → Bool} (hb : StrictWeak better) : ∀ (n : Nat) (live : List Job),
    live.length = n → live.Nodup → ∀ k : Nat,
      nextPick better (live.filter fun j => j ∉ (pickOrder better n live).take k) = (pickOrder better n live)[k]?
  | 0, live, hn, _, k => by
    rw [List.eq_nil_of_length_eq_zero hn]
    rfl
  | n + 1, live, hn, hnd, k => by
    obtain ⟨j, hj, hlt, hpick, hlen⟩ := pickOrder_succ hb hn
    rw [hpick]
    cases k with
    | zero => simp [nextPick, hj]
    | succ k =>
      have hrest : ∀ t : List Job, (live.filter fun i => i ∉ j :: t) =
          (live.eraseIdx (bestIdx better live)).filter fun i => i ∉ t := fun t => by
        have herase : live.eraseIdx (bestIdx better live) = live.filter (· != j) := by
          obtain ⟨_, rfl⟩ := List.getElem?_eq_some_iff.mp hj
          rw [← hnd.erase_eq_filter]
          exact (hnd.erase_get ⟨_, hlt⟩).symm
        rw [herase, List.filter_filter]
        refine List.filter_congr fun i _ => ?_
        rw [Bool.eq_iff_iff]
        simp [not_or, and_comm]
      rw [List.take_succ_cons, List.getElem?_cons_succ, hrest]
      exact nextPick_pickOrder hb n _ hlen (hnd.eraseIdx _) k

/-- The loop returns, and the job it would pick next demands more than the pool has left. -/
def WorkConserving (loop : SchedProg Allocations) (better : Job → Job → Bool) (demand : Job → Nat) (sorted : List Job)
    (pool : List Resource) : Prop :=
  ∃ a pool', loop.run pool = .done a pool' ∧
    ∀ j, nextPick better (sorted.filter fun i => i ∉ a.jobList) = some j → pool'.length < demand j

/-- In terms of the walk. -/
theorem workConserving_iff_walk {loop : SchedProg Allocations} {better : Job → Job → Bool} (hb : StrictWeak better)
    {demand : Job → Nat} {sorted : List Job} (hnd : sorted.Nodup) {pool : List Resource}
    (hrun : loop.run pool = .done ⟨(walk demand (pickOrder better sorted.length sorted) pool).1, 0⟩
      (walk demand (pickOrder better sorted.length sorted) pool).2) :
    WorkConserving loop better demand sorted pool ↔
      ∀ j, (pickOrder better sorted.length sorted)[
        (walk demand (pickOrder better sorted.length sorted) pool).1.length]? = some j →
        (walk demand (pickOrder better sorted.length sorted) pool).2.length < demand j := by
  have hfirst := @walk_first demand (pickOrder better sorted.length sorted) pool
  have htake := List.prefix_iff_eq_take.mp hfirst
  rw [List.length_map] at htake
  have hnext := nextPick_pickOrder hb _ sorted rfl hnd
    (walk demand (pickOrder better sorted.length sorted) pool).1.length
  rw [← htake] at hnext
  unfold WorkConserving
  rw [hrun, ← hnext]
  constructor
  · rintro ⟨a, pool', he, h⟩
    cases he
    exact h
  · exact fun h => ⟨_, _, rfl, h⟩

/-- A walk by largest demands stops at a job that needs more than is left, unless some first jobs use up the pool. -/
theorem walk_max_stops : ∀ (js : List Job) (q : List Resource),
    (∀ j, js[(walk Job.max js q).1.length]? = some j → (walk Job.max js q).2.length < j.max) ↔
      ∀ before j after, js = before ++ j :: after → (before.map Job.max).sum + j.max ≠ q.length
  | [], q => by simp [walk]
  | j :: js, q => by
    by_cases h : j.max < q.length
    · have hleft : (left j.max j.max q).length = q.length - j.max := by rw [length_left_max, if_pos h.le]
      rw [forall_places_cons, walk_served js h, List.length_cons]
      simp only [List.getElem?_cons_succ]
      rw [walk_max_stops js, hleft]
      constructor
      · refine fun hall => ⟨by simpa using h.ne, fun before i after he => ?_⟩
        have := hall before i after he
        rw [List.map_cons, List.sum_cons]
        omega
      · rintro ⟨-, hall⟩ before i after he
        have := hall before i after he
        rw [List.map_cons, List.sum_cons] at this
        omega
    · rw [walk_stopped js h, forall_places_cons]
      simp only [List.length_nil, List.getElem?_cons_zero, Option.some.injEq, forall_eq', List.map_nil, List.sum_nil,
        Nat.zero_add, List.map_cons, List.sum_cons]
      constructor
      · refine fun hlt => ⟨by omega, fun before i after _ => by omega⟩
      · rintro ⟨hne, -⟩
        omega

/-- A walk by least demands stops at a job that needs more than is left, unless it comes to one that needs all of it. -/
theorem walk_min_stops : ∀ (js : List Job) (q : List Resource), js.Pairwise (fun i j => i.min ≤ j.min) →
    ((∀ j, js[(walk Job.min js q).1.length]? = some j → (walk Job.min js q).2.length < j.min) ↔
      ∀ before j after, js = before ++ j :: after → j.min ≠ leftAfter q.length before)
  | [], q, _ => by simp [walk]
  | j :: js, q, hle => by
    obtain ⟨hj, hjs⟩ := List.pairwise_cons.mp hle
    by_cases h : j.min < q.length
    · rw [forall_places_cons, walk_served js h, List.length_cons]
      simp only [List.getElem?_cons_succ]
      rw [walk_min_stops js _ hjs, length_left_max]
      exact (and_iff_right h.ne).symm
    · rw [walk_stopped js h]
      simp only [List.length_nil, List.getElem?_cons_zero, Option.some.injEq, forall_eq']
      constructor
      · intro hlt before i after he
        have hmin : j.min ≤ i.min := le_of_mem_cons hj (he ▸ List.mem_append_right _ List.mem_cons_self)
        have := leftAfter_le q.length before
        omega
      · intro hall
        have hne : j.min ≠ q.length := hall [] j js rfl
        omega

/-- **The loops are work-conserving**, `Priority` if and only if no first jobs of the window demand exactly the pool,
`SJTF` if and only if no job of the window demands at least exactly what is left for it. -/
theorem workConserving_iff (fp : Arith) (sort : StdSort Job) (rq : List Job) (hnd : rq.Nodup) (hrq : rq ≠ [])
    (window : Nat) (hw : 1 ≤ window) (pool : List Resource) :
    (WorkConserving (priority sort rq window) higherPriority Job.max (sort.sort sortByPriority (rq.take window)) pool ↔
      ∀ before j after, byPriority sort rq window = before ++ j :: after →
        (before.map Job.max).sum + j.max ≠ pool.length) ∧
    (WorkConserving (sjtf fp sort rq window) sortByMin Job.min (sort.sort (sortByTime fp) (rq.take window)) pool ↔
      ∀ before j after, byDemand fp sort rq window = before ++ j :: after → j.min ≠ leftAfter pool.length before) := by
  constructor
  · rw [workConserving_iff_walk strictWeak_higherPriority (window_nodup sort hnd _) (run_priority sort hnd hrq hw pool),
      ← priorityOrder_eq_byPriority sort hnd]
    exact walk_max_stops _ pool
  · rw [workConserving_iff_walk strictWeak_sortByMin (window_nodup sort hnd _) (run_sjtf sort hnd hrq hw pool)]
    refine (walk_min_stops _ pool ?_).trans ?_
    · change (sjtfOrder fp sort rq window).Pairwise _
      rw [sjtfOrder_eq_byDemand fp sort hnd]
      exact byDemand_pairwise fp sort hnd window
    · rw [← sjtfOrder_eq_byDemand fp sort hnd]
      exact Iff.rfl

/-- One job of one to four resources on a pool of three, which is too small for `Priority`. -/
theorem workConserving_three :
    WorkConserving (priority .insertion [Job.ofRequest msgEmpty 1] 5) higherPriority Job.max
        (StdSort.insertion.sort sortByPriority [Job.ofRequest msgEmpty 1]) (localDfes 3) ∧
      WorkConserving (sjtf .ieee .insertion [Job.ofRequest msgEmpty 1] 5) sortByMin Job.min
        (StdSort.insertion.sort (sortByTime .ieee) [Job.ofRequest msgEmpty 1]) (localDfes 3) := by
  obtain ⟨hprio, hsjtf⟩ := workConserving_iff .ieee .insertion [Job.ofRequest msgEmpty 1] (by decide) (by decide) 5
    (by decide) (localDfes 3)
  refine ⟨hprio.mpr fun before j after he => ?_, hsjtf.mpr fun before j after he => ?_⟩
  · have hone : byPriority .insertion [Job.ofRequest msgEmpty 1] 5 = [Job.ofRequest msgEmpty 1] :=
      List.mergeSort_singleton _
    obtain ⟨rfl, rfl⟩ := eq_of_singleton_eq (hone.symm.trans he)
    decide
  · have hone : byDemand .ieee .insertion [Job.ofRequest msgEmpty 1] 5 = [Job.ofRequest msgEmpty 1] :=
      List.mergeSort_singleton _
    obtain ⟨rfl, rfl⟩ := eq_of_singleton_eq (hone.symm.trans he)
    decide

/-- The job on a pool of four: `Priority` leaves it, though all four resources are free. -/
theorem not_workConserving_four : ¬∀ (sort : StdSort Job) (rq : List Job) (window : Nat) (pool : List Resource),
    rq.Nodup → rq ≠ [] → 1 ≤ window → pool ≠ [] →
    WorkConserving (priority sort rq window) higherPriority Job.max (sort.sort sortByPriority (rq.take window)) pool ∧
    WorkConserving (sjtf .ieee sort rq window) sortByMin Job.min (sort.sort (sortByTime .ieee) (rq.take window))
      pool := by
  intro h
  obtain ⟨⟨a, pool', hrun, hnext⟩, -⟩ := h .insertion [Job.ofRequest msgEmpty 1] 5 (localDfes 4) (by decide) (by decide)
    (by decide) (by decide)
  have hnone : (priority .insertion [Job.ofRequest msgEmpty 1] 5).run (localDfes 4) = .done ⟨[], 0⟩ (localDfes 4) := by
    decide +kernel
  rw [hnone] at hrun
  cases hrun
  exact absurd (hnext (Job.ofRequest msgEmpty 1) (by decide +kernel)) (by decide)

end Hydrogen
