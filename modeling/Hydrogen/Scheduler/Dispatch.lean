import Hydrogen.Scheduler.ExactScore

/-!
# What managed mode dispatches

Two consequences of the scores, for jobs built by the constructor:

* with positive times and no rounding no job is chosen without a resource (`managedMode_all_granted`): only `SJTF` makes
  such pairs, and whenever it does `Priority` serves as many jobs and comes later;
* managed mode dispatches a job exactly when the pool has five resources, or one of two allocations has a positive
  score: the front job on the whole pool, or the jobs `FCFSMin` takes on one resource each
  (`managedMode_dispatches_iff`). Otherwise no candidate scores more than the last, `Priority`, which has no job.
-/

namespace Hydrogen

open StdAlgorithm

/-! ## No job without a resource -/

/-- The FCFS loop stops before it adds a job without resources. -/
theorem ne_nil_of_fcfsLoop {maxOf minOf : Job → Nat} {js : List Job} {p p' : List Resource} {a : Allocations}
    (h : (fcfsLoop maxOf minOf js .empty).run p = .done a p') : ∀ pr ∈ a.jobs, pr.2 ≠ [] := by
  rw [run_fcfsLoop] at h
  cases h
  exact fcfsGrants_ne_nil _ _ _ _

section AllGranted

variable (sort : StdSort Job) {rq : List Job} {window : Nat} (hnd : rq.Nodup) (hbuilt : ∀ j ∈ rq, j.Built)
  (hpos : ∀ j ∈ rq, 0 < j.predictedTimeMillis) (hw : 1 ≤ window)
include hnd hbuilt hpos hw

/-- An `SJTF` candidate with a pair without resources does not score more than `Priority`. -/
theorem score_sjtf_le (hrq : rq ≠ []) (strat : Strategy) {p p₁ q q₁ : List Resource} {sjt prio : Allocations}
    (hlen : p.length = q.length) (hs : (sjtf .exact sort rq window).run p = .done sjt p₁)
    (hp : (priority sort rq window).run q = .done prio q₁) (hnil : ∃ pr ∈ sjt.jobs, pr.2 = []) :
    (score .exact strat rq.length sjt).score ≤ (score .exact strat rq.length prio).score := by
  have hq0 : 0 < rq.length := List.length_pos_iff.mpr hrq
  have hls := lens_sjtf sort hnd hbuilt hrq hw hs
  have hlp := lens_priority sort hnd hbuilt hrq hw hp
  have hzero : 0 ∈ builtLens 1 (rq.take window).length p.length := by
    obtain ⟨pr, hpr, hpn⟩ := hnil
    rw [← hls]
    exact List.mem_map.mpr ⟨pr, hpr, by simp [hpn]⟩
  have hprio : ∀ pr ∈ prio.jobs, pr.2 ≠ [] := ne_nil_of_lens (by rw [hlp]; exact builtLens_four _ _)
  -- both serve the same number of jobs
  have hcount : sjt.noJobs = prio.noJobs := by
    rw [noJobs_eq_lens, hls, (builtLens_zero _ _ hzero).2, noJobs_of_ne_nil hprio, hlen, ← hlp]
    simp [lens]
  cases strat with
  | fairness => exact le_rfl
  | completionTime =>
    have hmems : sjtf .exact sort ∈ algVec .exact sort := by simp [algVec]
    have hmemp : priority sort ∈ algVec .exact sort := by simp [algVec]
    have hts : ∀ pr ∈ sjt.jobs, 0 < pr.1.predictedTimeMillis := fun pr hpr =>
      hpos _ (mem_of_run sort hnd hrq hw hmems hs pr hpr)
    have htp : ∀ pr ∈ prio.jobs, 0 < pr.1.predictedTimeMillis := fun pr hpr =>
      hpos _ (mem_of_run sort hnd hrq hw hmemp hp pr hpr)
    rw [score_posInf hq0 (makespan_posInf hts hnil), hcount]
    by_cases h0 : prio.noJobs = 0
    · rw [score_zero (.inl h0), h0]
      simp
    · exact score_fin hq0 (makespan_fin hprio) (sum_share_pos hprio htp h0) (by omega)

/-- **No job is dispatched without resources**: managed mode returns when a job is waiting, and every pair it returns
has a resource. -/
theorem managedMode_all_granted (strat : Strategy) {pool : List Resource} (hpool : pool ≠ []) :
    (rq ≠ [] → ∃ a pool', (managedMode .exact sort strat rq window).run pool = .done a pool') ∧
      ∀ a pool', (managedMode .exact sort strat rq window).run pool = .done a pool' → ∀ p ∈ a.jobs, p.2 ≠ [] := by
  by_cases hrq : rq = []
  · subst hrq
    refine ⟨fun h => absurd rfl h, fun a pool' hrun => ?_⟩
    simp [managedMode, trials, algVec, schedule, Outcome.bind] at hrun
  obtain ⟨max, min, amap, sjt, prio, b, q, hc, hsel, hrun⟩ := run_managedMode .exact sort hnd hrq hw strat pool hpool
  refine ⟨fun _ => ⟨b, q, hrun⟩, fun a pool' hrun' => ?_⟩
  rw [hrun] at hrun'
  cases hrun'
  obtain ⟨p, p', -, hmax⟩ := hc.max_run
  obtain ⟨p₂, p₂', -, hmin⟩ := hc.min_run
  obtain ⟨p₃, p₃', -, hamap⟩ := hc.amap_run
  obtain ⟨p₄, p₄', h4, hsjt⟩ := hc.sjt_run
  obtain ⟨p₅, p₅', h5, hprio⟩ := hc.prio_run
  have hlast : selectMaxScore .exact
      ([max, min, amap, sjt].map (score .exact strat rq.length) ++ [score .exact strat rq.length prio]) =
      some b := hsel
  rcases selected_last (by simp) hlast with rfl | ⟨hmem, hlt⟩
  · rw [jobs_score]
    exact ne_nil_of_lens (by
      rw [lens_priority sort hnd hbuilt hrq hw hprio]
      exact builtLens_four _ _)
  · simp only [List.map_cons, List.map_nil, List.mem_cons, List.not_mem_nil, or_false] at hmem
    rcases hmem with rfl | rfl | rfl | rfl
    · rw [jobs_score]; exact ne_nil_of_fcfsLoop hmax
    · rw [jobs_score]; exact ne_nil_of_fcfsLoop hmin
    · rw [jobs_score]; exact ne_nil_of_fcfsLoop hamap
    · rw [jobs_score]
      intro pr hpr hnil
      have := score_sjtf_le sort hnd hbuilt hpos hw hrq strat (h4.length_eq.trans h5.length_eq.symm) hsjt hprio
        ⟨pr, hpr, hnil⟩
      exact (ExtRat.lt_iff_not_le (by simp) (by simp)).mp hlt (float_le_exact.mpr this)

end AllGranted

/-- A request with a predicted time, in milliseconds. -/
def timedRequest (millis : BitVec 32) : Msg := { msgEmpty with predictedTimeMillis := millis }

/-- The resource the constructor provisions. -/
def firstResource : Resource := ⟨1, 8111, "localhost", "DFE"⟩

/-- Two jobs and six resources. -/
theorem managedMode_all_granted_six : ∃ a pool', (managedMode .exact .insertion .completionTime
    [Job.ofRequest (timedRequest 40) 2, Job.ofRequest (timedRequest 50) 1] 5).run
      ((List.range 6).map fun i => ⟨i + 1, 8111, "localhost", "DFE"⟩) = .done a pool' ∧ ∀ p ∈ a.jobs, p.2 ≠ [] := by
  have hbuilt : ∀ j ∈ [Job.ofRequest (timedRequest 40) 2, Job.ofRequest (timedRequest 50) 1], j.Built := by
    intro j hj
    simp only [List.mem_cons, List.not_mem_nil, or_false] at hj
    rcases hj with rfl | rfl
    · exact ⟨_, _, rfl⟩
    · exact ⟨_, _, rfl⟩
  have hpool : ((List.range 6).map fun i => (⟨i + 1, 8111, "localhost", "DFE"⟩ : Resource)) ≠ [] := by decide
  obtain ⟨hends, hall⟩ := managedMode_all_granted .insertion (by decide) hbuilt (by decide +kernel)
    (by decide : 1 ≤ 5) .completionTime hpool
  obtain ⟨a, pool', hrun⟩ := hends (by decide)
  exact ⟨a, pool', hrun, hall a pool' hrun⟩

/-! ## When a job is dispatched -/

/-- With at most four resources in the pool, a loop that takes up to four serves at most the first job. -/
theorem fcfsGrants_small {maxOf : Job → Nat} (minOf : Job → Nat) {j : Job} (js : List Job) (hmax : maxOf j = 4)
    {q : List Resource} (hq : q.length ≤ 4) :
    (fcfsGrants maxOf minOf (j :: js) q).1 = [] ∨
      ∃ l, l ≠ [] ∧ l.length = q.length ∧ (fcfsGrants maxOf minOf (j :: js) q).1 = [(j, l)] := by
  unfold fcfsGrants
  split
  · rename_i hpos
    have hmin : minOf j ≤ q.length := by
      by_contra h
      simp [taken, h] at hpos
    have hall : (taken (maxOf j) (minOf j) q).length = q.length := by
      rw [length_taken, if_pos hmin, hmax]
      exact Nat.min_eq_right hq
    refine .inr ⟨_, List.length_pos_iff.mp hpos, hall, ?_⟩
    have hleft : left (maxOf j) (minOf j) q = [] := by
      rw [left, if_pos hmin, hmax, Nat.sub_eq_zero_of_le hq, List.take_zero]
    have hrest : (fcfsGrants maxOf minOf js []).1 = [] := by
      cases js with
      | nil => rfl
      | cons i js => simp [fcfsGrants, taken]
    simp only [hleft, hrest]
  · exact .inl rfl

/-- `FCFSMin` gives one resource each to as many jobs as there are resources. -/
theorem fcfsGrants_min : ∀ (js : List Job) (q : List Resource), (∀ j ∈ js, j.min = 1) →
    (fcfsGrants Job.min Job.min js q).1.map Prod.fst = js.take q.length ∧
      ∀ p ∈ (fcfsGrants Job.min Job.min js q).1, p.2.length = 1
  | [], q, _ => ⟨by simp [fcfsGrants], fun p hp => by cases hp⟩
  | j :: js, q, h => by
    have hj := h j List.mem_cons_self
    cases q with
    | nil => exact ⟨by simp [fcfsGrants, taken], by simp [fcfsGrants, taken]⟩
    | cons r q =>
      have hlen : (taken 1 1 (r :: q)).length = 1 := by rw [length_taken]; simp
      have hleft : (left 1 1 (r :: q)).length = q.length := by rw [length_left]; simp
      obtain ⟨h1, h2⟩ := fcfsGrants_min js (left 1 1 (r :: q)) fun i hi => h i (List.mem_cons_of_mem _ hi)
      rw [hleft] at h1
      unfold fcfsGrants
      rw [hj, if_pos (by omega)]
      refine ⟨by simp [h1], fun p hp => ?_⟩
      rcases List.mem_cons.mp hp with rfl | hp
      · exact hlen
      · exact h2 p hp

variable {fp : Arith}

/-- A candidate with one job. -/
theorem score_single {n : Nat} (hn : 0 < n) {a : Allocations} {j : Job} {l : List Resource} (hl : l ≠ [])
    (ha : a.jobs = [(j, l)]) : 0 < (score fp .completionTime n a).score ↔ Pays fp n [(j, l.length)] := by
  rw [score_pos_iff hn (by simpa [ha] using hl) (by rw [ha]; exact List.cons_ne_nil _ _), ha]
  rfl

/-- The longer of two jobs costs at least as much on the same resources. -/
theorem costOn_mono {i j : Job} (hle : (j.getDefaultJobTime fp).le (i.getDefaultJobTime fp) = true) {n : Nat}
    (hn : 1 ≤ n) (hn4 : n ≤ 4) : (j.costOn fp n).le (i.costOn fp n) = true := by
  unfold Job.costOn Arith.divf
  rw [fp.float_natCast (hn4.trans (by decide))]
  exact Arith.toFloat_mono (ExtRat.div_le_div_right (by exact_mod_cast hn) hle)

/-- The longer the makespan of one job, the smaller a positive score. -/
theorem scoreOf_pos_anti {q : Nat} (hq : 1 ≤ q) {m m' : ExtRat} (hm : (ExtRat.fin 0).lt m = true)
    (hle : m.le m' = true) (hpos : 0 < scoreOf fp q 1 m) : 0 < scoreOf fp q 1 m' := by
  have hone : fp.float 1 = .fin 1 := by simpa using fp.float_natCast (n := 1) (by decide)
  have hcount : (ExtRat.fin 1).le (fp.float (q * 1 : Nat)) = true := by
    have h := fp.float_mono (show (1 : ℚ) ≤ (q * 1 : Nat) by rw [Nat.mul_one]; exact_mod_cast hq)
    rwa [hone] at h
  have hzero : (ExtRat.fin 0).le (fp.float (q * 1 : Nat)) = true := ExtRat.le_trans (by decide) hcount
  obtain ⟨hanti, hnonneg⟩ := ExtRat.div_le_div_left (c := 1) zero_le_one hm hle
  have hquot : (ExtRat.fin 0).le (fp.toFloat ((ExtRat.fin 1).div m')) = true := Arith.toFloat_nonneg hnonneg
  simp only [scoreOf, Arith.addf, Arith.divf, Nat.cast_one, hone] at hpos ⊢
  refine fp.toInt_pos ?_ (Arith.toFloat_mono ?_) hpos
  · -- the quotient does not make the number of jobs smaller
    have hsum := ExtRat.add_le_add (x := .fin 1) (y := .fin 0) (by decide) (by decide) hcount hquot
    rw [ExtRat.fin_add_fin, add_zero] at hsum
    exact Arith.le_toFloat hone hsum
  · exact ExtRat.add_le_add hzero hquot (ExtRat.le_refl (fp.float_ne_nan _)) (Arith.toFloat_mono hanti)

theorem spanOf_single (fp : Arith) (j : Job) (n : Nat) : spanOf fp [(j, n)] = fp.toFloat (j.costOn fp n) := by
  rw [spanOf, List.foldl_cons, List.foldl_nil, Arith.addf, ExtRat.fin_zero_add]

/-- If a job alone has a positive score, so has a longer one. -/
theorem pays_mono {q n : Nat} (hq : 1 ≤ q) (hn : 1 ≤ n) (hn4 : n ≤ 4) {i j : Job}
    (hle : (j.getDefaultJobTime fp).le (i.getDefaultJobTime fp) = true) (h : Pays fp q [(j, n)]) :
    Pays fp q [(i, n)] := by
  obtain ⟨hspan, hscore⟩ := h
  have hspans : (spanOf fp [(j, n)]).le (spanOf fp [(i, n)]) = true := by
    rw [spanOf_single, spanOf_single]
    exact Arith.toFloat_mono (costOn_mono hle hn hn4)
  obtain ⟨hj, hi⟩ := ExtRat.ne_nan_of_le hspans
  have hpos : (ExtRat.fin 0).lt (spanOf fp [(j, n)]) = true :=
    (ExtRat.lt_iff_not_le (by decide) hj).mpr (by simp [hspan])
  refine ⟨eq_false_of_ne_true ?_, scoreOf_pos_anti hq hpos hspans hscore⟩
  exact (ExtRat.lt_iff_not_le (by decide) hi).mp (ExtRat.lt_of_lt_of_le hpos hspans)

section Dispatch

variable (sort : StdSort Job) {rq : List Job} {window : Nat} (hnd : rq.Nodup) (hbuilt : ∀ j ∈ rq, j.Built)
  (hrq : rq ≠ []) (hw : 1 ≤ window)
include hnd hbuilt hrq hw

omit hnd hrq hw in
/-- The first job `SJTF` picks has the least predicted time. -/
theorem sjtf_first_le {j : Job} (hj : (sort.sort (sortByTime fp) (rq.take window))[bestIdx sortByMin
    (sort.sort (sortByTime fp) (rq.take window))]? = some j) :
    ∀ i ∈ rq.take window, (j.getDefaultJobTime fp).le (i.getDefaultJobTime fp) = true := by
  intro i hi
  have hperm := sort.perm (sortByTime fp) (rq.take window)
  have hsorted := sort.sorted (sortByTime fp) (rq.take window) strictWeak_sortByTime
  have hmem := hperm.mem_iff.mpr hi
  have hmin : ∀ k ∈ sort.sort (sortByTime fp) (rq.take window), k.min = 1 := fun k hk =>
    (hbuilt k (List.mem_of_mem_take (hperm.mem_iff.mp hk))).min_eq
  have hi1 := hmin i hmem
  have hj1 := hmin j (List.mem_of_getElem? hj)
  generalize sort.sort (sortByTime fp) (rq.take window) = live at hj hsorted hmem hmin
  cases live with
  | nil => cases hmem
  | cons k live =>
    -- all jobs ask for one resource, so the first is as good as any
    obtain ⟨y, hy, -, -, hfirst⟩ := bestIdx_spec strictWeak_sortByMin (List.cons_ne_nil k live)
    have hzero : bestIdx sortByMin (k :: live) = 0 := by
      by_contra h
      have := hfirst 0 (by omega) k rfl
      simp [sortByMin, hmin y (List.mem_of_getElem? hy), hmin k List.mem_cons_self] at this
    rw [hzero] at hj
    cases hj
    rcases List.mem_cons.mp hmem with rfl | hmem
    · exact ExtRat.le_refl (Job.getDefaultJobTime_ne_nan fp _)
    · have hnot := (List.pairwise_cons.mp hsorted).1 i hmem
      rw [sortByTime, Job.minCost_of_min_one fp hi1, Job.minCost_of_min_one fp hj1] at hnot
      by_contra hle
      rw [(ExtRat.lt_iff_not_le (i.getDefaultJobTime_ne_nan fp) (j.getDefaultJobTime_ne_nan fp)).mpr hle] at hnot
      cases hnot

/-- With at most four resources `SJTF` scores more than zero only if the first job would on the whole pool. -/
theorem score_sjtf_pos {p p' : List Resource} {a : Allocations} (hp : p.length ≤ 4)
    (h : (sjtf fp sort rq window).run p = .done a p') (hpos : 0 < (score fp .completionTime rq.length a).score) :
    Pays fp rq.length [(rq.head hrq, p.length)] := by
  have hq0 : 0 < rq.length := List.length_pos_iff.mpr hrq
  have hl := lens_sjtf sort hnd hbuilt hrq hw h
  rcases Nat.lt_or_eq_of_le hp with hlt | h4
  · have h0 : a.noJobs = 0 := by rw [noJobs_eq_lens, hl, builtLens_small 1 hlt]; rfl
    rw [score_zero (.inl h0)] at hpos
    omega
  · rw [sjtf_eq_greedy sort hnd hrq hw, run_greedy] at h
    have hne := window_ne_nil sort hrq hw (sortByTime fp)
    obtain ⟨j, hj, hlt, -, -⟩ := bestIdx_spec strictWeak_sortByMin hne
    have hmem := (sort.perm (sortByTime fp) (rq.take window)).mem_iff.mp (List.mem_of_getElem? hj)
    have hb := hbuilt j (List.mem_of_mem_take hmem)
    obtain ⟨n, hn⟩ := Nat.exists_eq_succ_of_ne_zero (Nat.ne_of_gt (Nat.lt_of_le_of_lt (Nat.zero_le _) hlt))
    have hempty : ∀ m live, (greedyGrants sortByMin Job.min m live []).1 = [] := by
      intro m live
      cases m with
      | zero => rfl
      | succ m => unfold greedyGrants; split <;> rfl
    have hfour : (taken 4 4 p).length = 4 := by
      rw [length_taken]
      simp [h4]
    have htaken : taken 4 4 p ≠ [] := List.length_pos_iff.mp (by rw [hfour]; decide)
    have hleft : left 4 4 p = [] := by simp [left, h4]
    have hjobs : a.jobs = [(j, taken 4 4 p)] := by
      rw [hn] at h
      simp only [greedyGrants, hj, hb.min_eq, hb.max_eq, h4, Nat.reduceLT, if_true, hleft, hempty] at h
      cases h
      rfl
    have hpays := (score_single hq0 htaken hjobs).mp hpos
    have hfront : rq.head hrq ∈ rq.take window := by
      cases rq with
      | nil => exact absurd rfl hrq
      | cons i is => rw [List.take_cons (by omega)]; exact List.mem_cons_self
    rw [hfour] at hpays
    rw [h4]
    exact pays_mono hq0 (by decide) le_rfl (sjtf_first_le sort hbuilt hj _ hfront) hpays

/-- With five resources every candidate serves a job. -/
theorem noJobs_candidate {alg : Alg} (halg : alg ∈ algVec fp sort) {p p' : List Resource} {a : Allocations}
    (hp : 5 ≤ p.length) (h : (alg rq window).run p = .done a p') : 1 ≤ a.noJobs := by
  obtain ⟨j, js, hjs⟩ : ∃ j js, rq.take window = j :: js := by
    cases rq with
    | nil => exact absurd rfl hrq
    | cons j js => exact ⟨j, js.take (window - 1), by rw [List.take_cons (by omega)]⟩
  have hj : j ∈ rq := List.mem_of_mem_take (hjs ▸ List.mem_cons_self)
  have hfcfs : ∀ {maxOf minOf : Job → Nat}, 1 ≤ maxOf j → minOf j ≤ 4 →
      (fcfsLoop maxOf minOf (rq.take window) .empty).run p = .done a p' → 1 ≤ a.noJobs := by
    intro maxOf minOf hmax hmin h
    rw [run_fcfsLoop, hjs] at h
    have hpos : (taken (maxOf j) (minOf j) p).length > 0 := by
      rw [length_taken, if_pos (by omega)]
      exact Nat.lt_min.mpr ⟨hmax, by omega⟩
    simp only [fcfsGrants, if_pos hpos] at h
    cases h
    exact noJobs_pos List.mem_cons_self (List.length_pos_iff.mp hpos)
  have hlens : ∀ d, d < 5 → lens a.jobs = builtLens d (rq.take window).length p.length → 1 ≤ a.noJobs := by
    intro d hd h
    rw [noJobs_eq_lens, h, hjs, List.length_cons, builtLens, if_pos (by omega), if_pos (by omega)]
    simp
  have hb := hbuilt j hj
  simp only [algVec, List.mem_cons, List.not_mem_nil, or_false] at halg
  rcases halg with rfl | rfl | rfl | rfl | rfl
  · exact hfcfs (by rw [hb.max_eq]; decide) (by rw [hb.max_eq]) h
  · exact hfcfs (by rw [hb.min_eq]) (by rw [hb.min_eq]; decide) h
  · exact hfcfs (by rw [hb.max_eq]; decide) (by rw [hb.min_eq]; decide) h
  · exact hlens 1 (by decide) (lens_sjtf sort hnd hbuilt hrq hw h)
  · exact hlens 4 (by decide) (lens_priority sort hnd hbuilt hrq hw h)

omit hnd hbuilt in
/-- With at most four resources a loop that takes up to four scores more than zero only if the first job does on the
whole pool. -/
theorem score_fcfs_pos {maxOf minOf : Job → Nat} (hmax : ∀ j ∈ rq, maxOf j = 4) {p p' : List Resource}
    {a : Allocations} (hp : p.length ≤ 4)
    (h : (fcfsLoop maxOf minOf (rq.take window) .empty).run p = .done a p')
    (hpos : 0 < (score fp .completionTime rq.length a).score) : Pays fp rq.length [(rq.head hrq, p.length)] := by
  cases rq with
  | nil => exact absurd rfl hrq
  | cons j js =>
    rw [run_fcfsLoop, List.take_cons (by omega)] at h
    cases h
    rcases fcfsGrants_small minOf (js.take (window - 1)) (hmax j List.mem_cons_self) hp with
      hnil | ⟨l, hl, hlen, hjobs⟩
    · rw [score_zero (.inl (by simp [Allocations.noJobs, Allocations.empty, hnil]))] at hpos
      omega
    · rw [← hlen]
      exact (score_single (List.length_pos_iff.mpr hrq) hl (by simpa [Allocations.empty] using hjobs)).mp hpos

omit hnd in
/-- `FCFSAsManyAsPos` does so exactly then. -/
theorem score_amap_pos {p p' : List Resource} {a : Allocations} (hp : p ≠ [])
    (h : (fcfsAsManyAsPos rq window).run p = .done a p') (hp4 : p.length ≤ 4)
    (ht : Pays fp rq.length [(rq.head hrq, p.length)]) : 0 < (score fp .completionTime rq.length a).score := by
  cases rq with
  | nil => exact absurd rfl hrq
  | cons j js =>
    have hb := hbuilt j List.mem_cons_self
    have hp0 := List.length_pos_iff.mpr hp
    rw [fcfsAsManyAsPos, run_fcfsLoop, List.take_cons (by omega)] at h
    cases h
    have hsome : (taken j.max j.min p).length > 0 := by
      rw [length_taken, hb.max_eq, hb.min_eq, if_pos (by omega)]
      exact Nat.lt_min.mpr ⟨by decide, hp0⟩
    rcases fcfsGrants_small Job.min (js.take (window - 1)) hb.max_eq hp4 with hnil | ⟨l, hl, hlen, hjobs⟩
    · simp [fcfsGrants, hsome] at hnil
    · rw [← hlen] at ht
      exact (score_single (List.length_pos_iff.mpr hrq) hl (by simpa [Allocations.empty] using hjobs)).mpr ht

/-- The jobs `FCFSMin` takes from a pool of `n`, on one resource each. -/
def oneEach (rq : List Job) (window n : Nat) : List (Job × Nat) := (rq.take (Nat.min window n)).map fun j => (j, 1)

omit hnd in
/-- `FCFSMin` scores more than zero exactly when the jobs it takes do on one resource each. -/
theorem score_min_pos {p p' : List Resource} {a : Allocations} (hp : p ≠ [])
    (h : (fcfsMin rq window).run p = .done a p') : 0 < (score fp .completionTime rq.length a).score ↔
      Pays fp rq.length (oneEach rq window p.length) := by
  have hmin : ∀ j ∈ rq.take window, j.min = 1 := fun j hj => (hbuilt j (List.mem_of_mem_take hj)).min_eq
  rw [fcfsMin, run_fcfsLoop] at h
  cases h
  obtain ⟨hfst, hone⟩ := fcfsGrants_min (rq.take window) p hmin
  simp only [Allocations.empty, List.nil_append]
  generalize hps : (fcfsGrants Job.min Job.min (rq.take window) p).1 = ps at hfst hone
  have hne : ∀ pr ∈ ps, pr.2 ≠ [] := fun pr hpr => List.length_pos_iff.mp (by rw [hone pr hpr]; decide)
  rw [List.take_take, Nat.min_comm] at hfst
  have hcounts : counts ps = oneEach rq window p.length := by
    rw [oneEach, show Nat.min window p.length = window ⊓ p.length from rfl, ← hfst, List.map_map]
    exact List.map_congr_left fun pr hpr => by simp [hone pr hpr]
  have hq0 : 0 < rq.length := List.length_pos_iff.mpr hrq
  have hjobs : ps ≠ [] := by
    rw [← List.length_pos_iff]
    have hlen := congrArg List.length hfst
    rw [List.length_map, List.length_take] at hlen
    have := List.length_pos_iff.mpr hp
    omega
  rw [← hcounts]
  exact score_pos_iff hq0 (a := ⟨ps, 0⟩) hne hjobs

section Chosen

variable {pool : List Resource} {max min amap sjt prio b : Allocations}
  (hc : Candidates fp sort rq window pool max min amap sjt prio)
  (hsel : selectMaxScore fp ([max, min, amap, sjt, prio].map (score fp .completionTime rq.length)) = some b)
include hc

include hsel in
/-- With five resources whatever is chosen serves a job. -/
theorem noJobs_chosen (hp5 : 5 ≤ pool.length) : 1 ≤ b.noJobs := by
  have hcand : ∀ {alg : Alg} {c : Allocations}, alg ∈ algVec fp sort →
      (∃ p p', p.Perm pool ∧ (alg rq window).run p = .done c p') → 1 ≤ c.noJobs := by
    rintro alg c halg ⟨p, p', hp, hrun⟩
    exact noJobs_candidate sort hnd hbuilt hrq hw halg (by rw [hp.length_eq]; exact hp5) hrun
  obtain ⟨c, hmem, rfl⟩ := List.mem_map.mp (selected_mem hsel)
  rw [noJobs_score]
  simp only [List.mem_cons, List.not_mem_nil, or_false] at hmem
  rcases hmem with rfl | rfl | rfl | rfl | rfl
  · exact hcand (by simp [algVec]) hc.max_run
  · exact hcand (by simp [algVec]) hc.min_run
  · exact hcand (by simp [algVec]) hc.amap_run
  · exact hcand (by simp [algVec]) hc.sjt_run
  · exact hcand (by simp [algVec]) hc.prio_run

/-- With fewer `Priority` serves nobody. -/
theorem noJobs_priority (hp4 : pool.length ≤ 4) : prio.noJobs = 0 := by
  obtain ⟨p, p', hp, hrun⟩ := hc.prio_run
  have hlens := lens_priority sort hnd hbuilt hrq hw hrun
  have hnone : builtLens 4 (rq.take window).length p.length = [] := by
    cases (rq.take window).length with
    | zero => rfl
    | succ n =>
      have := hp.length_eq
      rw [builtLens, if_neg (by omega)]
  rw [noJobs_eq_lens, hlens, hnone]
  rfl

include hsel in
/-- Then what is chosen serves a job exactly when it scores more than zero. -/
theorem noJobs_chosen_iff (hp4 : pool.length ≤ 4) : 1 ≤ b.noJobs ↔ 0 < b.score := by
  have hprio := noJobs_priority sort hnd hbuilt hrq hw hc hp4
  have hzero : (score fp .completionTime rq.length prio).score = 0 := score_zero (.inl hprio)
  have hlast : selectMaxScore fp ([max, min, amap, sjt].map (score fp .completionTime rq.length) ++
      [score fp .completionTime rq.length prio]) = some b := hsel
  rcases selected_last (by simp) hlast with rfl | ⟨hmem, hlt⟩
  · rw [noJobs_score, hprio, hzero]
    simp
  · rw [hzero, Int.cast_zero, fp.float_zero] at hlt
    have hpos := Arith.float_pos_iff.mp hlt
    obtain ⟨c, -, rfl⟩ := List.mem_map.mp hmem
    refine iff_of_true ?_ hpos
    rw [noJobs_score]
    by_contra hnone
    rw [score_zero (.inl (by omega))] at hpos
    omega

include hsel in
/-- And it does exactly when the first job does on the whole pool, or those `FCFSMin` takes on one resource each. -/
theorem score_chosen_pos_iff (hpool : pool ≠ []) (hp4 : pool.length ≤ 4) : 0 < b.score ↔
    Pays fp rq.length [(rq.head hrq, pool.length)] ∨ Pays fp rq.length (oneEach rq window pool.length) := by
  obtain ⟨p₁, p₁', h1, hmax⟩ := hc.max_run
  obtain ⟨p₂, p₂', h2, hmin⟩ := hc.min_run
  obtain ⟨p₃, p₃', h3, hamap⟩ := hc.amap_run
  obtain ⟨p₄, p₄', h4, hsjt⟩ := hc.sjt_run
  have hsize : ∀ {p : List Resource}, p.Perm pool → p.length ≤ 4 := fun hp => by rw [hp.length_eq]; exact hp4
  have hne : ∀ {p : List Resource}, p.Perm pool → p ≠ [] := fun hp h => by
    rw [h] at hp
    exact hpool hp.symm.eq_nil
  have hmaxOf : ∀ j ∈ rq, j.max = 4 := fun j hj => (hbuilt j hj).max_eq
  have hminIff : 0 < (score fp .completionTime rq.length _).score ↔ Pays fp rq.length (oneEach rq window p₂.length) :=
    score_min_pos hbuilt hrq hw (hne h2) hmin
  rw [h2.length_eq] at hminIff
  constructor
  · intro hb
    obtain ⟨c, hmem, rfl⟩ := List.mem_map.mp (selected_mem hsel)
    simp only [List.mem_cons, List.not_mem_nil, or_false] at hmem
    rcases hmem with rfl | rfl | rfl | rfl | rfl
    · exact .inl (h1.length_eq ▸ score_fcfs_pos hrq hw hmaxOf (hsize h1) hmax hb)
    · exact .inr (hminIff.mp hb)
    · exact .inl (h3.length_eq ▸ score_fcfs_pos hrq hw hmaxOf (hsize h3) hamap hb)
    · exact .inl (h4.length_eq ▸ score_sjtf_pos sort hnd hbuilt hrq hw (hsize h4) hsjt hb)
    · rw [score_zero (.inl (noJobs_priority sort hnd hbuilt hrq hw hc hp4))] at hb
      omega
  · rintro (h | h)
    · have hpos := score_amap_pos hbuilt hrq hw (hne h3) hamap (hsize h3) (h3.length_eq.symm ▸ h)
      exact selected_pos hsel (by simp) hpos
    · exact selected_pos hsel (by simp) (hminIff.mpr h)

end Chosen

/-- **When managed mode dispatches**: with five free resources, or when one of two allocations has a positive score:
the first waiting job on all of the pool, or the jobs `FCFSMin` takes on one resource each. -/
theorem managedMode_dispatches_iff (fp : Arith) {pool : List Resource} (hpool : pool ≠ []) :
    (∃ a pool', (managedMode fp sort .completionTime rq window).run pool = .done a pool' ∧ 1 ≤ a.noJobs) ↔
      5 ≤ pool.length ∨ Pays fp rq.length [(rq.head hrq, pool.length)] ∨
        Pays fp rq.length (oneEach rq window pool.length) := by
  obtain ⟨max, min, amap, sjt, prio, b, q, hc, hsel, hrun⟩ :=
    run_managedMode fp sort hnd hrq hw .completionTime pool hpool
  have hleft : (∃ a pool', (managedMode fp sort .completionTime rq window).run pool = .done a pool' ∧
      1 ≤ a.noJobs) ↔ 1 ≤ b.noJobs := by
    constructor
    · rintro ⟨a, pool', h, ha⟩
      rw [hrun] at h
      cases h
      exact ha
    · exact fun h => ⟨b, q, hrun, h⟩
  rw [hleft]
  by_cases hp5 : 5 ≤ pool.length
  · exact iff_of_true (noJobs_chosen sort hnd hbuilt hrq hw hc hsel hp5) (.inl hp5)
  · have hp4 : pool.length ≤ 4 := by omega
    rw [noJobs_chosen_iff sort hnd hbuilt hrq hw hc hsel hp4,
      score_chosen_pos_iff sort hnd hbuilt hrq hw hc hsel hpool hp4]
    constructor
    · exact .inr
    · exact fun h => h.resolve_left hp5

end Dispatch

/-- In `float` 16777217 ms are 16777216 ms, so with as many below zero the makespan is zero. -/
example : let rq := [Job.ofRequest (timedRequest (-16777216)) 1, Job.ofRequest (timedRequest 16777217) 2]
    Pays .exact 2 (oneEach rq 5 2) ∧ ¬Pays .ieee 2 (oneEach rq 5 2) := by decide +kernel

theorem managedMode_dispatches_one : ∃ a pool', (managedMode .ieee .insertion .completionTime
    [Job.ofRequest (timedRequest 40) 1] 5).run [firstResource] = .done a pool' ∧ 1 ≤ a.noJobs := by
  have hbuilt : ∀ j ∈ [Job.ofRequest (timedRequest 40) 1], j.Built := by
    intro j hj
    obtain rfl := List.mem_singleton.mp hj
    exact ⟨_, _, rfl⟩
  exact (managedMode_dispatches_iff .insertion (by decide) hbuilt (by decide) (by decide) .ieee (by decide)).mpr
    (.inr (.inl (by decide +kernel)))

/-- A predicted time of zero: every candidate scores zero and the empty one of `Priority` is returned. -/
theorem managedMode_zero_time : ¬∀ (sort : StdSort Job) (rq : List Job) (pool : List Resource), rq.Nodup →
    (∀ j ∈ rq, j.Built) → rq ≠ [] → pool ≠ [] →
    ∃ a pool', (managedMode .ieee sort .completionTime rq 5).run pool = .done a pool' ∧ 1 ≤ a.noJobs := by
  intro h
  have hbuilt : ∀ j ∈ [Job.ofRequest (timedRequest 0) 1], j.Built := by
    intro j hj
    obtain rfl := List.mem_singleton.mp hj
    exact ⟨_, _, rfl⟩
  obtain ⟨a, pool', hrun, ha⟩ :=
    h .insertion [Job.ofRequest (timedRequest 0) 1] [firstResource] (by decide) hbuilt (by decide) (by decide)
  have hzero : (managedMode .ieee .insertion .completionTime [Job.ofRequest (timedRequest 0) 1] 5).run
      [firstResource] = .done ⟨[], 0⟩ [firstResource] := by decide +kernel
  rw [hzero] at hrun
  cases hrun
  exact absurd ha (by decide)

end Hydrogen
