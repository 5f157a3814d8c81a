import Hydrogen.Scheduler.ExactScore
import Hydrogen.Scheduler.PickOrder

/-!
# The best candidate

`score` computes a floating-point number, `setScore` stores its whole part, and `selectMaxScore` takes the last of the
candidates with the largest. So the allocation that managed mode returns has the best score among the five candidates if
and only if one of the best-scoring candidates has a larger whole part than every candidate behind it
(`managedMode_best_iff`). The scores depend on the jobs, the window and the size of the pool: which job gets how many
resources is counted by `fcfsCounts` and `greedyCounts`.
-/

namespace Hydrogen

open StdAlgorithm

/-! ## The last of the largest whole parts -/

/-- The chosen candidate is the last of those with the largest score. -/
theorem selectLoop_split : ∀ (as : List Allocations) (best : Allocations),
    ∃ front back, best :: as = front ++ selectLoop .exact as best :: back ∧
      ∀ b ∈ back, b.score < (selectLoop .exact as best).score
  | [], best => ⟨[], [], rfl, fun b hb => by cases hb⟩
  | c :: as, best => by
    by_cases hc : c.score ≥ best.score
    · obtain ⟨front, back, hsplit, hback⟩ := selectLoop_split as c
      refine ⟨best :: front, back, ?_, ?_⟩
      · rw [selectLoop, if_pos (float_le_exact.mpr hc), List.cons_append, ← hsplit]
      · rwa [selectLoop, if_pos (float_le_exact.mpr hc)]
    · obtain ⟨front, back, hsplit, hback⟩ := selectLoop_split as best
      rw [selectLoop, if_neg (mt float_le_exact.mp hc)]
      -- the candidate that was passed over goes behind the best one, in front or at its back
      cases front with
      | nil =>
        obtain ⟨hsel, rfl⟩ := List.cons.inj hsplit
        refine ⟨[], c :: as, by rw [← hsel]; rfl, fun b hb => ?_⟩
        rcases List.mem_cons.mp hb with rfl | hb
        · rw [← hsel]
          omega
        · exact hback b hb
      | cons d front =>
        obtain ⟨rfl, has⟩ := List.cons.inj hsplit
        exact ⟨best :: c :: front, back, congrArg (fun l => best :: c :: l) has, hback⟩

theorem selected_split {as : List Allocations} {a : Allocations} (h : selectMaxScore .exact as = some a) :
    ∃ front back, as = front ++ a :: back ∧ ∀ b ∈ back, b.score < a.score := by
  cases as with
  | nil => cases h
  | cons b as =>
    have hsel : selectLoop .exact (b :: as) b = a := Option.some.inj h
    rw [selectLoop, if_pos (float_le_exact.mpr le_rfl)] at hsel
    obtain ⟨front, back, hsplit, hback⟩ := selectLoop_split as b
    rw [hsel] at hsplit hback
    exact ⟨front, back, hsplit, hback⟩

/-- Some best number has a larger whole part than every number behind it. -/
def LastWhole (es : List ℚ) : Prop :=
  ∃ front e back, es = front ++ e :: back ∧ (∀ x ∈ es, x ≤ e) ∧ ∀ x ∈ back, ⌊x⌋ < ⌊e⌋

/-- An element further back is among those behind. -/
theorem mem_back_of_lt {es front back front' back' : List ℚ} {e e' : ℚ} (h : es = front ++ e :: back)
    (h' : es = front' ++ e' :: back') (hlt : front.length < front'.length) : e' ∈ back := by
  have hget : es[front'.length]? = some e' := by simp [h']
  rw [h, List.getElem?_append_right (by omega),
    show front'.length - front.length = (front'.length - front.length - 1) + 1 by omega, List.getElem?_cons_succ] at hget
  exact List.mem_of_getElem? hget

/-- **Whole parts**: if the scores are the whole parts of numbers, the last candidate with the largest score has the
largest number if and only if some largest number has a larger whole part than all behind it. -/
theorem selected_best_iff {as : List Allocations} {a : Allocations} (h : selectMaxScore .exact as = some a)
    (exact : Allocations → ℚ) (hexact : ∀ b ∈ as, b.score = ⌊exact b⌋) :
    (∀ b ∈ as, exact b ≤ exact a) ↔ LastWhole (as.map exact) := by
  obtain ⟨front, back, rfl, hback⟩ := selected_split h
  have hle : ∀ b ∈ front ++ a :: back, b.score ≤ a.score := fun b hb => float_le_exact.mp (le_selected h b hb)
  have hmem : a ∈ front ++ a :: back := List.mem_append_right _ List.mem_cons_self
  constructor
  · intro hbest
    refine ⟨front.map exact, exact a, back.map exact, by rw [List.map_append, List.map_cons], ?_, ?_⟩
    · intro x hx
      obtain ⟨b, hb, rfl⟩ := List.mem_map.mp hx
      exact hbest b hb
    · intro x hx
      obtain ⟨b, hb, rfl⟩ := List.mem_map.mp hx
      rw [← hexact b (List.mem_append_right _ (List.mem_cons_of_mem _ hb)), ← hexact a hmem]
      exact hback b hb
  · rintro ⟨front', e, back', hsplit, hbest, hwhole⟩
    have hchosen : (front ++ a :: back).map exact = front.map exact ++ exact a :: back.map exact := by
      rw [List.map_append, List.map_cons]
    -- the whole part of the chosen one is that of the best
    have hfloor : ⌊exact a⌋ = ⌊e⌋ := by
      obtain ⟨b, hb, hbe⟩ := List.mem_map.mp (hsplit ▸ List.mem_append_right front' List.mem_cons_self)
      refine le_antisymm (Int.floor_mono (hbest _ (List.mem_map_of_mem hmem))) ?_
      rw [← hbe, ← hexact b hb, ← hexact a hmem]
      exact hle b hb
    have hsame : exact a = e := by
      rcases Nat.lt_trichotomy front'.length (front.map exact).length with hlt | heq | hgt
      · exact absurd (hwhole _ (mem_back_of_lt hsplit hchosen hlt)) (by omega)
      · exact (List.cons.inj (List.append_inj_right (hchosen.symm.trans hsplit) heq.symm)).1
      · obtain ⟨b, hb, hbe⟩ := List.mem_map.mp (mem_back_of_lt hchosen hsplit hgt)
        have hlt := hback b hb
        rw [hexact b (List.mem_append_right _ (List.mem_cons_of_mem _ hb)), hexact a hmem, hbe] at hlt
        omega
    intro b hb
    rw [hsame]
    exact hbest _ (List.mem_map_of_mem hb)

/-! ## Scores before the conversion -/

/-- What `score` computes, as an exact number: nothing without a job that is served, else the length of the queue for
each, and their number divided by the makespan. -/
def exactScore (q : Nat) (a : Allocations) : ℚ :=
  if a.noJobs = 0 then 0
  else q * a.noJobs + match a.makespan .exact with
    | .fin m => a.noJobs / m
    | _ => 0

@[simp] theorem exactScore_score (strat : Strategy) (n q : Nat) (a : Allocations) :
    exactScore q (score .exact strat n a) = exactScore q a := by
  have hspan : (score .exact strat n a).makespan .exact = a.makespan .exact := by
    simp only [Allocations.makespan, jobs_score]
  rw [exactScore, exactScore, noJobs_score, hspan]

/-- With positive times the makespan is positive, or infinite. -/
theorem makespan_cases {a : Allocations} (ht : ∀ p ∈ a.jobs, 0 < p.1.predictedTimeMillis) (ha : a.noJobs ≠ 0) :
    (∃ m, 0 < m ∧ a.makespan .exact = .fin m) ∨ a.makespan .exact = .posInf := by
  by_cases hnil : ∃ p ∈ a.jobs, p.2 = []
  · exact .inr (makespan_posInf ht hnil)
  · have hne : ∀ p ∈ a.jobs, p.2 ≠ [] := fun p hp h => hnil ⟨p, hp, h⟩
    exact .inl ⟨_, sum_share_pos hne ht ha, makespan_fin hne⟩

/-- **The stored score is the whole part.** -/
theorem score_eq_floor {n : Nat} (hn : 0 < n) {a : Allocations} (ht : ∀ p ∈ a.jobs, 0 < p.1.predictedTimeMillis) :
    (score .exact .completionTime n a).score = ⌊exactScore n a⌋ := by
  by_cases ha : a.noJobs = 0
  · rw [score_zero (.inl ha), exactScore, if_pos ha, Int.floor_zero]
  · rcases makespan_cases ht ha with ⟨m, hpos, hm⟩ | hm
    · rw [score_fin_eq hn hm hpos (Nat.one_le_iff_ne_zero.mpr ha), exactScore, if_neg ha, hm]
    · rw [score_posInf hn hm, exactScore, if_neg ha, hm]
      simp only [add_zero]
      exact_mod_cast (Int.floor_natCast (n * a.noJobs)).symm

/-! ## Counting resources -/

/-- The number of resources `allocate` takes from a pool of `n`. -/
def takes (maxRes minRes n : Nat) : Nat := if minRes ≤ n then min maxRes n else 0

/-- What the FCFS loop gives to jobs from a pool of `n`. -/
def fcfsCounts (maxOf minOf : Job → Nat) : List Job → Nat → List (Job × Nat)
  | [], _ => []
  | j :: js, n =>
    let k := takes (maxOf j) (minOf j) n
    if 0 < k then (j, k) :: fcfsCounts maxOf minOf js (n - k) else []

/-- What the greedy loop gives to at most so many jobs from a pool of `n`. -/
def greedyCounts (better : Job → Job → Bool) (demand : Job → Nat) : Nat → List Job → Nat → List (Job × Nat)
  | 0, _, _ => []
  | rounds + 1, live, n =>
    match live[bestIdx better live]? with
    | none => []
    | some j =>
      let k := takes j.max j.max n
      if demand j < n then (j, k) :: greedyCounts better demand rounds (live.eraseIdx (bestIdx better live)) (n - k)
      else []

/-- What the five algorithms of the table give, in its order. -/
def candidateCounts (sort : StdSort Job) (rq : List Job) (window n : Nat) : List (List (Job × Nat)) :=
  let jobs := rq.take window
  [fcfsCounts Job.max Job.max jobs n, fcfsCounts Job.min Job.min jobs n, fcfsCounts Job.max Job.min jobs n,
    greedyCounts sortByMin Job.min (sort.sort (sortByTime .exact) jobs).length (sort.sort (sortByTime .exact) jobs) n,
    greedyCounts higherPriority Job.max (sort.sort sortByPriority jobs).length (sort.sort sortByPriority jobs) n]

/-- The score of such counts in a queue of `q` jobs; a job without resources makes the makespan infinite. -/
def countScore (q : Nat) (cs : List (Job × Nat)) : ℚ :=
  let served := (cs.filter fun c => 0 < c.2).length
  if served = 0 then 0
  else q * served + if ∀ c ∈ cs, 0 < c.2 then served / (cs.map fun c => c.1.predictedTimeMillis / (c.2 : ℚ)).sum else 0

theorem length_taken_eq (maxRes minRes : Nat) (p : List Resource) :
    (taken maxRes minRes p).length = takes maxRes minRes p.length := length_taken maxRes minRes p

theorem length_left_eq (maxRes minRes : Nat) (p : List Resource) :
    (left maxRes minRes p).length = p.length - takes maxRes minRes p.length := by
  rw [length_left, takes]
  split
  · omega
  · rw [Nat.sub_zero]

theorem counts_fcfsGrants (maxOf minOf : Job → Nat) : ∀ (js : List Job) (p : List Resource),
    counts (fcfsGrants maxOf minOf js p).1 = fcfsCounts maxOf minOf js p.length
  | [], _ => rfl
  | j :: js, p => by
    have hrec := counts_fcfsGrants maxOf minOf js (left (maxOf j) (minOf j) p)
    rw [length_left_eq] at hrec
    unfold fcfsGrants fcfsCounts
    rw [length_taken_eq]
    dsimp only
    split
    · rw [counts, List.map_cons, length_taken_eq]
      exact congrArg _ hrec
    · rfl

theorem counts_greedyGrants (better : Job → Job → Bool) (demand : Job → Nat) :
    ∀ (rounds : Nat) (live : List Job) (p : List Resource),
      counts (greedyGrants better demand rounds live p).1 = greedyCounts better demand rounds live p.length
  | 0, _, _ => rfl
  | rounds + 1, live, p => by
    unfold greedyGrants greedyCounts
    cases live[bestIdx better live]? with
    | none => rfl
    | some j =>
      have hrec := counts_greedyGrants better demand rounds (live.eraseIdx (bestIdx better live)) (left j.max j.max p)
      rw [length_left_eq] at hrec
      dsimp only
      split
      · rw [counts, List.map_cons, length_taken_eq]
        exact congrArg _ hrec
      · rfl

/-- What the FCFS loop gives depends on the size of the pool only. -/
theorem counts_fcfsLoop {maxOf minOf : Job → Nat} {js : List Job} {a : Allocations} {q : List Resource}
    (h : ∃ p p', p.Perm q ∧ (fcfsLoop maxOf minOf js .empty).run p = .done a p') :
    counts a.jobs = fcfsCounts maxOf minOf js q.length := by
  obtain ⟨p, p', hperm, hrun⟩ := h
  rw [run_fcfsLoop] at hrun
  cases hrun
  rw [← hperm.length_eq, ← counts_fcfsGrants]
  rfl

theorem counts_greedy {better : Job → Job → Bool} {demand : Job → Nat} {rounds : Nat} {live : List Job} {a : Allocations}
    {q : List Resource} (h : ∃ p p', p.Perm q ∧ (greedy better demand rounds live .empty).run p = .done a p') :
    counts a.jobs = greedyCounts better demand rounds live q.length := by
  obtain ⟨p, p', hperm, hrun⟩ := h
  rw [run_greedy] at hrun
  cases hrun
  rw [← hperm.length_eq, ← counts_greedyGrants]
  rfl

/-- The exact score of an allocation is that of its counts. -/
theorem exactScore_eq_countScore {q : Nat} {a : Allocations} (ht : ∀ p ∈ a.jobs, 0 < p.1.predictedTimeMillis) :
    exactScore q a = countScore q (counts a.jobs) := by
  have hserved : ((counts a.jobs).filter fun c => 0 < c.2).length = a.noJobs := by
    rw [counts, List.filter_map, List.length_map]
    rfl
  have hall : (∀ c ∈ counts a.jobs, 0 < c.2) ↔ ∀ p ∈ a.jobs, p.2 ≠ [] := by
    simp only [counts, List.forall_mem_map, List.length_pos_iff]
  have hspan : ((counts a.jobs).map fun c => c.1.predictedTimeMillis / (c.2 : ℚ)).sum = (a.jobs.map share).sum := by
    rw [counts, List.map_map]
    rfl
  rw [exactScore, countScore, hserved, hspan]
  by_cases ha : a.noJobs = 0
  · rw [if_pos ha, if_pos ha]
  · rw [if_neg ha, if_neg ha]
    by_cases hne : ∀ p ∈ a.jobs, p.2 ≠ []
    · rw [if_pos (hall.mpr hne), makespan_fin hne]
    · have hnil : ∃ p ∈ a.jobs, p.2 = [] := by
        push Not at hne
        exact hne
      rw [if_neg (mt hall.mp hne), makespan_posInf ht hnil]

/-! ## Managed mode -/

theorem forall₂_mem_right {β γ : Type} {R : β → γ → Prop} {bs : List β} {cs : List γ} (h : List.Forall₂ R bs cs) {c : γ}
    (hc : c ∈ cs) : ∃ b ∈ bs, R b c := by
  induction h with
  | nil => cases hc
  | cons hR _ ih =>
    rcases List.mem_cons.mp hc with rfl | hc
    · exact ⟨_, List.mem_cons_self, hR⟩
    · obtain ⟨b, hb, hbc⟩ := ih hc
      exact ⟨b, List.mem_cons_of_mem _ hb, hbc⟩

section Managed

variable (sort : StdSort Job) {rq : List Job} {window : Nat} (hnd : rq.Nodup) (hrq : rq ≠ []) (hw : 1 ≤ window)
include hnd hrq hw

/-- What the candidates of managed mode are, counted: each algorithm on a pool of the same size. -/
theorem run_trials_counts (q : List Resource) (hq : q ≠ []) :
    ∃ cs q', (trials rq window (algVec .exact sort)).run q = .done cs q' ∧
      cs.map (fun c => counts c.jobs) = candidateCounts sort rq window q.length ∧ ∀ c ∈ cs, ∀ p ∈ c.jobs, p.1 ∈ rq := by
  obtain ⟨cs, q', htrials, -, hall⟩ := run_trials sort hnd hrq hw (algVec .exact sort) (fun _ h => h) q hq
  refine ⟨cs, q', htrials, ?_, fun c hc => ?_⟩
  · obtain ⟨max, _, hmax, h₁, rfl⟩ := List.forall₂_cons_left_iff.mp hall
    obtain ⟨min, _, hmin, h₂, rfl⟩ := List.forall₂_cons_left_iff.mp h₁
    obtain ⟨amap, _, hamap, h₃, rfl⟩ := List.forall₂_cons_left_iff.mp h₂
    obtain ⟨sjt, _, hsjt, h₄, rfl⟩ := List.forall₂_cons_left_iff.mp h₃
    obtain ⟨prio, _, hprio, h₅, rfl⟩ := List.forall₂_cons_left_iff.mp h₄
    cases h₅
    rw [sjtf_eq_greedy sort hnd hrq hw] at hsjt
    rw [priority_eq_greedy sort hnd hrq hw] at hprio
    simp only [List.map_cons, List.map_nil, candidateCounts, counts_fcfsLoop hmax, counts_fcfsLoop hmin,
      counts_fcfsLoop hamap, counts_greedy hsjt, counts_greedy hprio]
  · obtain ⟨alg, halg, p, p', -, hrun⟩ := forall₂_mem_right hall hc
    exact mem_of_run sort hnd hrq hw halg hrun

/-- The allocation managed mode returns scores best among its candidates. -/
def BestChosen (rq : List Job) (window : Nat) (q : List Resource) : Prop :=
  ∃ cs q₁ a q₂, (trials rq window (algVec .exact sort)).run q = .done cs q₁ ∧
    (managedMode .exact sort .completionTime rq window).run q = .done a q₂ ∧
    ∀ c ∈ cs, exactScore rq.length c ≤ exactScore rq.length a

/-- **Managed mode picks the best-scoring candidate** if and only if one of the best scores has a larger whole part than
the score of every algorithm behind it in the table. -/
theorem managedMode_best_iff (ht : ∀ j ∈ rq, 0 < j.predictedTimeMillis) (q : List Resource) (hq : q ≠ []) :
    BestChosen sort rq window q ↔
      LastWhole ((candidateCounts sort rq window q.length).map (countScore rq.length)) := by
  obtain ⟨cs, q', htrials, hcounts, hmem⟩ := run_trials_counts sort hnd hrq hw q hq
  have hpos : 0 < rq.length := List.length_pos_iff.mpr hrq
  have htimes : ∀ c ∈ cs, ∀ p ∈ c.jobs, 0 < p.1.predictedTimeMillis := fun c hc p hp => ht p.1 (hmem c hc p hp)
  have hne : cs.map (score .exact .completionTime rq.length) ≠ [] := by
    intro hnil
    rw [List.map_eq_nil_iff.mp hnil] at hcounts
    cases hcounts
  obtain ⟨a, hsel⟩ : ∃ a, selectMaxScore .exact (cs.map (score .exact .completionTime rq.length)) = some a := by
    obtain ⟨a, -, hsel⟩ := selectMaxScore_mem hne
    exact ⟨a, hsel⟩
  have hrun : (managedMode .exact sort .completionTime rq window).run q = .done a q' := by
    simp only [managedMode, Prog.run_bind, htrials, Outcome.bind_done, hsel, Prog.run_pure]
  have hwhole : ∀ b ∈ cs.map (score .exact .completionTime rq.length), b.score = ⌊exactScore rq.length b⌋ := by
    intro b hb
    obtain ⟨c, hc, rfl⟩ := List.mem_map.mp hb
    rw [exactScore_score, score_eq_floor hpos (htimes c hc)]
  have hscores : (cs.map (score .exact .completionTime rq.length)).map (exactScore rq.length) =
      (candidateCounts sort rq window q.length).map (countScore rq.length) := by
    rw [← hcounts, List.map_map, List.map_map]
    refine List.map_congr_left fun c hc => ?_
    show exactScore rq.length (score .exact .completionTime rq.length c) = countScore rq.length (counts c.jobs)
    rw [exactScore_score, exactScore_eq_countScore (htimes c hc)]
  rw [← hscores, ← selected_best_iff hsel (exactScore rq.length) hwhole]
  simp only [List.forall_mem_map, exactScore_score]
  constructor
  · rintro ⟨cs', q₁, a', q₂, htrials', hrun', hbest⟩
    cases htrials.symm.trans htrials'
    cases hrun.symm.trans hrun'
    exact hbest
  · intro hbest
    exact ⟨cs, q', a, q', htrials, hrun, hbest⟩

end Managed

/-- One job and one resource: two of the candidates serve it and score best, and those behind them score nothing. -/
theorem managedMode_best_one :
    BestChosen .insertion [Job.ofRequest { msgEmpty with predictedTimeMillis := 40 } 1] 5 (localDfes 1) := by
  have hscores : (candidateCounts .insertion [Job.ofRequest { msgEmpty with predictedTimeMillis := 40 } 1] 5 1).map
      (countScore 1) = [0, 26] ++ 26 :: [0, 0] := by decide +kernel
  refine (managedMode_best_iff .insertion (by decide) (by decide) (by decide) (by decide +kernel) (localDfes 1)
    (by decide)).mpr ⟨[0, 26], 26, [0, 0], hscores, ?_, by decide +kernel⟩
  intro x hx
  have hx : x ∈ [0, 26] ++ 26 :: [0, 0] := hscores ▸ hx
  revert x
  decide +kernel

/-- Two jobs of 89 and 90 milliseconds, of which the longer one has the higher priority. -/
def closeJobs : List Job :=
  [Job.ofRequest { msgEmpty with predictedTimeMillis := 89, clientId := 1 } 1,
    Job.ofRequest { msgEmpty with predictedTimeMillis := 90, clientId := 2 } 2]

/-- `SJTF` scores 46.94 and `Priority` 46.44; both are stored as 46, and the last one is taken. -/
theorem managedMode_not_best : ¬∀ (sort : StdSort Job) (rq : List Job) (q : List Resource), rq.Nodup → rq ≠ [] →
    (∀ j ∈ rq, 0 < j.predictedTimeMillis) → q ≠ [] → BestChosen sort rq 5 q := by
  intro h
  obtain ⟨cs, q₁, a, q₂, htrials, hrun, hbest⟩ :=
    h .insertion closeJobs (localDfes 5) (by decide) (by decide) (by decide +kernel) (by decide)
  have hcheck : (((trials closeJobs 5 (algVec .exact .insertion)).run (localDfes 5)).bind fun cs _ =>
      ((managedMode .exact .insertion .completionTime closeJobs 5).run (localDfes 5)).bind fun a _ =>
        .done (cs.all fun c => exactScore closeJobs.length c ≤ exactScore closeJobs.length a) []) =
      .done false [] := by decide +kernel
  rw [htrials, hrun] at hcheck
  have hall : (cs.all fun c => exactScore closeJobs.length c ≤ exactScore closeJobs.length a) = true :=
    List.all_eq_true.mpr fun c hc => decide_eq_true (hbest c hc)
  simp only [Outcome.bind_done, hall] at hcheck
  cases hcheck

end Hydrogen
