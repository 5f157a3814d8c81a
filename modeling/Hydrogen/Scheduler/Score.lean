import Hydrogen.Scheduler.Grants

/-!
# The scores of candidates

Managed mode compares its candidates by an integer score, the last of the best winning (`selected_last`). Under the
completion time strategy the score is zero without jobs or with a makespan of zero or less; else it is computed in
`float` from the number of jobs that are served and the makespan, and may not fit an `int` (`score_pos_iff`). For jobs of
one to four resources, what `SJTF` and `Priority` grant depends on the sizes of the window and the pool alone
(`lens_sjtf`, `lens_priority`).
-/

namespace Hydrogen

open StdAlgorithm

variable {fp : Arith}

/-! ## Makespan -/

/-- The jobs of an allocation, each with the number of its resources. -/
def counts (ps : List JobResPair) : List (Job × Nat) := ps.map fun p => (p.1, p.2.length)

/-- The makespan of jobs on so many resources each. -/
def spanOf (fp : Arith) (cs : List (Job × Nat)) : ExtRat :=
  cs.foldl (fun sum c => fp.addf sum (c.1.costOn fp c.2)) (.fin 0)

theorem makespan_eq_spanOf (a : Allocations) : a.makespan fp = spanOf fp (counts a.jobs) := by
  rw [spanOf, counts, List.foldl_map]
  rfl

/-! ## Number of jobs -/

/-- The lengths of the resource lists. -/
def lens (ps : List JobResPair) : List Nat := ps.map fun p => p.2.length

theorem noJobs_eq_lens (a : Allocations) : a.noJobs = ((lens a.jobs).filter fun n => 0 < n).length := by
  simp only [Allocations.noJobs, lens, List.filter_map, List.length_map]
  rfl

theorem noJobs_of_ne_nil {a : Allocations} (h : ∀ p ∈ a.jobs, p.2 ≠ []) : a.noJobs = a.jobs.length := by
  have : a.jobs.filter (fun p => 0 < p.2.length) = a.jobs :=
    List.filter_eq_self.mpr fun p hp => by simpa using List.length_pos_iff.mpr (h p hp)
  rw [Allocations.noJobs, this]

theorem noJobs_pos {a : Allocations} {p : JobResPair} (hp : p ∈ a.jobs) (h : p.2 ≠ []) : 1 ≤ a.noJobs := by
  have : p ∈ a.jobs.filter fun p => 0 < p.2.length :=
    List.mem_filter.mpr ⟨hp, by simpa using List.length_pos_iff.mpr h⟩
  exact List.length_pos_of_mem this

@[simp] theorem noJobs_score (strat : Strategy) (n : Nat) (a : Allocations) :
    (score fp strat n a).noJobs = a.noJobs := by
  simp only [Allocations.noJobs, jobs_score]

/-! ## Scores under the completion time strategy -/

theorem score_zero {n : Nat} {a : Allocations} (h : a.noJobs = 0 ∨ (a.makespan fp).le (.fin 0) = true) :
    (score fp .completionTime n a).score = 0 := by
  simp only [score, if_pos h]
  rfl

theorem score_of_not {n : Nat} (hn : 0 < n) {a : Allocations}
    (h : ¬(a.noJobs = 0 ∨ (a.makespan fp).le (.fin 0) = true)) :
    (score fp .completionTime n a).score = scoreOf fp n a.noJobs (a.makespan fp) := by
  simp only [score, if_neg h, if_pos hn]
  rfl

/-- In a queue of `q` jobs the score of these jobs on so many resources is positive: the makespan is not zero or less,
and the score fits an `int`. -/
def Pays (fp : Arith) (q : Nat) (cs : List (Job × Nat)) : Prop :=
  (spanOf fp cs).le (.fin 0) = false ∧ 0 < scoreOf fp q cs.length (spanOf fp cs)

instance (fp : Arith) (q : Nat) (cs : List (Job × Nat)) : Decidable (Pays fp q cs) :=
  inferInstanceAs (Decidable (_ ∧ _))

theorem score_pos_iff {n : Nat} (hn : 0 < n) {a : Allocations} (hne : ∀ p ∈ a.jobs, p.2 ≠ []) (ha : a.jobs ≠ []) :
    0 < (score fp .completionTime n a).score ↔ Pays fp n (counts a.jobs) := by
  have hlen : (counts a.jobs).length = a.noJobs := by rw [noJobs_of_ne_nil hne, counts, List.length_map]
  have hcount : a.noJobs ≠ 0 := by
    rw [noJobs_of_ne_nil hne]
    exact (List.length_pos_iff.mpr ha).ne'
  rw [Pays, hlen, ← makespan_eq_spanOf]
  by_cases hspan : (a.makespan fp).le (.fin 0) = true
  · simp [score_zero (.inr hspan), hspan]
  · rw [score_of_not hn (not_or.mpr ⟨hcount, hspan⟩), eq_false_of_ne_true hspan]
    simp

/-! ## Positive times -/

/-- Up to `w` jobs with a makespan of a four thousandth of a second or more have a positive score while the queue is no
longer than `top`: none is too large for an `int`. -/
def Arith.ScoresFit (fp : Arith) (w top : Nat) : Prop :=
  ∀ q n m, 1 ≤ q → q ≤ top → 1 ≤ n → n ≤ w → (ExtRat.fin (2 ^ (-12 : ℤ))).le m = true → 0 < scoreOf fp q n m

theorem Arith.ScoresFit.mono {w top top' : Nat} (h : fp.ScoresFit w top) (hle : top' ≤ top) : fp.ScoresFit w top' :=
  fun q n m hq hqt => h q n m hq (hqt.trans hle)

/-- On any machine the scores fit while the queue and the window are short. -/
theorem Arith.scoresFit (fp : Arith) {w top : Nat} (hw : w ≤ 2 ^ 12) (htop : top * w ≤ 2 ^ 24) :
    fp.ScoresFit w top := by
  intro q n m hq hqt hn hnw hm
  have hone : (1 : ℚ) ≤ n := by exact_mod_cast hn
  have hcount : fp.float (q * n : Nat) = .fin (q * n : Nat) :=
    fp.float_natCast ((Nat.mul_le_mul hqt hnw).trans htop)
  have hcount1 : (1 : ℚ) ≤ (q * n : Nat) := by exact_mod_cast Nat.mul_pos hq hn
  have hcount24 : ((q * n : Nat) : ℚ) ≤ 2 ^ 24 := by exact_mod_cast (Nat.mul_le_mul hqt hnw).trans htop
  -- the quotient lies between zero and `2 ^ 24`
  have hpow : (ExtRat.fin 0).lt (.fin (2 ^ (-12 : ℤ))) = true := decide_eq_true (two_zpow_pos (-12))
  obtain ⟨hle, hnonneg⟩ := ExtRat.div_le_div_left (c := n) (zero_le_one.trans hone) hpow hm
  have hquot : (ExtRat.fin 0).le (fp.divf (.fin n) m) = true := Arith.toFloat_nonneg hnonneg
  have hquot24 : (fp.divf (.fin n) m).le (.fin (2 ^ (24 : ℤ))) = true := by
    rw [← fp.float_pow (k := 24) (by decide) (by decide)]
    refine Arith.toFloat_mono (y := .fin (2 ^ (24 : ℤ))) (ExtRat.le_trans hle ?_)
    rw [ExtRat.fin_div_fin (two_zpow_pos _).ne']
    refine decide_eq_true ((div_le_iff₀ (two_zpow_pos _)).mpr ?_)
    have : (n : ℚ) ≤ 2 ^ 12 := by exact_mod_cast hnw.trans hw
    norm_num
    linarith
  have hsum : (ExtRat.fin 1).le ((ExtRat.fin (q * n : Nat)).add (fp.divf (.fin n) m)) = true := by
    have h := ExtRat.add_le_add (x := .fin 1) (y := .fin 0) (by decide) (by decide)
      (show (ExtRat.fin 1).le (.fin (q * n : Nat)) = true from decide_eq_true hcount1) hquot
    rwa [ExtRat.fin_add_fin, add_zero] at h
  have hsum25 : ((ExtRat.fin (q * n : Nat)).add (fp.divf (.fin n) m)).le (.fin (2 ^ (25 : ℤ))) = true := by
    have hcount : (ExtRat.fin (q * n : Nat)).le (.fin (2 ^ (24 : ℤ))) = true :=
      decide_eq_true (by exact_mod_cast hcount24)
    have hnonneg : (ExtRat.fin 0).le (.fin (q * n : Nat)) = true := decide_eq_true (zero_le_one.trans hcount1)
    have h := ExtRat.add_le_add hnonneg hquot hcount hquot24
    refine ExtRat.le_trans h (decide_eq_true ?_)
    norm_num
  have htop : fp.toInt (.fin (2 ^ (25 : ℤ))) = 2 ^ 25 := by
    have h := fp.toInt_intCast (n := 2 ^ 25) (by decide) (by decide)
    push_cast at h
    exact_mod_cast h
  unfold scoreOf
  rw [fp.float_natCast (n := n) (hnw.trans (hw.trans (by decide))), hcount]
  refine fp.toInt_pos (y := .fin (2 ^ (25 : ℤ))) ?_ ?_ (by rw [htop]; decide)
  · exact Arith.le_toFloat (by simpa using fp.float_natCast (n := 1) (by decide)) hsum
  · rw [← fp.float_pow (k := 25) (by decide) (by decide)]
    exact Arith.toFloat_mono (y := .fin (2 ^ (25 : ℤ))) hsum25

/-- A positive time is a millisecond at least. -/
theorem Job.Built.time_ge {j : Job} (h : j.Built) (hpos : 0 < j.predictedTimeMillis) :
    (2 : ℚ) ^ (-10 : ℤ) ≤ j.predictedTimeMillis := by
  obtain ⟨request, id, rfl⟩ := h
  have hnum : (0 : ℚ) < request.predictedTimeMillis.toInt := by
    have := hpos
    simp only [Job.ofRequest] at this
    linarith
  have hone : (1 : ℚ) ≤ request.predictedTimeMillis.toInt := by exact_mod_cast hnum
  have hthousandth : (2 : ℚ) ^ (-10 : ℤ) ≤ 1 / 1000 := by norm_num
  simp only [Job.ofRequest]
  linarith

variable (fp) in
/-- One to four resources cost the job a four thousandth of a second at least. -/
theorem costOn_ge {j : Job} {n : Nat} (h : j.Built) (hpos : 0 < j.predictedTimeMillis) (hn : 1 ≤ n) (hn4 : n ≤ 4) :
    (ExtRat.fin (2 ^ (-12 : ℤ))).le (j.costOn fp n) = true := by
  have htime : (ExtRat.fin (2 ^ (-10 : ℤ))).le (j.getDefaultJobTime fp) = true := by
    refine Arith.le_toFloat (fp.float_pow (by decide) (by decide)) ?_
    rw [← fp.double_pow (k := -10) (by decide) (by decide)]
    exact fp.double_mono (h.time_ge hpos)
  have hn' : (0 : ℚ) < n := by exact_mod_cast hn
  unfold Job.costOn Arith.divf
  rw [fp.float_natCast (hn4.trans (by decide))]
  refine Arith.le_toFloat (fp.float_pow (by decide) (by decide)) (ExtRat.le_trans ?_ (ExtRat.div_le_div_right hn' htime))
  rw [ExtRat.fin_div_fin hn'.ne']
  refine decide_eq_true ((le_div_iff₀ hn').mpr ?_)
  have hn4' : (n : ℚ) ≤ 4 := by exact_mod_cast hn4
  norm_num
  linarith

/-- Adding a cost keeps that bound. -/
theorem addf_cost_ge {x c : ExtRat} (hx : (ExtRat.fin 0).le x = true) (hc : (ExtRat.fin (2 ^ (-12 : ℤ))).le c = true) :
    (ExtRat.fin (2 ^ (-12 : ℤ))).le (fp.addf x c) = true := by
  have hpow : (ExtRat.fin 0).le (.fin (2 ^ (-12 : ℤ))) = true := decide_eq_true (two_zpow_pos (-12)).le
  have h := ExtRat.add_le_add (x := .fin 0) (by decide) hpow hx hc
  rw [ExtRat.fin_zero_add] at h
  exact Arith.le_toFloat (fp.float_pow (by decide) (by decide)) h

theorem foldl_cost_ge : ∀ (cs : List (Job × Nat)) (x : ExtRat),
    (∀ c ∈ cs, c.1.Built ∧ 0 < c.1.predictedTimeMillis ∧ 1 ≤ c.2 ∧ c.2 ≤ 4) →
    (ExtRat.fin 0).le x = true → (ExtRat.fin (2 ^ (-12 : ℤ))).le x = true ∨ cs ≠ [] →
    (ExtRat.fin (2 ^ (-12 : ℤ))).le (cs.foldl (fun sum c => fp.addf sum (c.1.costOn fp c.2)) x) = true
  | [], _, _, _, hx => hx.resolve_right fun h => h rfl
  | c :: cs, x, h, hx, _ => by
    obtain ⟨hb, hpos, hone, hfour⟩ := h c List.mem_cons_self
    have hnext : (ExtRat.fin (2 ^ (-12 : ℤ))).le (fp.addf x (c.1.costOn fp c.2)) = true :=
      addf_cost_ge hx (costOn_ge fp hb hpos hone hfour)
    have hpow : (ExtRat.fin 0).le (.fin (2 ^ (-12 : ℤ))) = true := decide_eq_true (two_zpow_pos (-12)).le
    exact foldl_cost_ge cs _ (fun c' hc' => h c' (List.mem_cons_of_mem _ hc')) (ExtRat.le_trans hpow hnext)
      (.inl hnext)

/-- Jobs with positive times on one to four resources each have a positive score. -/
theorem pays_of_pos {w top : Nat} (hfit : fp.ScoresFit w top) {q : Nat} (hq : 1 ≤ q) (hqt : q ≤ top)
    {cs : List (Job × Nat)} (hcs : cs ≠ []) (hw : cs.length ≤ w)
    (h : ∀ c ∈ cs, c.1.Built ∧ 0 < c.1.predictedTimeMillis ∧ 1 ≤ c.2 ∧ c.2 ≤ 4) : Pays fp q cs := by
  have hspan : (ExtRat.fin (2 ^ (-12 : ℤ))).le (spanOf fp cs) = true := foldl_cost_ge cs _ h (by decide) (.inr hcs)
  refine ⟨eq_false_of_ne_true fun hle => ?_, hfit q _ _ hq hqt (List.length_pos_iff.mpr hcs) hw hspan⟩
  exact absurd (of_decide_eq_true (ExtRat.le_trans hspan hle)) (not_le.mpr (two_zpow_pos (-12)))

/-! ## The choice -/

theorem le_selectLoop : ∀ (as : List Allocations) (best : Allocations),
    (fp.float best.score).le (fp.float (selectLoop fp as best).score) = true ∧
      ∀ a ∈ as, (fp.float a.score).le (fp.float (selectLoop fp as best).score) = true
  | [], best => ⟨ExtRat.le_refl (fp.float_ne_nan _), fun a ha => by cases ha⟩
  | b :: as, best => by
    rw [selectLoop]
    split
    · rename_i hle
      obtain ⟨h1, h2⟩ := le_selectLoop as b
      refine ⟨ExtRat.le_trans hle h1, fun a ha => ?_⟩
      rcases List.mem_cons.mp ha with rfl | ha
      · exact h1
      · exact h2 a ha
    · rename_i hnot
      obtain ⟨h1, h2⟩ := le_selectLoop as best
      refine ⟨h1, fun a ha => ?_⟩
      rcases List.mem_cons.mp ha with rfl | ha
      · exact ExtRat.le_trans (ExtRat.le_of_not_le (fp.float_ne_nan _) (fp.float_ne_nan _) hnot) h1
      · exact h2 a ha

theorem selectLoop_concat (p : Allocations) : ∀ (as : List Allocations) (best : Allocations),
    selectLoop fp (as ++ [p]) best =
      if (fp.float (selectLoop fp as best).score).le (fp.float p.score) then p else selectLoop fp as best
  | [], _ => rfl
  | _ :: as, _ => selectLoop_concat p as _

/-- No candidate scores more than the chosen one. -/
theorem le_selected {as : List Allocations} {a : Allocations} (h : selectMaxScore fp as = some a) :
    ∀ b ∈ as, (fp.float b.score).le (fp.float a.score) = true := by
  cases as with
  | nil => cases h
  | cons b as =>
    cases h
    exact (le_selectLoop (b :: as) b).2

/-- If a candidate has a positive score, so has the chosen one. -/
theorem selected_pos {as : List Allocations} {a : Allocations} (h : selectMaxScore fp as = some a) {b : Allocations}
    (hb : b ∈ as) (hpos : 0 < b.score) : 0 < a.score :=
  Arith.float_pos_iff.mp (ExtRat.lt_of_lt_of_le (Arith.float_pos_iff.mpr hpos) (le_selected h b hb))

theorem selected_mem {as : List Allocations} {a : Allocations} (h : selectMaxScore fp as = some a) : a ∈ as := by
  cases as with
  | nil => cases h
  | cons b as =>
    cases h
    exact selectLoop_first_mem b as

/-- The last candidate is chosen unless an earlier one scores more. -/
theorem selected_last {as : List Allocations} {p a : Allocations} (has : as ≠ [])
    (h : selectMaxScore fp (as ++ [p]) = some a) :
    a = p ∨ (a ∈ as ∧ (fp.float p.score).lt (fp.float a.score) = true) := by
  cases as with
  | nil => exact absurd rfl has
  | cons b as =>
    have hsel : selectLoop fp ((b :: as) ++ [p]) b = a := Option.some.inj h
    rw [selectLoop_concat] at hsel
    split at hsel
    · exact .inl hsel.symm
    · rename_i hlt
      subst hsel
      exact .inr ⟨selectLoop_first_mem b as,
        (ExtRat.lt_iff_not_le (fp.float_ne_nan _) (fp.float_ne_nan _)).mpr hlt⟩

/-! ## Jobs of one to four resources -/

/-- The lengths the greedy loop grants to `n` jobs of at most four resources, if it needs more than `d` in the pool. -/
def builtLens (d : Nat) : Nat → Nat → List Nat
  | 0, _ => []
  | n + 1, p => if d < p then (if 4 ≤ p then 4 else 0) :: builtLens d n (if 4 ≤ p then p - 4 else p) else []

theorem lens_greedyGrants {better : Job → Job → Bool} {demand : Job → Nat} {d : Nat} (hb : StrictWeak better) :
    ∀ (n : Nat) (live : List Job) (q : List Resource), live.length = n → (∀ j ∈ live, demand j = d ∧ j.max = 4) →
      lens (greedyGrants better demand n live q).1 = builtLens d n q.length
  | 0, _, _, _, _ => rfl
  | n + 1, live, q, hn, hj => by
    have hl : live ≠ [] := fun h => by simp [h] at hn
    obtain ⟨j, hget, hlt, -, -⟩ := bestIdx_spec hb hl
    obtain ⟨hd, hmax⟩ := hj j (List.mem_of_getElem? hget)
    have hrec := lens_greedyGrants hb n (live.eraseIdx (bestIdx better live)) (left j.max j.max q)
      (by rw [List.length_eraseIdx_of_lt hlt]; omega) fun i hi => hj i (List.mem_of_mem_eraseIdx hi)
    rw [length_left, hmax] at hrec
    have htaken : (taken 4 4 q).length = if 4 ≤ q.length then 4 else 0 := by
      rw [length_taken]
      split
      · exact Nat.min_eq_left (by omega)
      · rfl
    simp only [greedyGrants, hget, builtLens, hd, hmax]
    split
    · simpa [lens, htaken] using hrec
    · rfl

/-- A pool of fewer than four serves nobody. -/
theorem builtLens_small (d : Nat) {p : Nat} (hp : p < 4) : ∀ n, (builtLens d n p).filter (fun l => 0 < l) = []
  | 0 => rfl
  | n + 1 => by
    have h4 : ¬4 ≤ p := by omega
    unfold builtLens
    split
    · simpa [h4] using builtLens_small d hp n
    · rfl

/-- Pairs without resources come from a pool of two or three, and then as many jobs are served as with a demand of
four. -/
theorem builtLens_zero : ∀ (n p : Nat), 0 ∈ builtLens 1 n p →
    2 ≤ p ∧ ((builtLens 1 n p).filter fun l => 0 < l).length = (builtLens 4 n p).length
  | 0, _, h => by cases h
  | n + 1, p, h => by
    unfold builtLens at h
    by_cases hp : 1 < p
    · rw [if_pos hp] at h
      by_cases h4 : 4 ≤ p
      · simp only [if_pos h4, List.mem_cons, OfNat.zero_ne_ofNat, false_or] at h
        obtain ⟨h2, hlen⟩ := builtLens_zero n (p - 4) h
        have h4' : 4 < p := by omega
        refine ⟨by omega, ?_⟩
        rw [builtLens, builtLens, if_pos hp, if_pos h4', if_pos h4, if_pos h4]
        simpa using hlen
      · refine ⟨by omega, ?_⟩
        rw [builtLens_small 1 (by omega), builtLens, if_neg (by omega)]
    · rw [if_neg hp] at h
      cases h

theorem builtLens_four : ∀ (n p : Nat), ∀ l ∈ builtLens 4 n p, 0 < l
  | 0, _, l, h => by cases h
  | n + 1, p, l, h => by
    unfold builtLens at h
    split at h
    · rename_i hp
      rw [if_pos (by omega), if_pos (by omega)] at h
      rcases List.mem_cons.mp h with rfl | h
      · decide
      · exact builtLens_four n _ l h
    · cases h

section Built

variable (sort : StdSort Job) {rq : List Job} {window : Nat} (hnd : rq.Nodup) (hbuilt : ∀ j ∈ rq, j.Built)
  (hrq : rq ≠ []) (hw : 1 ≤ window)
include hnd hbuilt hrq hw

/-- The lengths `SJTF` and `Priority` grant. -/
theorem lens_sjtf {p p' : List Resource} {a : Allocations} (h : (sjtf fp sort rq window).run p = .done a p') :
    lens a.jobs = builtLens 1 (rq.take window).length p.length := by
  rw [sjtf_eq_greedy sort hnd hrq hw, run_greedy] at h
  cases h
  have hperm := sort.perm (sortByTime fp) (rq.take window)
  rw [← hperm.length_eq]
  refine lens_greedyGrants strictWeak_sortByMin _ _ p rfl fun j hj => ?_
  have hb := hbuilt j (List.mem_of_mem_take (hperm.mem_iff.mp hj))
  exact ⟨hb.min_eq, hb.max_eq⟩

theorem lens_priority {p p' : List Resource} {a : Allocations} (h : (priority sort rq window).run p = .done a p') :
    lens a.jobs = builtLens 4 (rq.take window).length p.length := by
  rw [priority_eq_greedy sort hnd hrq hw, run_greedy] at h
  cases h
  have hperm := sort.perm sortByPriority (rq.take window)
  rw [← hperm.length_eq]
  refine lens_greedyGrants strictWeak_higherPriority _ _ p rfl fun j hj => ?_
  have hb := hbuilt j (List.mem_of_mem_take (hperm.mem_iff.mp hj))
  exact ⟨hb.max_eq, hb.max_eq⟩

omit hbuilt in
/-- The jobs of a candidate are in the queue. -/
theorem mem_of_run {alg : Alg} (halg : alg ∈ algVec fp sort) {p p' : List Resource} {a : Allocations}
    (h : (alg rq window).run p = .done a p') : ∀ pr ∈ a.jobs, pr.1 ∈ rq := by
  obtain ⟨a', q, hrun, -, hsub⟩ := (sat_alg sort hnd hrq hw halg p).run
  rw [h] at hrun
  cases hrun
  exact fun pr hpr => List.mem_of_mem_take (hsub.subset (List.mem_map_of_mem hpr))

end Built

theorem ne_nil_of_lens {ps : List JobResPair} (h : ∀ l ∈ lens ps, 0 < l) : ∀ p ∈ ps, p.2 ≠ [] := fun p hp =>
  List.length_pos_iff.mp (h p.2.length (List.mem_map_of_mem hp))

end Hydrogen
