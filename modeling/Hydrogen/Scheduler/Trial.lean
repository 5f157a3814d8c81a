import Hydrogen.Scheduler.Greedy

/-!
# Trial schedules move no resource

`ManagedMode` runs each algorithm on the pool and returns what it took. Whatever other threads return to the pool in
the meantime, no resource is lost or made: an algorithm leaves in the pool what it did not put into its allocation
(`sat_alg`), a trial leaves the whole pool (`sat_trials`), and the allocation chosen is made of resources of the pool
and of distinct jobs of the window (`sat_managedMode`).
-/

namespace Hydrogen

open StdAlgorithm

/-! ## One algorithm -/

theorem sat_allocateLoop : ∀ (maxRes : Nat) (acc q : List Resource),
    (allocateLoop maxRes acc).Sat (fun x l q' => (q' ++ l).Perm (q ++ acc ++ x)) q
  | 0, acc, q => Prog.Sat.pure fun x => List.perm_iff_count.mpr fun r => by
      simp only [List.count_append]; omega
  | maxRes + 1, acc, q => by
    refine Prog.Sat.bind (Prog.sat_getSize.mono ?_)
    rintro x n q' ⟨y, z, rfl, rfl, rfl⟩
    split
    · rename_i hpos
      have hne : q ++ (y ++ z) ≠ [] := fun h => by
        rw [← List.append_assoc] at h
        rw [(List.append_eq_nil_iff.mp h).1] at hpos
        simp at hpos
      refine Prog.Sat.bind ((Prog.sat_waitPopBack hne).mono ?_)
      rintro x' r q' ⟨y', z', w, rfl, hw, rfl⟩
      refine (sat_allocateLoop maxRes (acc ++ [r]) (w ++ z')).mono fun x'' l q'' h => ?_
      refine List.perm_iff_count.mpr fun s => ?_
      have h1 := h.count_eq s
      have h2 := congrArg (List.count s) hw
      simp only [List.count_append] at h1 h2 ⊢
      omega
    · exact Prog.Sat.pure fun x => List.perm_iff_count.mpr fun r => by
        simp only [List.count_append]; omega

/-- What is allocated leaves the pool. -/
theorem sat_allocate (maxRes minRes : Nat) (q : List Resource) :
    (allocate maxRes minRes).Sat (fun x l q' => (q' ++ l).Perm (q ++ x)) q := by
  refine Prog.Sat.bind (Prog.sat_getSize.mono ?_)
  rintro x n q' ⟨y, z, rfl, rfl, rfl⟩
  split
  · refine (sat_allocateLoop maxRes [] _).mono fun x' l q'' h => ?_
    simpa only [List.append_nil, List.append_assoc] using h
  · exact Prog.Sat.pure fun x => by simp

/-- The pool and the allocation together are what they were, with what the others returned. -/
def Keeps (q : List Resource) (a : Allocations) (x : List Resource) (a' : Allocations) (q' : List Resource) : Prop :=
  (q' ++ a'.resources).Perm (q ++ a.resources ++ x)

theorem Keeps.refl (q : List Resource) (a : Allocations) (x : List Resource) : Keeps q a x a (q ++ x) :=
  List.perm_iff_count.mpr fun r => by simp only [List.count_append]; omega

/-- Giving a job a list taken from the pool, then keeping. -/
theorem Keeps.add {q q' q'' x x' l : List Resource} {a a' : Allocations} {j : Job} (hl : (q' ++ l).Perm (q ++ x))
    (h : Keeps q' (a.addJobResourcePair j l) x' a' q'') : Keeps q a (x ++ x') a' q'' :=
  List.perm_iff_count.mpr fun r => by
    have h1 := hl.count_eq r
    have h2 := h.count_eq r
    simp only [Allocations.resources_add, List.count_append] at h1 h2 ⊢
    omega

theorem sat_fcfsLoop (maxOf minOf : Job → Nat) : ∀ (js : List Job) (a : Allocations) (q : List Resource),
    (fcfsLoop maxOf minOf js a).Sat
      (fun x a' q' => Keeps q a x a' q' ∧ ∃ js', a'.jobList = a.jobList ++ js' ∧ js'.Sublist js) q
  | [], a, q => Prog.Sat.pure fun x => ⟨.refl q a x, [], by simp, .slnil⟩
  | j :: js, a, q => by
    refine Prog.Sat.bind ((sat_allocate _ _ q).mono fun x l q' hl => ?_)
    split
    · refine (sat_fcfsLoop maxOf minOf js _ q').mono fun x' a' q'' h => ?_
      obtain ⟨hk, js', hj, hsub⟩ := h
      exact ⟨hk.add hl, j :: js', by simp [hj], hsub.cons_cons j⟩
    · rename_i hlen
      have hnil : l = [] := List.eq_nil_of_length_eq_zero (by omega)
      subst hnil
      refine Prog.Sat.pure fun x' => ⟨?_, [], by simp, List.nil_sublist _⟩
      refine List.perm_iff_count.mpr fun r => ?_
      have h1 := hl.count_eq r
      simp only [List.count_append, List.count_nil] at h1 ⊢
      omega

theorem sat_greedy (better : Job → Job → Bool) (demand : Job → Nat) :
    ∀ (n : Nat) (live : List Job) (a : Allocations) (q : List Resource), (greedy better demand n live a).Sat
      (fun x a' q' => Keeps q a x a' q' ∧ ∃ js', a'.jobList = a.jobList ++ js' ∧ js'.Subperm live) q
  | 0, live, a, q => by
    refine Prog.Sat.bind (Prog.sat_getSize.mono ?_)
    rintro x n q' ⟨y, z, rfl, rfl, rfl⟩
    refine Prog.Sat.pure fun x' => ⟨?_, [], by simp, List.nil_subperm⟩
    simpa only [List.append_assoc] using Keeps.refl q a (y ++ z ++ x')
  | n + 1, live, a, q => by
    unfold greedy
    split
    · exact Prog.Sat.pure fun x => ⟨.refl q a x, [], by simp, List.nil_subperm⟩
    · rename_i j hj
      refine Prog.Sat.bind (Prog.sat_getSize.mono ?_)
      rintro x n' q' ⟨y, z, rfl, rfl, rfl⟩
      split
      · refine Prog.Sat.bind ((sat_allocate _ _ _).mono fun x' l q' hl => ?_)
        refine (sat_greedy better demand n _ _ q').mono fun x'' a' q'' h => ?_
        obtain ⟨hk, js', hjs, hsub⟩ := h
        rw [List.append_assoc] at hl
        refine ⟨by simpa only [List.append_assoc] using hk.add hl, j :: js', by simp [hjs], ?_⟩
        obtain ⟨hlt, rfl⟩ := List.getElem?_eq_some_iff.mp hj
        exact ((List.subperm_cons _).mpr hsub).trans (List.getElem_cons_eraseIdx_perm hlt).subperm
      · refine Prog.Sat.pure fun x' => ⟨?_, [], by simp, List.nil_subperm⟩
        simpa only [List.append_assoc] using Keeps.refl q a (y ++ z ++ x')

/-! ## The choice -/

variable {fp : Arith}

theorem selectLoop_mem : ∀ (as : List Allocations) (best : Allocations),
    selectLoop fp as best = best ∨ selectLoop fp as best ∈ as
  | [], _ => .inl rfl
  | a :: as, best => by
    rcases selectLoop_mem as (if (fp.float best.score).le (fp.float a.score) then a else best) with h | h
    · rw [selectLoop, h]
      split
      · exact .inr List.mem_cons_self
      · exact .inl rfl
    · exact .inr (List.mem_cons_of_mem _ h)

theorem selectLoop_first_mem (b : Allocations) (as : List Allocations) : selectLoop fp (b :: as) b ∈ b :: as := by
  rcases selectLoop_mem (b :: as) b with h | h
  · rw [h]
    exact List.mem_cons_self
  · exact h

theorem selectMaxScore_mem {as : List Allocations} (h : as ≠ []) : ∃ a ∈ as, selectMaxScore fp as = some a := by
  cases as with
  | nil => exact absurd rfl h
  | cons b as => exact ⟨selectLoop fp (b :: as) b, selectLoop_first_mem b as, rfl⟩

@[simp] theorem jobs_score (strat : Strategy) (n : Nat) (a : Allocations) : (score fp strat n a).jobs = a.jobs := by
  cases strat with
  | completionTime => simp only [score]; split <;> rfl
  | fairness => rfl

/-- What a candidate of managed mode is, for the pool `p`. -/
def Candidate (rq : List Job) (window : Nat) (p : List Resource) (a : Allocations) : Prop :=
  a.resources.Subperm p ∧ a.jobList.Subperm (rq.take window)

theorem Candidate.mono {rq : List Job} {window : Nat} {p p' : List Resource} {a : Allocations}
    (h : Candidate rq window p a) (hp : p.Subperm p') : Candidate rq window p' a :=
  ⟨h.1.trans hp, h.2⟩

theorem Candidate.score {rq : List Job} {window : Nat} {p : List Resource} {a : Allocations}
    (h : Candidate rq window p a) (strat : Strategy) (n : Nat) : Candidate rq window p (score fp strat n a) := by
  simpa only [Candidate, Allocations.resources, Allocations.jobList, jobs_score] using h

/-! ## All algorithms in turn -/

section Trials

variable (sort : StdSort Job) {rq : List Job} {window : Nat} (hnd : rq.Nodup) (hrq : rq ≠ []) (hw : 1 ≤ window)
include hnd hrq hw

/-- **One algorithm**: what it does not allocate stays in the pool, and it allocates to jobs of the window. -/
theorem sat_alg {alg : Alg} (h : alg ∈ algVec fp sort) (q : List Resource) :
    (alg rq window).Sat (fun x a q' => (q' ++ a.resources).Perm (q ++ x) ∧ a.jobList.Subperm (rq.take window)) q := by
  have hfcfs : ∀ maxOf minOf, (fcfsLoop maxOf minOf (rq.take window) .empty).Sat
      (fun x a q' => (q' ++ a.resources).Perm (q ++ x) ∧ a.jobList.Subperm (rq.take window)) q := fun maxOf minOf =>
    (sat_fcfsLoop maxOf minOf _ _ q).mono fun x a q' h => by
      obtain ⟨hk, js, hj, hsub⟩ := h
      exact ⟨by simpa [Keeps] using hk, by rw [hj]; simpa using hsub.subperm⟩
  have hgreedy : ∀ better demand lt, (greedy better demand (sort.sort lt (rq.take window)).length
      (sort.sort lt (rq.take window)) .empty).Sat
      (fun x a q' => (q' ++ a.resources).Perm (q ++ x) ∧ a.jobList.Subperm (rq.take window)) q :=
    fun better demand lt => (sat_greedy better demand _ _ _ q).mono fun x a q' h => by
      obtain ⟨hk, js, hj, hsub⟩ := h
      exact ⟨by simpa [Keeps] using hk, by rw [hj]; simpa using hsub.trans (sort.perm lt _).subperm⟩
  simp only [algVec, List.mem_cons, List.not_mem_nil, or_false] at h
  rcases h with rfl | rfl | rfl | rfl | rfl
  · exact hfcfs _ _
  · exact hfcfs _ _
  · exact hfcfs _ _
  · rw [sjtf_eq_greedy sort hnd hrq hw]; exact hgreedy _ _ _
  · rw [priority_eq_greedy sort hnd hrq hw]; exact hgreedy _ _ _

/-- A schedule on a pool that is not empty is one of the algorithm. -/
theorem sat_schedule {alg : Alg} (h : alg ∈ algVec fp sort) (q : List Resource) (hq : q ≠ []) :
    (schedule alg rq window).Sat (fun x o q' => ∃ a, o = some a ∧ (q' ++ a.resources).Perm (q ++ x) ∧
      a.jobList.Subperm (rq.take window)) q := by
  have hpos : 0 < rq.length := List.length_pos_iff.mpr hrq
  refine Prog.Sat.bind (Prog.sat_getSize.mono ?_)
  rintro x n q' ⟨y, z, rfl, rfl, rfl⟩
  have hsize : (q ++ y).length > 0 := by
    have := List.length_pos_iff.mpr hq
    rw [List.length_append]
    omega
  rw [if_pos ⟨hsize, hpos⟩]
  refine Prog.Sat.bind ((sat_alg sort hnd hrq hw h _).mono fun x' a q' ha => ?_)
  refine Prog.Sat.pure fun x'' => ⟨a, rfl, List.perm_iff_count.mpr fun r => ?_, ha.2⟩
  have h1 := ha.1.count_eq r
  simp only [List.count_append] at h1 ⊢
  omega

/-- **Trials leave the pool**: all of it is there again, with what the others returned. -/
theorem sat_trials : ∀ (algs : List Alg), (∀ alg ∈ algs, alg ∈ algVec fp sort) → ∀ q : List Resource, q ≠ [] →
    (trials rq window algs).Sat
      (fun x as q' => q'.Perm (q ++ x) ∧ as.length = algs.length ∧ ∀ a ∈ as, Candidate rq window (q ++ x) a) q
  | [], _, q, _ => Prog.Sat.pure fun x => ⟨.refl _, rfl, fun a ha => by cases ha⟩
  | alg :: algs, halg, q, hq => by
    refine Prog.Sat.bind ((sat_schedule sort hnd hrq hw (halg alg List.mem_cons_self) q hq).mono ?_)
    rintro x _ q' ⟨a, rfl, hperm, hjobs⟩
    refine Prog.Sat.bind ((Prog.sat_pushAll _ _).mono fun x₁ _ q₁ hback => ?_)
    -- the pool is whole again, and not empty, when the next trial starts
    have hwhole : q₁.Perm (q ++ x ++ x₁) := hback.trans (hperm.append_right x₁)
    have hne : q₁ ≠ [] := fun h => by
      rw [h] at hwhole
      have := hwhole.symm.eq_nil
      simp [hq] at this
    refine Prog.Sat.bind ((sat_trials algs (fun b hb => halg b (List.mem_cons_of_mem _ hb)) q₁ hne).mono ?_)
    rintro x₂ as q₂ ⟨hrest, hlen, hall⟩
    have hpool : (q₁ ++ x₂).Perm (q ++ x ++ x₁ ++ x₂) := hwhole.append_right x₂
    refine Prog.Sat.pure fun x₃ => ⟨?_, by simp [hlen], ?_⟩
    · simpa only [List.append_assoc] using (hrest.trans hpool).append_right x₃
    · intro b hb
      rcases List.mem_cons.mp hb with rfl | hb
      · refine ⟨?_, hjobs⟩
        have hmine : b.resources.Subperm (q ++ x) := (List.sublist_append_right _ _).subperm.trans hperm.subperm
        rw [← List.append_assoc]
        exact hmine.trans (List.sublist_append_left _ _).subperm
      · refine (hall b hb).mono (hpool.subperm.trans ?_)
        simpa only [List.append_assoc] using (List.sublist_append_left (q ++ x ++ x₁ ++ x₂) x₃).subperm

variable (fp) in
/-- **Managed mode** leaves the pool, and chooses resources of the pool for distinct jobs of the window. -/
theorem sat_managedMode (strat : Strategy) (q : List Resource) (hq : q ≠ []) :
    (managedMode fp sort strat rq window).Sat
      (fun x a q' => q'.Perm (q ++ x) ∧ Candidate rq window (q ++ x) a) q := by
  refine Prog.Sat.bind ((sat_trials sort hnd hrq hw _ (fun _ h => h) q hq).mono ?_)
  rintro x as q' ⟨hperm, hlen, hall⟩
  have hne : as.map (Hydrogen.score fp strat rq.length) ≠ [] := fun h => by
    rw [List.map_eq_nil_iff.mp h] at hlen
    cases hlen
  obtain ⟨b, hb, hsel⟩ := selectMaxScore_mem hne
  obtain ⟨a, ha, rfl⟩ := List.mem_map.mp hb
  rw [hsel]
  refine Prog.Sat.pure fun y => ⟨by simpa only [List.append_assoc] using hperm.append_right y, ?_⟩
  refine ((hall a ha).score strat _).mono ?_
  rw [← List.append_assoc]
  exact (List.sublist_append_left _ _).subperm

end Trials

/-! ## On the scheduler -/

/-- The part of the scheduler that managed mode works on. -/
structure Scheduler where
  readyQ : List Job
  resPool : List Resource
  window : Nat
  strat : Strategy

/-- A call of `ManagedMode` with nobody else at the pool; none if it does not return. -/
def Scheduler.managedMode (fp : Arith) (sort : StdSort Job) (s : Scheduler) : Option (Allocations × Scheduler) :=
  match (Hydrogen.managedMode fp sort s.strat s.readyQ s.window).run s.resPool with
  | .done a resPool => some (a, { s with resPool })
  | _ => none

/-- Managed mode returns, leaves the ready queue and, up to order, the pool, and has chosen distinct jobs of the window
and disjoint lists of resources of the pool. -/
def Scheduler.TrialOnly (fp : Arith) (sort : StdSort Job) (s : Scheduler) : Prop :=
  ∃ a s', s.managedMode fp sort = some (a, s') ∧ s'.readyQ = s.readyQ ∧ s'.resPool.Perm s.resPool ∧ a.jobList.Nodup ∧
    (∀ j ∈ a.jobList, j ∈ s.readyQ.take s.window) ∧ (∀ p ∈ a.jobs, p.2.Subperm s.resPool) ∧
    a.jobs.Pairwise fun p p' => p.2.Disjoint p'.2

theorem nodup_of_subperm {α : Type} {l l' : List α} (h : l.Subperm l') (hnd : l'.Nodup) : l.Nodup := by
  obtain ⟨l₁, hperm, hsub⟩ := h
  exact hperm.nodup_iff.mp (hnd.sublist hsub)

theorem nodup_map_of_subperm {α β : Type} {l l' : List α} (f : α → β) (h : l.Subperm l') (hnd : (l'.map f).Nodup) :
    (l.map f).Nodup := by
  obtain ⟨l₁, hperm, hsub⟩ := h
  exact (hperm.map f).nodup_iff.mp (hnd.sublist (hsub.map f))

/-- Lists that together are part of a list without duplicates are disjoint parts of it. -/
theorem pairs_disjoint {pool : List Resource} : ∀ {ps : List JobResPair}, (ps.flatMap Prod.snd).Subperm pool →
    pool.Nodup → (∀ p ∈ ps, p.2.Subperm pool) ∧ ps.Pairwise fun p p' => p.2.Disjoint p'.2
  | [], _, _ => ⟨by simp, by simp⟩
  | p :: ps, h, hnd => by
    rw [List.flatMap_cons] at h
    obtain ⟨hsub, hpw⟩ := pairs_disjoint ((List.sublist_append_right _ _).subperm.trans h) hnd
    have hdis := (List.nodup_append.mp (nodup_of_subperm h hnd)).2.2
    refine ⟨fun p' hp' => ?_, List.pairwise_cons.mpr ⟨fun p' hp' r hr hr' => ?_, hpw⟩⟩
    · rcases List.mem_cons.mp hp' with rfl | hp'
      · exact (List.sublist_append_left _ _).subperm.trans h
      · exact hsub p' hp'
    · exact hdis r hr r (List.mem_flatMap.mpr ⟨p', hp', hr'⟩) rfl

/-- **Trial scheduling is free of side effects** as soon as the window holds a job. -/
theorem managedMode_trialOnly (fp : Arith) (sort : StdSort Job) (s : Scheduler) (hnd : s.readyQ.Nodup)
    (hrq : s.readyQ ≠ []) (hw : 1 ≤ s.window) (hpool : (rids s.resPool).Nodup) (hp : s.resPool ≠ []) :
    s.TrialOnly fp sort := by
  obtain ⟨a, q, hrun, hperm, hres, hjobs⟩ := (sat_managedMode fp sort hnd hrq hw s.strat s.resPool hp).run
  rw [List.append_nil] at hperm hres
  obtain ⟨hsub, hdis⟩ := pairs_disjoint hres hpool.of_map
  refine ⟨a, { s with resPool := q }, by simp [Scheduler.managedMode, hrun], rfl, hperm, ?_, ?_, hsub, hdis⟩
  · exact nodup_of_subperm hjobs (hnd.sublist (List.take_sublist _ _))
  · exact fun j hj => hjobs.subset hj

/-- A scheduler with two waiting jobs and three free resources. -/
def twoJobs (window : Nat) : Scheduler where
  readyQ := [Job.ofRequest msgEmpty 2, Job.ofRequest msgEmpty 1]
  resPool := [⟨1, 8111, "localhost", "DFE"⟩, ⟨2, 8111, "localhost", "DFE"⟩, ⟨3, 8111, "localhost", "DFE"⟩]
  window := window
  strat := .completionTime

theorem managedMode_trialOnly_twoJobs : (twoJobs 5).TrialOnly .ieee .insertion :=
  managedMode_trialOnly .ieee .insertion (twoJobs 5) (by decide) (by decide) (by decide) (by decide) (by decide)

/-- With an empty window `SJTF` dereferences the end of its deque before it looks whether there is anything in it. -/
theorem managedMode_empty_window : ¬∀ (fp : Arith) (sort : StdSort Job) (s : Scheduler), s.readyQ.Nodup → s.readyQ ≠ [] →
    (rids s.resPool).Nodup → s.resPool ≠ [] → s.TrialOnly fp sort := by
  intro h
  obtain ⟨a, s', hrun, -⟩ := h .ieee .insertion (twoJobs 0) (by decide) (by decide) (by decide) (by decide)
  have : (twoJobs 0).managedMode .ieee .insertion = none := by rfl
  rw [this] at hrun
  cases hrun

end Hydrogen
