import Hydrogen.Scheduler.Resources

/-!
# Rounds of the scheduler

A round of `schedLoop` goes from the two waits through managed mode and the elasticity step to the last job handed to
the run queue. Other threads return resources between any two of its operations, so the pool can only be larger than a
round expects. Two facts hold of every round, whatever the interleaving:

* it is never blocked and never faults: `schedLoop` waits only where it is meant to, before a round
  (`schedLoop_blocks_iff`). The `wait_pop_back` of `deprovisionResource` finds a resource, because what was chosen is
  still in the pool;
* if every request has a positive predicted time, and the scores of the waiting jobs fit an `int`, it serves a job
  (`round_serves`): `FCFSAsManyAsPos` always has a job to show, so the candidate chosen scores more than zero.
-/

namespace Hydrogen

open StdAlgorithm

/-! ## A trial that serves a job -/

/-- The loop of `allocate` takes at least what was in the pool when it began, up to its bound. -/
theorem sat_allocateLoop_length : ∀ (maxRes : Nat) (acc q : List Resource), (allocateLoop maxRes acc).Sat
    (fun _ l _ => acc.length + min maxRes q.length ≤ l.length ∧ l.length ≤ acc.length + maxRes) q
  | 0, acc, q => Prog.Sat.pure fun x => by simp
  | maxRes + 1, acc, q => by
    refine Prog.Sat.bind (Prog.sat_getSize.mono ?_)
    rintro x n q' ⟨y, z, rfl, rfl, rfl⟩
    split
    · rename_i hpos
      have hne : q ++ (y ++ z) ≠ [] := fun h => by
        rw [← List.append_assoc] at h
        rw [(List.append_eq_nil_iff.mp h).1] at hpos
        simp at hpos
      refine Prog.Sat.bind ((Prog.sat_waitPopBack hne).mono ?_)
      rintro x' r q' ⟨y', z', w, rfl, hw, rfl⟩
      refine (sat_allocateLoop_length maxRes (acc ++ [r]) (w ++ z')).mono fun x'' l q'' h => ?_
      have hlen := congrArg List.length hw
      simp only [List.length_append, List.length_cons, List.length_nil] at h hlen ⊢
      omega
    · rename_i hzero
      have hnil : q.length = 0 := by
        rw [List.length_append] at hzero
        omega
      exact Prog.Sat.pure fun x => by simp [hnil]

theorem sat_allocate_le (maxRes minRes : Nat) (q : List Resource) :
    (allocate maxRes minRes).Sat (fun _ l _ => l.length ≤ maxRes) q := by
  refine Prog.Sat.bind (Prog.sat_getSize.mono ?_)
  rintro x n q' -
  split
  · refine (sat_allocateLoop_length maxRes [] q').mono fun x' l q'' hl => ?_
    simpa using hl.2
  · exact Prog.Sat.pure fun x => Nat.zero_le _

theorem sat_allocate_length (maxRes : Nat) {minRes : Nat} {q : List Resource} (h : minRes ≤ q.length) :
    (allocate maxRes minRes).Sat (fun _ l _ => min maxRes q.length ≤ l.length) q := by
  refine Prog.Sat.bind (Prog.sat_getSize.mono ?_)
  rintro x n q' ⟨y, z, rfl, rfl, rfl⟩
  rw [if_pos (by rw [List.length_append]; omega)]
  refine (sat_allocateLoop_length maxRes [] _).mono fun x' l q'' hl => ?_
  have hlow := hl.1
  simp only [List.length_append, List.length_nil] at hlow ⊢
  omega

/-- The job has a resource, and no more than it asks for. -/
def JobResPair.Granted (p : JobResPair) : Prop := p.2 ≠ [] ∧ p.2.length ≤ p.1.max

/-- The FCFS loop adds such pairs behind those it has. -/
theorem sat_fcfsLoop_granted (minOf : Job → Nat) : ∀ (js : List Job) (a : Allocations) (q : List Resource),
    (∀ p ∈ a.jobs, JobResPair.Granted p) → (fcfsLoop Job.max minOf js a).Sat
      (fun _ a' _ => a.jobs.length ≤ a'.jobs.length ∧ ∀ p ∈ a'.jobs, JobResPair.Granted p) q
  | [], a, q, h => Prog.Sat.pure fun x => ⟨le_rfl, h⟩
  | j :: js, a, q, h => by
    refine Prog.Sat.bind ((sat_allocate_le _ _ q).mono fun x l q' hmax => ?_)
    split
    · rename_i hlen
      refine (sat_fcfsLoop_granted minOf js _ q' fun p hp => ?_).mono fun x' a' q'' ha => ⟨?_, ha.2⟩
      · rcases List.mem_append.mp hp with hp | hp
        · exact h p hp
        · obtain rfl := List.mem_singleton.mp hp
          exact ⟨List.length_pos_iff.mp hlen, hmax⟩
      · have := ha.1
        simp only [Allocations.addJobResourcePair, List.length_append] at this
        omega
    · exact Prog.Sat.pure fun x => ⟨le_rfl, h⟩

/-- The candidate has jobs, and each has a resource. -/
def Allocations.Serving (a : Allocations) : Prop := a.jobs ≠ [] ∧ ∀ p ∈ a.jobs, JobResPair.Granted p

/-- `FCFSAsManyAsPos` serves the job at the front of the queue if that asks for one resource at least. -/
theorem sat_fcfsAsManyAsPos {j : Job} {rq : List Job} {window : Nat} (hw : 1 ≤ window) (hmin : j.min = 1)
    {q : List Resource} (hq : q ≠ []) :
    (fcfsAsManyAsPos (j :: rq) window).Sat (fun _ a _ => a.Serving) q := by
  have hpos := List.length_pos_iff.mpr hq
  have hmax := j.min_le_max
  show (fcfsLoop Job.max Job.min ((j :: rq).take window) .empty).Sat _ q
  rw [List.take_cons hw]
  refine Prog.Sat.bind (((sat_allocate_length j.max (by omega)).and (sat_allocate_le j.max j.min q)).mono ?_)
  rintro x l q' ⟨hl, hmost⟩
  have hlen : l.length > 0 := by omega
  rw [if_pos hlen]
  refine (sat_fcfsLoop_granted Job.min _ _ q' fun p hp => ?_).mono fun x' a q'' ha => ⟨?_, ha.2⟩
  · obtain rfl := List.mem_singleton.mp hp
    exact ⟨List.length_pos_iff.mp hlen, hmost⟩
  · exact List.length_pos_iff.mp ha.1

/-! ## All trials -/

section Trials

variable (fp : Arith) (sort : StdSort Job) {rq : List Job} {window : Nat} (hnd : rq.Nodup) (hrq : rq ≠ [])
  (hw : 1 ≤ window)
include hnd hrq hw

/-- What an algorithm gives on every pool that is not empty is among the candidates. -/
theorem sat_trials_mem {G : Allocations → Prop} {alg : Alg}
    (hG : ∀ q : List Resource, q ≠ [] → (alg rq window).Sat (fun _ a _ => G a) q) :
    ∀ algs : List Alg, (∀ b ∈ algs, b ∈ algVec fp sort) → alg ∈ algs → ∀ q : List Resource, q ≠ [] →
      (trials rq window algs).Sat (fun _ as _ => ∃ a ∈ as, G a) q
  | [], _, hmem, _, _ => by cases hmem
  | b :: algs, halg, hmem, q, hq => by
    -- the trial of `b` leaves a pool that is not empty
    have hb := sat_schedule sort hnd hrq hw (halg b List.mem_cons_self) q hq
    have hwhole : ∀ {x x₁ q' q₁ : List Resource} {a : Allocations}, (q' ++ a.resources).Perm (q ++ x) →
        q₁.Perm (q' ++ a.resources ++ x₁) → q₁ ≠ [] := by
      intro x x₁ q' q₁ a hperm hback hnil
      have := hback.trans (hperm.append_right x₁)
      rw [hnil] at this
      simpa [hq] using this.symm.eq_nil
    rcases List.mem_cons.mp hmem with rfl | hmem
    · have hown : (schedule alg rq window).Sat (fun _ o _ => ∀ a, o = some a → G a) q := by
        refine Prog.Sat.bind (Prog.sat_getSize.mono ?_)
        rintro x n q' ⟨y, z, rfl, rfl, rfl⟩
        split
        · refine Prog.Sat.bind ((hG _ (by simp [hq])).mono fun x' a q' ha => ?_)
          exact Prog.Sat.pure fun _ _ he => by cases he; exact ha
        · exact Prog.Sat.pure fun _ _ he => by cases he
      refine Prog.Sat.bind ((hb.and hown).mono ?_)
      rintro x _ q' ⟨⟨a, rfl, hperm, -⟩, ha⟩
      refine Prog.Sat.bind ((Prog.sat_pushAll _ _).mono fun x₁ _ q₁ hback => ?_)
      refine Prog.Sat.bind ((sat_trials sort hnd hrq hw algs (fun c hc => halg c (List.mem_cons_of_mem _ hc)) q₁
        (hwhole hperm hback)).mono fun x₂ as q₂ _ => ?_)
      exact Prog.Sat.pure fun _ => ⟨a, List.mem_cons_self, ha a rfl⟩
    · refine Prog.Sat.bind (hb.mono ?_)
      rintro x _ q' ⟨a, rfl, hperm, -⟩
      refine Prog.Sat.bind ((Prog.sat_pushAll _ _).mono fun x₁ _ q₁ hback => ?_)
      refine Prog.Sat.bind ((sat_trials_mem hG algs (fun c hc => halg c (List.mem_cons_of_mem _ hc)) hmem q₁
        (hwhole hperm hback)).mono fun x₂ as q₂ has => ?_)
      obtain ⟨c, hc, hgc⟩ := has
      exact Prog.Sat.pure fun _ => ⟨c, List.mem_cons_of_mem _ hc, hgc⟩

/-- With positive times a candidate that serves a job has a positive score, so what is chosen serves one too. -/
theorem sat_managedMode_serves (hbuilt : ∀ j ∈ rq, j.Built) (hpos : ∀ j ∈ rq, 0 < j.predictedTimeMillis)
    (hfit : fp.ScoresFit window rq.length) {q : List Resource} (hq : q ≠ []) :
    (managedMode fp sort .completionTime rq window).Sat (fun _ a _ => 1 ≤ a.noJobs) q := by
  obtain ⟨j, js, rfl⟩ := List.exists_cons_of_ne_nil hrq
  have hamap : ∀ q : List Resource, q ≠ [] →
      (fcfsAsManyAsPos (j :: js) window).Sat (fun _ a _ => a.Serving) q := fun q hq =>
    sat_fcfsAsManyAsPos hw (hbuilt j List.mem_cons_self).min_eq hq
  refine Prog.Sat.bind (((sat_trials sort hnd hrq hw _ (fun _ h => h) q hq).and
    (sat_trials_mem fp sort hnd hrq hw hamap _ (fun _ h => h) (by simp [algVec]) q hq)).mono ?_)
  rintro x as q' ⟨⟨-, -, hall⟩, a, ha, hserving⟩
  have hq0 : 0 < (j :: js).length := List.length_pos_iff.mpr hrq
  have hwindow : a.jobList.length ≤ window := (hall a ha).2.length_le.trans (List.length_take_le _ _)
  have hscore : 0 < (score fp .completionTime (j :: js).length a).score := by
    refine (score_pos_iff hq0 (fun p hp => (hserving.2 p hp).1) hserving.1).mpr ?_
    refine pays_of_pos hfit hq0 le_rfl (by simpa [counts] using hserving.1) ?_ fun c hc => ?_
    · simpa [counts, Allocations.jobList] using hwindow
    · obtain ⟨p, hp, rfl⟩ := List.mem_map.mp hc
      have hin := List.mem_of_mem_take ((hall a ha).2.subset (List.mem_map_of_mem hp))
      obtain ⟨hne, hmost⟩ := hserving.2 p hp
      rw [(hbuilt _ hin).max_eq] at hmost
      exact ⟨hbuilt _ hin, hpos _ hin, List.length_pos_iff.mpr hne, hmost⟩
  have hmem := List.mem_map_of_mem (f := score fp .completionTime (j :: js).length) ha
  obtain ⟨b, hb, hsel⟩ : ∃ b ∈ as.map (score fp .completionTime (j :: js).length),
      selectMaxScore fp (as.map (score fp .completionTime (j :: js).length)) = some b :=
    selectMaxScore_mem (List.ne_nil_of_mem hmem)
  have hposb := selected_pos hsel hmem hscore
  rw [hsel]
  refine Prog.Sat.pure fun _ => ?_
  obtain ⟨c, -, rfl⟩ := List.mem_map.mp hb
  by_contra hnone
  rw [noJobs_score] at hnone
  rw [score_zero (a := c) (.inl (by omega))] at hposb
  omega

end Trials

/-! ## What a round has chosen -/

/-- What managed mode has chosen, or will choose whatever is returned in the meantime, has the property `P` and is in
the pool. -/
def Rounds (P : Allocations → Prop) (s : State) : Prop :=
  match s.pc with
  | .managing p => p.Sat (fun _ a q => P a ∧ a.resources.Subperm q) s.resPool
  | .chosen a => P a ∧ a.resources.Subperm s.resPool
  | _ => True

variable {P : Allocations → Prop} {cfg : Config} {s t : State}

theorem Rounds.managing (h : Rounds P s) {p : SchedProg Allocations} (hpc : s.pc = .managing p) :
    p.Sat (fun _ a q => P a ∧ a.resources.Subperm q) s.resPool := by
  unfold Rounds at h
  rw [hpc] at h
  exact h

theorem Rounds.chosen (h : Rounds P s) {a : Allocations} (hpc : s.pc = .chosen a) :
    P a ∧ a.resources.Subperm s.resPool := by
  unfold Rounds at h
  rw [hpc] at h
  exact h

/-- Returns to the pool keep it. -/
theorem Rounds.push (h : Rounds P s) (hpc : t.pc = s.pc) {x : List Resource} (hpool : t.resPool = s.resPool ++ x) :
    Rounds P t := by
  unfold Rounds
  rw [hpc, hpool]
  cases hs : s.pc with
  | managing p => exact (h.managing hs).env x
  | chosen a => exact ⟨(h.chosen hs).1, (h.chosen hs).2.trans (List.sublist_append_left _ _).subperm⟩
  | _ => trivial

theorem Rounds.same (h : Rounds P s) (hpc : t.pc = s.pc) (hpool : t.resPool = s.resPool) : Rounds P t :=
  h.push hpc (x := []) (by rw [hpool, List.append_nil])

theorem rounds_init (P : Allocations → Prop) (cfg : Config) : Rounds P (State.init cfg) := trivial

/-- **One step** keeps it, if a round that starts is such a round. -/
theorem step_rounds {a : Act} (h : Rounds P s) (hs : s.step cfg a = some t)
    (hstart : s.readyQ.length > 0 → s.resPool.length > 0 → (managedMode cfg.fp cfg.sort strat s.readyQ window).Sat
      (fun _ a q => P a ∧ a.resources.Subperm q) s.resPool) : Rounds P t := by
  cases a with
  | drawId request =>
    obtain rfl := Option.some.inj hs
    exact h.same rfl rfl
  | enqueue i =>
    obtain ⟨j, -, -, rfl⟩ := enqueue_cases hs
    exact h.same rfl rfl
  | sched =>
    cases schedLoop_cases hs with
    | start _ hq hp => exact hstart hq hp
    | choose hpc =>
      obtain ⟨hP, hsub⟩ := h.managing hpc []
      rw [List.append_nil] at hsub
      exact ⟨hP, hsub⟩
    | operate hpc hstep => exact (h.managing hpc).step hstep
    | _ => trivial
  | dispatch =>
    cases dispatcherLoop_cases hs with
    | _ => exact h.same rfl rfl
  | run i rsp =>
    obtain ⟨th, -, hrun⟩ := runJob_cases hs
    cases hrun with
    | giveBack _ => exact h.push rfl rfl
    | _ => exact h.same rfl rfl
  | finish =>
    cases finishedLoop_cases hs with
    | _ => exact h.same rfl rfl
  | copy i =>
    obtain ⟨j, -, -, rfl⟩ := copyResponse_cases hs
    exact h.same rfl rfl

/-- What managed mode chooses is in the pool it leaves. -/
theorem Life.sat_managedMode_backed (h : Life s) (fp : Arith) (sort : StdSort Job) (hq : s.readyQ.length > 0)
    (hp : s.resPool.length > 0) :
    (managedMode fp sort strat s.readyQ window).Sat (fun _ a q => a.resources.Subperm q) s.resPool :=
  (h.sat_managedMode fp sort hq hp).mono fun _ _ _ ha => ha.2.1.trans ha.1.symm.subperm

/-- In every run what a round has chosen is in the pool until the elasticity step. -/
theorem reachable_rounds (h : (system cfg).Reachable s) : Rounds (fun _ => True) s := by
  have hinv : Life s ∧ Rounds (fun _ => True) s := by
    refine h.invariant (I := fun s => Life s ∧ Rounds (fun _ => True) s) ⟨life_init cfg, rounds_init _ cfg⟩ ?_
    rintro s a t ⟨hl, hr⟩ hst
    refine ⟨step_life hl hst, step_rounds hr hst fun hq hp => ?_⟩
    exact (hl.sat_managedMode_backed cfg.fp cfg.sort hq hp).mono fun _ _ _ ha => ⟨trivial, ha⟩
  exact hinv.2

/-! ## No round is blocked -/

/-- The elasticity step does not block on a pool that is not empty. -/
theorem updateResourcePool_isSome (a : Allocations) (hp : s.resPool ≠ []) : (updateResourcePool cfg a s).isSome := by
  unfold updateResourcePool deprovisionResource
  split
  · rfl
  split
  · split
    · rw [List.getLast?_eq_some_getLast hp]
      rfl
    · rfl
  · rfl

/-- A candidate that serves a job has a resource. -/
theorem Allocations.resources_ne_nil {a : Allocations} (h : a.noJobs > 0) : a.resources ≠ [] := by
  obtain ⟨p, hp⟩ := List.exists_mem_of_length_pos h
  obtain ⟨hmem, hlen⟩ := List.mem_filter.mp hp
  intro hnil
  rw [Allocations.resources, List.flatMap_eq_nil_iff] at hnil
  simp [hnil p hmem] at hlen

theorem Rounds.pool_ne_nil (h : Rounds P s) {a : Allocations} (hpc : s.pc = .chosen a) (ha : a.noJobs > 0) :
    s.resPool ≠ [] := by
  intro hnil
  have hsub := (h.chosen hpc).2
  rw [hnil] at hsub
  exact a.resources_ne_nil ha (List.subperm_nil.mp hsub)

theorem schedLoop_isSome (cfg : Config) (h : Rounds P s) (hpc : s.pc ≠ .idle) : (schedLoop cfg s).isSome := by
  unfold schedLoop
  split
  · rename_i hidle
    exact absurd hidle hpc
  · rfl
  · rename_i p hret hmanaging
    rcases (h.managing hmanaging).progress with ⟨a, rfl⟩ | ⟨p', q', hstep⟩
    · exact absurd rfl (hret a)
    · rw [hstep]
      rfl
  · rename_i a hchosen
    split
    · rename_i hjobs
      rw [Option.isSome_map]
      exact updateResourcePool_isSome a (h.pool_ne_nil hchosen hjobs)
    · rfl
  · rfl
  · rfl
  · rfl
  · rfl

/-- **`schedLoop` waits only between rounds**: in every state of every run it has a next step, except while it is idle
and no job or no resource is there. -/
theorem schedLoop_blocks_iff (cfg : Config) (s : State) (h : (system cfg).Reachable s) :
    schedLoop cfg s = none ↔ s.pc = .idle ∧ (s.readyQ = [] ∨ s.resPool = []) := by
  constructor
  · intro hnone
    have hpc : s.pc = .idle := by
      by_contra hpc
      have := schedLoop_isSome cfg (reachable_rounds h) hpc
      rw [hnone] at this
      cases this
    refine ⟨hpc, ?_⟩
    simp only [schedLoop, hpc] at hnone
    split at hnone
    · cases hnone
    · rename_i hless
      rcases not_and_or.mp hless with hq | hp
      · exact .inl (List.eq_nil_of_length_eq_zero (by omega))
      · exact .inr (List.eq_nil_of_length_eq_zero (by omega))
  · rintro ⟨hpc, hnil⟩
    simp only [schedLoop, hpc]
    rw [if_neg]
    rintro ⟨hq, hp⟩
    rcases hnil with hnil | hnil
    · simp [hnil] at hq
    · simp [hnil] at hp

/-- Whether `schedLoop` is between two rounds. -/
def SchedPc.isIdle : SchedPc → Bool
  | .idle => true
  | _ => false

theorem SchedPc.eq_idle {pc : SchedPc} (h : pc.isIdle = true) : pc = .idle := by
  cases pc with
  | idle => rfl
  | _ => cases h

/-- After a round that gave the only resource to a job there is none left to wait for. -/
theorem schedLoop_blocks_starved : ∃ s, (system localConfig).Reachable s ∧ s.readyQ.length = 1 ∧
    schedLoop localConfig s = none := by
  obtain ⟨s, hr, hs⟩ := Machine.exists_reachableIf (system localConfig) (fun _ _ => True)
    (serve (targetRequest 100 100) 24 ++ serve (targetRequest 100 100) 0)
    (fun s => (s.readyQ.length, s.resPool, s.pc.isIdle)) (1, [], true) (by decide +kernel)
  simp only [Prod.mk.injEq] at hs
  obtain ⟨hq, hp, hpc⟩ := hs
  exact ⟨s, hr, hq, (schedLoop_blocks_iff localConfig s hr).mpr ⟨SchedPc.eq_idle hpc, .inr hp⟩⟩

/-! ## With positive times every round serves a job -/

/-- The scores of `n` waiting jobs fit an `int`. -/
def Config.Room (cfg : Config) (n : Nat) : Prop := cfg.fp.ScoresFit window n

/-- Jobs with a handler or in the ready queue. -/
def State.backlog (s : State) : Nat := s.entering.length + s.readyQ.length

/-- Requests come with a positive predicted time, and while there is room for another job to wait: on any machine for a
million (`timed_of_few`), without rounding always (`room_exact`). -/
def Timed (cfg : Config) (s : State) : Act → Prop
  | .drawId request => 0 < request.predictedTimeMillis.toInt ∧ cfg.Room (s.backlog + 1)
  | _ => True

theorem room_exact (h : cfg.fp = .exact) (n : Nat) : cfg.Room n := by
  rw [Config.Room, h]
  exact scoresFit_exact window n

theorem room_few {n : Nat} (h : n ≤ 2 ^ 20) : cfg.Room n :=
  cfg.fp.scoresFit (by decide) ((Nat.mul_le_mul_right window h).trans (by decide))

/-- Few jobs wait when a request comes. -/
def Few (s : State) : Act → Prop
  | .drawId request => 0 < request.predictedTimeMillis.toInt ∧ s.backlog < 2 ^ 20
  | _ => True

instance (s : State) : (a : Act) → Decidable (Few s a)
  | .drawId _ => inferInstanceAs (Decidable (_ ∧ _))
  | .enqueue _ | .sched | .dispatch | .run _ _ | .finish | .copy _ => inferInstanceAs (Decidable True)

theorem timed_of_few {a : Act} (h : Few s a) : Timed cfg s a := by
  cases a with
  | drawId request => exact ⟨h.1, room_few h.2⟩
  | _ => trivial

theorem reachable_timed_of_few (h : (system cfg).ReachableIf Few s) : (system cfg).ReachableIf (Timed cfg) s :=
  h.mono fun _ _ => timed_of_few

/-- A step brings at most the job it draws. -/
theorem step_jobs {a : Act} (hs : s.step cfg a = some t) : ∀ j ∈ t.entering ++ t.issued, j ∈ s.entering ++ s.issued ∨
    ∃ request, a = .drawId request ∧ j = Job.ofRequest request s.nextJid := by
  intro j hj
  cases a with
  | drawId request =>
    obtain rfl := Option.some.inj hs
    rcases List.mem_cons.mp hj with rfl | hj
    · exact .inr ⟨request, rfl, rfl⟩
    · exact .inl hj
  | enqueue i =>
    obtain ⟨k, hk, -, rfl⟩ := enqueue_cases hs
    refine .inl ?_
    have hin := List.mem_of_getElem? hk
    simp only [List.mem_append, List.mem_singleton] at hj ⊢
    rcases hj with hj | hj | rfl
    · exact .inl (List.mem_of_mem_eraseIdx hj)
    · exact .inr hj
    · exact .inl hin
  | sched =>
    cases schedLoop_cases hs with
    | adjust _ _ hu =>
      rw [updateResourcePool_frame hu] at hj
      exact .inl hj
    | _ => exact .inl hj
  | dispatch =>
    cases dispatcherLoop_cases hs with
    | _ => exact .inl hj
  | run i rsp =>
    obtain ⟨th, -, hrun⟩ := runJob_cases hs
    cases hrun with
    | _ => exact .inl hj
  | finish =>
    cases finishedLoop_cases hs with
    | _ => exact .inl hj
  | copy i =>
    obtain ⟨k, -, -, rfl⟩ := copyResponse_cases hs
    exact .inl hj

/-- A job of the constructor with a positive time. -/
def Job.Positive (j : Job) : Prop := j.Built ∧ 0 < j.predictedTimeMillis

theorem step_positive {a : Act} (h : ∀ j ∈ s.entering ++ s.issued, j.Positive) (ha : Timed cfg s a)
    (hs : s.step cfg a = some t) : ∀ j ∈ t.entering ++ t.issued, j.Positive := by
  intro j hj
  rcases step_jobs hs j hj with hj | ⟨request, rfl, rfl⟩
  · exact h j hj
  · have hpos : (0 : ℚ) < request.predictedTimeMillis.toInt := by exact_mod_cast ha.1
    exact ⟨⟨_, _, rfl⟩, by simp only [Job.ofRequest]; positivity⟩

/-- Only a request makes more jobs wait. -/
theorem step_backlog {a : Act} (hs : s.step cfg a = some t) :
    t.backlog ≤ s.backlog ∨ ∃ request, a = .drawId request ∧ t.backlog = s.backlog + 1 := by
  cases a with
  | drawId request =>
    obtain rfl := Option.some.inj hs
    refine .inr ⟨request, rfl, ?_⟩
    simp only [State.backlog, drawId, List.length_cons]
    omega
  | enqueue i =>
    obtain ⟨k, hk, -, rfl⟩ := enqueue_cases hs
    obtain ⟨hlt, -⟩ := List.getElem?_eq_some_iff.mp hk
    refine .inl ?_
    simp only [State.backlog, List.length_eraseIdx_of_lt hlt, List.length_cons]
    omega
  | sched =>
    cases schedLoop_cases hs with
    | adjust _ _ hu => exact .inl (by rw [updateResourcePool_frame hu]; exact le_rfl)
    | remove _ => exact .inl (Nat.add_le_add_left List.length_eraseP_le _)
    | _ => exact .inl le_rfl
  | dispatch =>
    cases dispatcherLoop_cases hs with
    | _ => exact .inl le_rfl
  | run i rsp =>
    obtain ⟨th, -, hrun⟩ := runJob_cases hs
    cases hrun with
    | _ => exact .inl le_rfl
  | finish =>
    cases finishedLoop_cases hs with
    | _ => exact .inl le_rfl
  | copy i =>
    obtain ⟨k, -, -, rfl⟩ := copyResponse_cases hs
    exact .inl le_rfl

theorem step_room {a : Act} (h : cfg.Room s.backlog) (ha : Timed cfg s a) (hs : s.step cfg a = some t) :
    cfg.Room t.backlog := by
  rcases step_backlog hs with hle | ⟨request, rfl, heq⟩
  · exact h.mono hle
  · rw [heq]
    exact ha.2

/-- The invariant of runs with positive times: jobs have one place, their times are positive, their scores fit, and a
round serves one. -/
structure Served (cfg : Config) (s : State) : Prop where
  life : Life s
  positive : ∀ j ∈ s.entering ++ s.issued, j.Positive
  room : cfg.Room s.backlog
  rounds : Rounds (fun a => 1 ≤ a.noJobs) s

theorem Served.readyQ (h : Served cfg s) : ∀ j ∈ s.readyQ, j.Positive := by
  intro j hj
  refine h.positive j (List.mem_append_right _ (h.life.placed.subset ?_))
  simp only [State.places, List.append_assoc]
  exact List.mem_append_left _ hj

theorem served_init (cfg : Config) : Served cfg (State.init cfg) :=
  ⟨life_init cfg, fun j hj => (by cases hj), room_few (Nat.zero_le _), rounds_init _ cfg⟩

theorem step_served {a : Act} (h : Served cfg s) (ha : Timed cfg s a) (hs : s.step cfg a = some t) :
    Served cfg t := by
  refine ⟨step_life h.life hs, step_positive h.positive ha hs, step_room h.room ha hs,
    step_rounds h.rounds hs fun hq hp => ?_⟩
  exact (sat_managedMode_serves cfg.fp cfg.sort h.life.readyQ_nodup (List.length_pos_iff.mp hq) (by decide)
    (fun j hj => (h.readyQ j hj).1) (fun j hj => (h.readyQ j hj).2) (h.room.mono (Nat.le_add_left _ _))
    (List.length_pos_iff.mp hp)).and (h.life.sat_managedMode_backed cfg.fp cfg.sort hq hp)

theorem reachable_served (h : (system cfg).ReachableIf (Timed cfg) s) : Served cfg s :=
  h.invariant (I := Served cfg) (served_init cfg) fun _ _ _ hi hc hst => step_served hi hc hst

/-- **Every round serves a job** when all predicted times are positive and there is room for the jobs, whatever other
threads return to the pool while managed mode compares its candidates; and a round has started only where jobs and
resources were waiting. -/
theorem round_serves (cfg : Config) (s : State) (h : (system cfg).ReachableIf (Timed cfg) s) (a : Allocations)
    (hpc : s.pc = .chosen a) :
    1 ≤ a.noJobs ∧ a.jobList.Subperm s.readyQ ∧ a.resources.Subperm s.resPool ∧ a.resources ≠ [] := by
  have hs := reachable_served h
  have hsel := hs.life.selects
  rw [hpc] at hsel
  obtain ⟨hjobs, hres⟩ := hs.rounds.chosen hpc
  exact ⟨hjobs, hsel, hres, a.resources_ne_nil hjobs⟩

/-- The allocation `schedLoop` is about to put into effect. -/
def SchedPc.choice : SchedPc → Option Allocations
  | .chosen a => some a
  | _ => none

theorem SchedPc.eq_chosen {pc : SchedPc} {a : Allocations} (h : pc.choice = some a) : pc = .chosen a := by
  cases pc with
  | chosen b =>
    cases h
    rfl
  | _ => cases h

/-- A job of a tenth of a second on the resource the constructor provisions. -/
theorem round_serves_one : ∃ s a, (system localConfig).ReachableIf (Timed localConfig) s ∧ s.pc = .chosen a ∧
    1 ≤ a.noJobs ∧ a.jobList.Subperm s.readyQ ∧ a.resources.Subperm s.resPool ∧ a.resources ≠ [] := by
  obtain ⟨s, hfew, hs⟩ := Machine.exists_reachableIf (system localConfig) Few (serve (targetRequest 100 100) 19)
    (fun s => s.pc.choice.isSome) true (by decide +kernel)
  have hr := reachable_timed_of_few hfew
  obtain ⟨a, ha⟩ := Option.isSome_iff_exists.mp hs
  have hpc := SchedPc.eq_chosen ha
  exact ⟨s, a, hr, hpc, round_serves localConfig s hr a hpc⟩

end Hydrogen
