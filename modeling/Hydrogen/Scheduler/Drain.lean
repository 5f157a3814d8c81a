import Hydrogen.Lib.Quiesce
import Hydrogen.Scheduler.Rounds
import Hydrogen.Scheduler.Wakeup
import Mathlib.Order.RelClasses

/-!
# Every request is answered

Safety says that no job is lost; this module says that jobs get through. When no new request comes in, whatever order the
threads take their steps in, the system comes to rest, and then every client has the response to its job, unless the
wake-up of its handler was lost (`requests_drain`); while notifications are timely none is (`timely_requests_drain`). No
fairness between the threads is needed, only that dispatchers reply; and predicted times must be positive, as a round
that serves nobody is started again without end.

Every step goes down in a lexicographic order:

* first the jobs that are still to enter or to leave the ready queue, less those a round has chosen;
* then the position of `schedLoop` in its round (`SchedPc.Later`), which is well-founded because the program of managed
  mode is a well-founded tree: it has no bound in advance, since it depends on what is returned;
* then the steps left to the dispatcher, the `runJob` threads, `finishedLoop` and the handlers that copy;
* last the notification that is due and the steps the handlers have left in their wait loops.

It cannot come to rest with a job waiting, because some resource is always in the pool, held, or about to be claimed
(`Stocked`).
-/

namespace Hydrogen

open StdAlgorithm

variable {cfg : Config} {s t : State}

/-! ## Where `schedLoop` is in its round -/

/-- The first position is one step after the second, in a step that chooses or removes no job. -/
inductive SchedPc.Later : SchedPc → SchedPc → Prop
  | start (p : SchedProg Allocations) : Later (.managing p) .idle
  | operate {p p' : SchedProg Allocations} {q q' : List Resource} : p.step q = some (p', q') →
      Later (.managing p') (.managing p)
  | adjust (a : Allocations) : Later (.servicing a.jobs) (.chosen a)
  | rest : Later .idle (.servicing [])
  | claim (p : JobResPair) (todo : List JobResPair) : Later (.adding p todo) (.claiming p todo)
  | add (p : JobResPair) (todo : List JobResPair) : Later (.servicing todo) (.adding p todo)

namespace SchedPc

/-- Managed mode ends, whatever the sizes and resources it reads. -/
theorem acc_managing (p : SchedProg Allocations) : Acc Later (.managing p) := by
  induction p with
  | ret a =>
    refine ⟨_, fun pc h => ?_⟩
    cases h with | operate hs => cases hs
  | fault e =>
    refine ⟨_, fun pc h => ?_⟩
    cases h with | operate hs => cases hs
  | size k ih =>
    refine ⟨_, fun pc h => ?_⟩
    cases h with
    | operate hs =>
      cases hs
      exact ih _
  | popBack k ih =>
    refine ⟨_, fun pc h => ?_⟩
    cases h with
    | operate hs =>
      obtain ⟨r, -, hr⟩ := Option.map_eq_some_iff.mp hs
      cases hr
      exact ih r
  | pushBack r k ih =>
    refine ⟨_, fun pc h => ?_⟩
    cases h with
    | operate hs =>
      cases hs
      exact ih

theorem acc_idle : Acc Later .idle := by
  refine ⟨_, fun pc h => ?_⟩
  cases h with | start p => exact acc_managing p

theorem acc_servicing (todo : List JobResPair) : Acc Later (.servicing todo) := by
  refine ⟨_, fun pc h => ?_⟩
  cases h with | rest => exact acc_idle

theorem acc_adding (p : JobResPair) (todo : List JobResPair) : Acc Later (.adding p todo) := by
  refine ⟨_, fun pc h => ?_⟩
  cases h with | add => exact acc_servicing todo

theorem wf_later : WellFounded Later := by
  refine ⟨fun pc => ?_⟩
  cases pc with
  | idle => exact acc_idle
  | managing p => exact acc_managing p
  | chosen a =>
    refine ⟨_, fun pc h => ?_⟩
    cases h with | adjust => exact acc_servicing _
  | servicing todo => exact acc_servicing todo
  | claiming p todo =>
    refine ⟨_, fun pc h => ?_⟩
    cases h with | claim => exact acc_adding p todo
  | adding p todo => exact acc_adding p todo

end SchedPc

/-! ## The measure -/

/-- The steps a thread has left, with those of `finishedLoop` for its job. -/
def Thread.stepsLeft (t : Thread) : Nat :=
  match t.phase with
  | .calling => t.res.length + 5
  | .returning todo => todo.length + 4
  | .finished => 1

/-- The steps left on the way from the run queue to the clients. -/
def State.stepsLeft (s : State) : Nat :=
  (s.runQ.map fun p => p.2.length + 7).sum + (s.dispatcher.toList.map fun p => p.2.length + 6).sum +
    (s.threads.map Thread.stepsLeft).sum + 2 * s.finishedQ.length + s.finishing.toList.length + s.waiting.length

/-- The steps left on the way through the ready queue. -/
def State.jobsLeft (s : State) : Nat := 3 * s.entering.length + 2 * s.readyQ.length - s.pc.todo.length

/-- What goes down with every step. -/
def State.left (s : State) : Nat × SchedPc × Nat := (s.jobsLeft, s.pc, s.stepsLeft)

/-- The order it goes down in. -/
def Less : Nat × SchedPc × Nat → Nat × SchedPc × Nat → Prop :=
  Prod.Lex (· < ·) (Prod.Lex SchedPc.Later (· < ·))

theorem wf_less : WellFounded Less := Nat.lt_wfRel.wf.prod_lex (SchedPc.wf_later.prod_lex Nat.lt_wfRel.wf)

theorem less_of_jobsLeft (h : t.jobsLeft < s.jobsLeft) : Less t.left s.left := .left _ _ h

theorem less_of_later (hj : t.jobsLeft = s.jobsLeft) (h : t.pc.Later s.pc) : Less t.left s.left := by
  unfold State.left
  rw [hj]
  exact .right _ (.left _ _ h)

theorem less_of_stepsLeft (hj : t.jobsLeft = s.jobsLeft) (hpc : t.pc = s.pc) (h : t.stepsLeft < s.stepsLeft) :
    Less t.left s.left := by
  unfold State.left
  rw [hj, hpc]
  exact .right _ (.right _ h)

/-- What is chosen is in the ready queue. -/
theorem Life.todo_length_le (h : Life s) (hpc : s.pc.locksReadyQ = false) : s.pc.todo.length ≤ s.readyQ.length := by
  have := (h.selects.todo hpc).length_le
  rwa [List.length_map] at this

/-- A round that serves a job goes on to service it. -/
theorem Served.serviced (h : Served cfg s) {a : Allocations} (hpc : s.pc = .chosen a) (hs : schedLoop cfg s = some t) :
    t.pc = .servicing a.jobs := by
  have hjobs : a.noJobs > 0 := (h.rounds.chosen hpc).1
  simp only [schedLoop, hpc, if_pos hjobs] at hs
  obtain ⟨u, -, rfl⟩ := Option.map_eq_some_iff.mp hs
  rfl

theorem Allocations.jobs_length_pos {a : Allocations} (h : 1 ≤ a.noJobs) : 1 ≤ a.jobs.length :=
  h.trans (List.length_filter_le _ _)

theorem schedLoop_less (h : Served cfg s) (hs : schedLoop cfg s = some t) : Less t.left s.left := by
  have hlen := h.life.todo_length_le
  cases schedLoop_cases hs with
  | start hpc _ _ =>
    refine less_of_later (by simp [State.jobsLeft, hpc, SchedPc.todo]) ?_
    rw [hpc]
    exact .start _
  | @choose a hpc =>
    -- the jobs chosen are in the ready queue, and there is one
    have hjobs : 1 ≤ a.noJobs := (h.rounds.managing hpc []).1
    have hlen' := (schedLoop_life h.life hs).todo_length_le rfl
    have := a.jobs_length_pos hjobs
    refine less_of_jobsLeft ?_
    simp only [State.jobsLeft, hpc, SchedPc.todo, List.length_nil] at hlen' ⊢
    omega
  | operate hpc hstep =>
    refine less_of_later (by simp [State.jobsLeft, hpc, SchedPc.todo]) ?_
    rw [hpc]
    exact .operate hstep
  | @adjust a u hpc _ hu =>
    rw [updateResourcePool_frame hu]
    refine less_of_later (by simp [State.jobsLeft, hpc, SchedPc.todo]) ?_
    rw [hpc]
    exact .adjust a
  | giveUp hpc => cases h.serviced hpc hs
  | rest hpc =>
    refine less_of_later (by simp [State.jobsLeft, hpc, SchedPc.todo]) ?_
    rw [hpc]
    exact .rest
  | @remove p todo hpc =>
    have hsel := h.life.selects
    rw [hpc] at hsel hlen
    have hmem : p.1 ∈ s.readyQ := hsel.subset List.mem_cons_self
    have hperm := (perm_cons_eraseP_key Job.jid hmem h.life.readyQ_ids_nodup).length_eq
    have := hlen rfl
    refine less_of_jobsLeft ?_
    simp only [State.jobsLeft, hpc, SchedPc.todo, removeJobFromReadyQ, List.length_cons] at this hperm ⊢
    omega
  | claim hpc =>
    refine less_of_later (by simp [State.jobsLeft, hpc, SchedPc.todo]) ?_
    rw [hpc]
    exact .claim _ _
  | add hpc =>
    refine less_of_later (by simp [State.jobsLeft, hpc, SchedPc.todo]) ?_
    rw [hpc]
    exact .add _ _

/-- Taking a thread out of the list. -/
theorem sum_thread (f : Thread → Nat) {ts : List Thread} {i : Nat} {th : Thread} (h : ts[i]? = some th) :
    (ts.map f).sum = f th + ((ts.eraseIdx i).map f).sum := by
  obtain ⟨hlt, rfl⟩ := List.getElem?_eq_some_iff.mp h
  have := ((List.getElem_cons_eraseIdx_perm hlt).map f).sum_eq
  rw [← this, List.map_cons, List.sum_cons]

theorem dispatcherLoop_stepsLeft (h : Life s) (hs : dispatcherLoop s = some t) : t.stepsLeft < s.stepsLeft := by
  cases dispatcherLoop_cases hs with
  | pop hd hq =>
    simp only [State.stepsLeft, hd, hq, Option.toList, List.map_cons, List.map_nil, List.sum_cons, List.sum_nil]
    omega
  | skip hd hstarted => exact absurd hstarted (h.not_skipped hd)
  | start hd =>
    simp only [State.stepsLeft, hd, Option.toList, List.map_cons, List.map_nil, List.sum_cons, List.sum_nil,
      Thread.stepsLeft]
    omega

theorem runJob_stepsLeft {i : Nat} {rsp : Msg} (h : Life s) (hs : runJob i rsp s = some t) :
    t.stepsLeft < s.stepsLeft := by
  obtain ⟨th, hth, hstep⟩ := runJob_cases hs
  have hsum := sum_thread Thread.stepsLeft hth
  cases hstep with
  | answer rsp hph _ =>
    simp only [State.stepsLeft, hsum, List.map_cons, List.sum_cons, Thread.stepsLeft, hph]
    omega
  | giveBack hph =>
    simp only [State.stepsLeft, hsum, List.map_cons, List.sum_cons, Thread.stepsLeft, hph, List.length_cons]
    omega
  | finish hph =>
    simp only [State.stepsLeft, hsum, List.map_cons, List.sum_cons, Thread.stepsLeft, hph, List.length_cons,
      List.length_nil]
    omega
  | leave hph =>
    rw [h.removeJobFromRunQ_eq (List.mem_of_getElem? hth) hph]
    simp only [State.stepsLeft, hsum, Thread.stepsLeft, hph]
    omega

theorem finishedLoop_stepsLeft (hs : finishedLoop s = some t) : t.stepsLeft < s.stepsLeft := by
  cases finishedLoop_cases hs with
  | pop hf hq =>
    simp only [State.stepsLeft, hf, hq, Option.toList, List.length_cons, List.length_nil]
    omega
  | flag hf =>
    simp only [State.stepsLeft, hf, Option.toList, List.length_cons, List.length_nil]
    omega

/-- No new request comes in. -/
def Quiet (_ : State) : Act → Prop
  | .drawId _ => False
  | _ => True

/-- **Every step goes down** until a new request comes in. -/
theorem step_less {a : Act} (h : Served cfg s) (ha : Quiet s a) (hs : s.step cfg a = some t) : Less t.left s.left := by
  cases a with
  | drawId request => cases ha
  | enqueue i =>
    obtain ⟨j, hj, hpc, rfl⟩ := enqueue_cases hs
    obtain ⟨hlt, -⟩ := List.getElem?_eq_some_iff.mp hj
    have := h.life.todo_length_le hpc
    refine less_of_jobsLeft ?_
    simp only [State.jobsLeft, List.length_eraseIdx, if_pos hlt, List.length_cons]
    omega
  | sched => exact schedLoop_less h hs
  | dispatch =>
    have hless := dispatcherLoop_stepsLeft h.life hs
    cases dispatcherLoop_cases hs with
    | _ => exact less_of_stepsLeft rfl rfl hless
  | run i rsp =>
    have hless := runJob_stepsLeft h.life hs
    obtain ⟨th, -, hrun⟩ := runJob_cases hs
    cases hrun with
    | _ => exact less_of_stepsLeft rfl rfl hless
  | finish =>
    have hless := finishedLoop_stepsLeft hs
    cases finishedLoop_cases hs with
    | _ => exact less_of_stepsLeft rfl rfl hless
  | copy i =>
    obtain ⟨j, hj, -, rfl⟩ := copyResponse_cases hs
    obtain ⟨hlt, -⟩ := List.getElem?_eq_some_iff.mp hj
    refine less_of_stepsLeft rfl rfl ?_
    simp only [State.stepsLeft, List.length_eraseIdx, if_pos hlt]
    omega

/-! ## There is always a resource -/

/-- The resources in the pool and those held for jobs. -/
def State.stock (s : State) : Nat := s.resPool.length + s.held.length

/-- Between trials some resource is in the pool, held, or about to be claimed. -/
def Stocked (s : State) : Prop := s.pc.locksReadyQ = false → 0 < s.stock + s.pc.unclaimed.length

theorem dispatcherLoop_stock (h : Life s) (hs : dispatcherLoop s = some t) : t.stock = s.stock := by
  cases dispatcherLoop_cases hs with
  | pop hd hq =>
    simp only [State.stock, State.held, hd, hq, Option.toList, List.flatMap_cons, List.flatMap_nil,
      List.length_append, List.length_nil]
    omega
  | skip hd hstarted => exact absurd hstarted (h.not_skipped hd)
  | start hd =>
    simp only [State.stock, State.held, hd, Option.toList, List.flatMap_cons, List.flatMap_nil, List.length_append,
      List.length_nil, Thread.held]
    omega

theorem runJob_stock {i : Nat} {rsp : Msg} (h : Life s) (hs : runJob i rsp s = some t) : t.stock = s.stock := by
  obtain ⟨th, hth, hstep⟩ := runJob_cases hs
  have hheld := (flatMap_thread Thread.held hth).length_eq
  rw [List.length_append] at hheld
  cases hstep with
  | answer rsp hph _ =>
    simp only [State.stock, State.held, hheld, List.flatMap_cons, List.length_append, Thread.held, hph]
  | giveBack hph =>
    simp only [State.stock, State.held, hheld, List.flatMap_cons, List.length_append, Thread.held, hph,
      List.length_cons, List.length_nil]
    omega
  | finish hph =>
    simp only [State.stock, State.held, hheld, List.flatMap_cons, List.length_append, Thread.held, hph]
  | leave hph =>
    rw [h.removeJobFromRunQ_eq (List.mem_of_getElem? hth) hph]
    simp only [State.stock, State.held, hheld, List.length_append, Thread.held, hph, List.length_nil]
    omega

theorem Stocked.of_eq (h : Stocked s) (hpc : t.pc = s.pc) (hstock : t.stock = s.stock) : Stocked t := by
  unfold Stocked
  rw [hpc, hstock]
  exact h

theorem stocked_init (cfg : Config) : Stocked (State.init cfg) := fun _ => Nat.one_pos

theorem schedLoop_stocked (h : Served cfg s) (hst : Stocked s) (hs : schedLoop cfg s = some t) : Stocked t := by
  unfold Stocked at hst
  cases schedLoop_cases hs with
  | start _ _ _ => intro hlock; cases hlock
  | @choose a hpc =>
    have hjobs : 1 ≤ a.noJobs := (h.rounds.managing hpc []).1
    have := List.length_pos_iff.mpr (a.resources_ne_nil hjobs)
    intro _
    simp only [SchedPc.unclaimed]
    omega
  | operate _ _ => intro hlock; cases hlock
  | @adjust a _ hpc hjobs hu =>
    have : 0 < (a.jobs.flatMap Prod.snd).length := List.length_pos_iff.mpr (a.resources_ne_nil hjobs)
    intro _
    simp only [SchedPc.unclaimed]
    omega
  | giveUp hpc => cases h.serviced hpc hs
  | rest hpc =>
    simpa [Stocked, State.stock, State.held, hpc, SchedPc.unclaimed, SchedPc.claimed, SchedPc.locksReadyQ] using hst
  | remove hpc =>
    simpa [Stocked, State.stock, State.held, hpc, SchedPc.unclaimed, SchedPc.claimed, SchedPc.locksReadyQ] using hst
  | @claim p todo hpc =>
    intro _
    cases hp : p.2 with
    | nil =>
      -- nothing to claim
      simpa [State.stock, State.held, hpc, SchedPc.unclaimed, SchedPc.claimed, SchedPc.locksReadyQ, hp,
        claimResources] using hst
    | cons r rs =>
      simp only [State.stock, State.held, SchedPc.claimed, hp, List.length_append, List.length_cons]
      omega
  | add hpc =>
    intro _
    simp only [State.stock, State.held, hpc, SchedPc.unclaimed, SchedPc.claimed, SchedPc.locksReadyQ,
      List.flatMap_cons, List.length_append, List.length_nil, forall_const] at hst ⊢
    omega

theorem step_stocked {a : Act} (h : Served cfg s) (hst : Stocked s) (hs : s.step cfg a = some t) : Stocked t := by
  cases a with
  | drawId request =>
    obtain rfl := Option.some.inj hs
    exact hst.of_eq rfl rfl
  | enqueue i =>
    obtain ⟨j, -, -, rfl⟩ := enqueue_cases hs
    exact hst.of_eq rfl rfl
  | sched => exact schedLoop_stocked h hst hs
  | dispatch =>
    have hstock := dispatcherLoop_stock h.life hs
    cases dispatcherLoop_cases hs with
    | _ => exact hst.of_eq rfl hstock
  | run i rsp =>
    have hstock := runJob_stock h.life hs
    obtain ⟨th, -, hrun⟩ := runJob_cases hs
    cases hrun with
    | _ => exact hst.of_eq rfl hstock
  | finish =>
    cases finishedLoop_cases hs with
    | _ => exact hst.of_eq rfl rfl
  | copy i =>
    obtain ⟨j, -, -, rfl⟩ := copyResponse_cases hs
    exact hst.of_eq rfl rfl

/-! ## The clients -/

/-- Each job issued has its handler waiting or its response copied, and a job completed is flagged or about to be. -/
structure Clients (s : State) : Prop where
  waits : (s.waiting.map Job.jid ++ s.copied.map Prod.fst).Perm (s.issued.map Job.jid)
  flagged : ∀ j ∈ s.completed, j.jid ∈ s.finished ∨ j ∈ s.finishing

theorem clients_init (cfg : Config) : Clients (State.init cfg) := ⟨.refl _, fun j hj => by cases hj⟩

theorem enqueue_clients {i : Nat} (h : Clients s) (hs : enqueue i s = some t) : Clients t := by
  obtain ⟨j, -, -, rfl⟩ := enqueue_cases hs
  refine ⟨?_, h.flagged⟩
  rw [List.map_append]
  exact (h.waits.cons j.jid).trans (List.perm_append_singleton j.jid _).symm

theorem copyResponse_clients {i : Nat} (h : Clients s) (hs : copyResponse i s = some t) : Clients t := by
  obtain ⟨j, hj, -, rfl⟩ := copyResponse_cases hs
  obtain ⟨hlt, rfl⟩ := List.getElem?_eq_some_iff.mp hj
  refine ⟨?_, h.flagged⟩
  have hmove := ((List.getElem_cons_eraseIdx_perm hlt).map Job.jid).append_right (s.copied.map Prod.fst)
  exact List.perm_middle.trans (hmove.trans h.waits)

theorem finishedLoop_clients (h : Clients s) (hs : finishedLoop s = some t) : Clients t := by
  cases finishedLoop_cases hs with
  | @pop j _ hf _ =>
    refine ⟨h.waits, fun k hk => ?_⟩
    rcases List.mem_cons.mp hk with rfl | hk
    · exact .inr rfl
    · rcases h.flagged k hk with hk | hk
      · exact .inl hk
      · rw [hf] at hk
        cases hk
  | @flag j hf =>
    refine ⟨h.waits, fun k hk => .inl ?_⟩
    rcases h.flagged k hk with hk | hk
    · exact List.mem_cons_of_mem _ hk
    · rw [hf] at hk
      cases hk
      exact List.mem_cons_self

theorem step_clients {a : Act} (h : Clients s) (hs : s.step cfg a = some t) : Clients t := by
  cases a with
  | drawId request =>
    obtain rfl := Option.some.inj hs
    exact ⟨h.waits, h.flagged⟩
  | enqueue i => exact enqueue_clients h hs
  | sched =>
    cases schedLoop_cases hs with
    | adjust _ _ hu =>
      rw [updateResourcePool_frame hu]
      exact ⟨h.waits, h.flagged⟩
    | _ => exact ⟨h.waits, h.flagged⟩
  | dispatch =>
    cases dispatcherLoop_cases hs with
    | _ => exact ⟨h.waits, h.flagged⟩
  | run i rsp =>
    obtain ⟨th, -, hrun⟩ := runJob_cases hs
    cases hrun with
    | _ => exact ⟨h.waits, h.flagged⟩
  | finish => exact finishedLoop_clients h hs
  | copy i => exact copyResponse_clients h hs

theorem reachable_clients (h : (system cfg).Reachable s) : Clients s :=
  h.invariant (I := Clients) (clients_init cfg) fun _ _ _ hc hst => step_clients hc hst

/-- A response is copied only of a completed job. -/
theorem step_copied {a : Act} (hl : Life s) (h : ∀ c ∈ s.copied, c.1 ∈ s.completed.map Job.jid)
    (hs : s.step cfg a = some t) : ∀ c ∈ t.copied, c.1 ∈ t.completed.map Job.jid := by
  cases a with
  | drawId request =>
    obtain rfl := Option.some.inj hs
    exact h
  | enqueue i =>
    obtain ⟨j, -, -, rfl⟩ := enqueue_cases hs
    exact h
  | sched =>
    cases schedLoop_cases hs with
    | adjust _ _ hu =>
      rw [updateResourcePool_frame hu]
      exact h
    | _ => exact h
  | dispatch =>
    cases dispatcherLoop_cases hs with
    | _ => exact h
  | run i rsp =>
    obtain ⟨th, -, hrun⟩ := runJob_cases hs
    cases hrun with
    | _ => exact h
  | finish =>
    cases finishedLoop_cases hs with
    | pop _ _ => exact fun c hc => List.mem_cons_of_mem _ (h c hc)
    | flag _ => exact h
  | copy i =>
    obtain ⟨j, -, hfin, rfl⟩ := copyResponse_cases hs
    intro c hc
    rcases List.mem_cons.mp hc with rfl | hc
    · exact hl.finished _ hfin
    · exact h c hc

theorem reachable_copied (h : (system cfg).Reachable s) : ∀ c ∈ s.copied, c.1 ∈ s.completed.map Job.jid := by
  have hboth := h.invariant (I := fun s => Life s ∧ ∀ c ∈ s.copied, c.1 ∈ s.completed.map Job.jid)
    ⟨life_init cfg, fun c hc => by cases hc⟩ fun _ _ _ hi hs => ⟨step_life hi.1 hs, step_copied hi.1 hi.2 hs⟩
  exact hboth.2

/-! ## Coming to rest -/

/-- What holds in every run with positive times. -/
structure Draining (cfg : Config) (s : State) : Prop where
  served : Served cfg s
  stocked : Stocked s
  clients : Clients s

theorem draining_init (cfg : Config) : Draining cfg (State.init cfg) :=
  ⟨served_init cfg, stocked_init cfg, clients_init cfg⟩

theorem step_draining {a : Act} (h : Draining cfg s) (ha : Timed cfg s a) (hs : s.step cfg a = some t) :
    Draining cfg t :=
  ⟨step_served h.served ha hs, step_stocked h.served h.stocked hs, step_clients h.clients hs⟩

theorem quiet_of_ne {a : Act} (h : ∀ m, a ≠ .drawId m) : Quiet s a := by
  cases a with
  | drawId m => exact absurd rfl (h m)
  | _ => trivial

theorem timed_of_quiet {a : Act} (h : Quiet s a) : Timed cfg s a := by
  cases a with
  | drawId request => cases h
  | _ => trivial

/-- No request is with its handler or in the system, and the clients have one response for each job: the one received
for it. -/
structure Answered (s : State) : Prop where
  entering : s.entering = []
  waiting : s.waiting = []
  once : (s.copied.map Prod.fst).Perm (s.issued.map Job.jid)
  own : ∀ j ∈ s.issued, ∃ rsp, (j.jid, some rsp) ∈ s.copied ∧ (j.jid, rsp) ∈ s.received

/-- When no handler is left, every client has been answered. -/
theorem answered_of_waiting (hl : Life s) (hc : Clients s) (hentering : s.entering = []) (hwaiting : s.waiting = []) :
    Answered s := by
  have honce := hc.waits
  rw [hwaiting, List.map_nil, List.nil_append] at honce
  refine ⟨hentering, hwaiting, honce, fun j hj => ?_⟩
  obtain ⟨⟨i, o⟩, hmem, hid⟩ := List.mem_map.mp (honce.mem_iff.mpr (List.mem_map_of_mem hj))
  obtain ⟨rsp, ho, hrec⟩ := hl.copied _ hmem
  simp only at hid ho
  rw [hid] at hmem hrec
  rw [ho] at hmem
  exact ⟨rsp, hmem, hrec⟩

/-- The steps in which neither a new request comes in nor a handler copies a response. -/
def Internal (_ : State) : Act → Prop
  | .drawId _ => False
  | .copy _ => False
  | _ => True

/-- The process is alive: `erase` was not given the end of the pool, and no thread takes the front of an empty list. -/
def State.Survives (s : State) : Prop := s.erasedEnd = false ∧ ∀ th ∈ s.threads, th.phase = .calling → th.res ≠ []

/-- A state in which nothing but that can happen: the threads are through, and `schedLoop` is idle. -/
theorem stuck_rest (h : Served cfg s) (halive : s.Survives) (hstuck : (system cfg).Stuck Internal s) :
    s.pc = .idle ∧ s.runQ = [] ∧ s.dispatcher = none ∧ s.threads = [] ∧ s.finishedQ = [] ∧ s.finishing = none := by
  have hpc : s.pc = .idle := by
    by_contra hpc
    have hsome := schedLoop_isSome cfg h.rounds hpc
    rw [show schedLoop cfg s = none from hstuck .sched trivial] at hsome
    cases hsome
  have hdispatch : dispatcherLoop s = none := hstuck .dispatch trivial
  have hfinish : finishedLoop s = none := hstuck .finish trivial
  have hd : s.dispatcher = none := by
    cases hd : s.dispatcher with
    | none => rfl
    | some p =>
      simp only [dispatcherLoop, hd] at hdispatch
      split at hdispatch <;> cases hdispatch
  have hq : s.runQ = [] := by
    cases hq : s.runQ with
    | nil => rfl
    | cons p runQ => simp [dispatcherLoop, hd, hq] at hdispatch
  have hf : s.finishing = none := by
    cases hf : s.finishing with
    | none => rfl
    | some j => simp [finishedLoop, hf] at hfinish
  have hfq : s.finishedQ = [] := by
    cases hfq : s.finishedQ with
    | nil => rfl
    | cons j finishedQ => simp [finishedLoop, hf, hfq] at hfinish
  have hth : s.threads = [] := by
    cases hth : s.threads with
    | nil => rfl
    | cons th threads =>
      have hrun : runJob 0 msgEmpty s = none := hstuck (.run 0 msgEmpty) trivial
      simp only [runJob, hth, List.getElem?_cons_zero] at hrun
      split at hrun
      · rename_i hph
        rw [if_neg (halive.2 th (by rw [hth]; exact List.mem_cons_self) hph)] at hrun
        cases hrun
      · cases hrun
      · cases hrun
      · cases hrun
  exact ⟨hpc, hq, hd, hth, hfq, hf⟩

/-- At rest no job is waiting: a resource is in the pool, as nobody else can have it. -/
theorem readyQ_of_stuck (h : Draining cfg s) (halive : s.Survives) (hstuck : (system cfg).Stuck Internal s) :
    s.readyQ = [] := by
  obtain ⟨hpc, hq, hd, hth, -, -⟩ := stuck_rest h.served halive hstuck
  have hstock := h.stocked (by rw [hpc]; rfl)
  simp only [State.stock, State.held, hpc, hq, hd, hth, SchedPc.claimed, SchedPc.unclaimed, Option.toList,
    List.flatMap_nil, List.append_nil, List.length_nil, Nat.add_zero] at hstock
  by_contra hready
  have hsched : schedLoop cfg s = none := hstuck .sched trivial
  simp only [schedLoop, hpc] at hsched
  rw [if_pos ⟨List.length_pos_iff.mpr hready, hstock⟩] at hsched
  cases hsched

theorem entering_of_stuck (h : Served cfg s) (halive : s.Survives) (hstuck : (system cfg).Stuck Internal s) :
    s.entering = [] := by
  obtain ⟨hpc, -⟩ := stuck_rest h halive hstuck
  cases hentering : s.entering with
  | nil => rfl
  | cons j entering =>
    have hnone : enqueue 0 s = none := hstuck (.enqueue 0) trivial
    simp [enqueue, hentering, hpc, SchedPc.locksReadyQ] at hnone

/-- At rest all jobs are completed, hence flagged. -/
theorem flagged_of_stuck (h : Draining cfg s) (halive : s.Survives) (hstuck : (system cfg).Stuck Internal s) :
    ∀ j ∈ s.issued, j.jid ∈ s.finished := by
  obtain ⟨hpc, hq, hd, hth, hfq, hf⟩ := stuck_rest h.served halive hstuck
  have hready := readyQ_of_stuck h halive hstuck
  have hplaced := h.served.life.placed
  simp only [State.places, State.runQJobs, State.runningJobs, hpc, hq, hd, hth, hfq, hready, SchedPc.transfer,
    Option.toList, List.map_nil, List.flatMap_nil, List.append_nil, List.nil_append] at hplaced
  intro j hj
  rcases h.clients.flagged j (hplaced.mem_iff.mpr hj) with hfin | hfin
  · exact hfin
  · rw [hf] at hfin
    cases hfin

/-- A handler waits for a job that was issued. -/
theorem Clients.waiting_finished (h : Clients s) (hflagged : ∀ j ∈ s.issued, j.jid ∈ s.finished) :
    ∀ j ∈ s.waiting, j.jid ∈ s.finished := by
  intro j hj
  have hissued : j.jid ∈ s.issued.map Job.jid :=
    h.waits.subset (List.mem_append_left _ (List.mem_map_of_mem hj))
  obtain ⟨k, hk, hid⟩ := List.mem_map.mp hissued
  rw [← hid]
  exact hflagged k hk

/-! ## The steps of the handlers -/

variable {w v : Waits}

/-- The steps a handler has left in its loop if it is not woken. -/
def HandlerPc.left : HandlerPc → Nat
  | .checking => 2
  | .toWait => 1
  | _ => 0

/-- The steps the handlers have left. -/
def Waits.handlersLeft (w : Waits) : Nat := (w.sched.waiting.map fun j => (w.handler j.jid).left).sum

/-- A handler goes on in its loop. -/
theorem handlersLeft_move (h : Attended w) {jid : Nat} {pc : HandlerPc} (hlt : pc.left < (w.handler jid).left) :
    Waits.handlersLeft { w with handler := w.move jid pc } < w.handlersLeft := by
  have hmem : jid ∈ w.sched.waiting.map Job.jid := by
    refine h.only jid ?_ ?_
    · intro he
      rw [he] at hlt
      exact absurd hlt (Nat.not_lt_zero _)
    · intro he
      rw [he] at hlt
      exact absurd hlt (Nat.not_lt_zero _)
  obtain ⟨j, hj, rfl⟩ := List.mem_map.mp hmem
  refine List.sum_lt_sum _ _ (fun k _ => ?_) ⟨j, hj, by simpa [Waits.move] using hlt⟩
  by_cases he : k.jid = j.jid
  · simpa [Waits.move, he] using hlt.le
  · simp [Waits.move, he]

/-- What goes down with every step, first that of the scheduler. -/
def Waits.left (w : Waits) : (Nat × SchedPc × Nat) × Nat × Nat :=
  (w.sched.left, w.notifying.toList.length, w.handlersLeft)

/-- The order it goes down in. -/
def WaitsLess : (Nat × SchedPc × Nat) × Nat × Nat → (Nat × SchedPc × Nat) × Nat × Nat → Prop :=
  Prod.Lex Less (Prod.Lex (· < ·) (· < ·))

theorem wf_waitsLess : WellFounded WaitsLess := wf_less.prod_lex (Nat.lt_wfRel.wf.prod_lex Nat.lt_wfRel.wf)

theorem waitsLess_move (h : Attended w) {jid : Nat} {pc : HandlerPc} (hlt : pc.left < (w.handler jid).left) :
    WaitsLess (Waits.left { w with handler := w.move jid pc }) w.left :=
  .right _ (.right _ (handlersLeft_move h hlt))

/-- No new request comes in. -/
def WaitAct.Quiet (w : Waits) : WaitAct → Prop
  | .act a => Hydrogen.Quiet w.sched a
  | _ => True

/-- Requests come with a positive predicted time, and while there is room for them. -/
def WaitAct.Timed (cfg : Config) (w : Waits) : WaitAct → Prop
  | .act a => Hydrogen.Timed cfg w.sched a
  | _ => True

/-- **Every step goes down**, those of the handlers too. -/
theorem waits_less {a : WaitAct} (h : Draining cfg w.sched) (hw : Attended w) (ha : a.Quiet w)
    (hs : w.step cfg a = some v) : WaitsLess v.left w.left := by
  cases a with
  | act a => exact .left _ _ (step_less h.served ha (act_cases hs).1)
  | check jid =>
    obtain ⟨hpc, rfl⟩ := check_cases hs
    refine waitsLess_move hw ?_
    rw [hpc]
    split <;> decide
  | wait jid =>
    obtain ⟨hpc, rfl⟩ := wait_cases hs
    refine waitsLess_move hw ?_
    rw [hpc]
    decide
  | notifyAll =>
    obtain ⟨jid, hn, rfl⟩ := notifyAll_cases hs
    refine .right _ (.left _ _ ?_)
    rw [hn]
    exact Nat.one_pos

theorem waits_draining {a : WaitAct} (h : Draining cfg w.sched) (ha : a.Timed cfg w) (hs : w.step cfg a = some v) :
    Draining cfg v.sched := by
  cases a with
  | act a => exact step_draining h ha (act_cases hs).1
  | check jid =>
    obtain ⟨-, rfl⟩ := check_cases hs
    exact h
  | wait jid =>
    obtain ⟨-, rfl⟩ := wait_cases hs
    exact h
  | notifyAll =>
    obtain ⟨jid, -, rfl⟩ := notifyAll_cases hs
    exact h

theorem WaitAct.timed_of_quiet {a : WaitAct} (h : a.Quiet w) : a.Timed cfg w := by
  cases a with
  | act a => exact Hydrogen.timed_of_quiet h
  | _ => trivial

/-- Every request is with a handler that has lost its wake-up, or its client has one response: the one received for
it. -/
structure Settled (w : Waits) : Prop where
  entering : w.sched.entering = []
  lost : ∀ j ∈ w.sched.waiting, LostWakeup w j.jid
  once : (w.sched.waiting.map Job.jid ++ w.sched.copied.map Prod.fst).Perm (w.sched.issued.map Job.jid)
  own : ∀ c ∈ w.sched.copied, ∃ rsp, c.2 = some rsp ∧ (c.1, rsp) ∈ w.sched.received

section Stuck

variable {C : Waits → WaitAct → Prop} (hstuck : (waits cfg).Stuck C w) (hact : ∀ a, Quiet w.sched a → C w (.act a))
  (hwait : ∀ jid, C w (.wait jid)) (hnotify : Timely w .notifyAll → C w .notifyAll)
include hstuck hact hwait hnotify

/-- `finishedLoop` has notified everybody, and the other threads are at rest. -/
theorem internal_of_stuck : w.notifying = none ∧ (system cfg).Stuck Internal w.sched := by
  have htimely : Timely w .notifyAll := by
    intro jid _ hpc
    have hnone : w.wait jid = none := hstuck (.wait jid) (hwait jid)
    simp [Waits.wait, hpc] at hnone
  have hquiet : w.notifying = none := by
    have hnone : w.notifyAll = none := hstuck .notifyAll (hnotify htimely)
    unfold Waits.notifyAll at hnone
    split at hnone
    · assumption
    · cases hnone
  refine ⟨hquiet, fun a ha => ?_⟩
  have hnone : Quiet w.sched a → w.act cfg a = none := fun hq => hstuck (.act a) (hact a hq)
  cases a with
  | drawId request => cases ha
  | copy i => cases ha
  | finish =>
    simp only [Waits.act, hquiet] at hnone
    exact Option.map_eq_none_iff.mp (hnone trivial)
  | _ => exact Option.map_eq_none_iff.mp (hnone trivial)

theorem settled_of_stuck (h : Draining cfg w.sched) (hw : Attended w) (halive : w.sched.Survives)
    (hcheck : ∀ jid, C w (.check jid)) : Settled w := by
  obtain ⟨hquiet, hinternal⟩ := internal_of_stuck hstuck hact hwait hnotify
  have hfin := h.clients.waiting_finished (flagged_of_stuck h halive hinternal)
  refine ⟨entering_of_stuck h.served halive hinternal, fun j hj => ?_, h.clients.waits, h.served.life.copied⟩
  exact hw.lost hj (hfin j hj) hquiet (hstuck (.check j.jid) (hcheck _)) (hstuck (.wait j.jid) (hwait _))
    fun i _ => hstuck (.act (.copy i)) (hact _ trivial)

end Stuck

/-- The invariant of such runs. -/
theorem reachable_draining {C : Waits → WaitAct → Prop} (hC : ∀ w a, C w a → a.Timed cfg w)
    (h : (waits cfg).ReachableIf C w) : Draining cfg w.sched ∧ Attended w :=
  h.invariant (I := fun w => Draining cfg w.sched ∧ Attended w) ⟨draining_init cfg, attended_init cfg⟩
    fun _ _ _ hi hc hst => ⟨waits_draining hi.1 (hC _ _ hc) hst, step_attended hi.2 hst⟩

/-- **Every request is answered.** From every state reached with requests of positive predicted times, whatever order the
threads take their steps in, a run without new requests is finite, and when it cannot go on every client has the one
response received for its job, but for those whose handlers have lost their wake-up; unless the process has not
survived. -/
theorem requests_drain (cfg : Config) (w : Waits) (h : (waits cfg).ReachableIf (fun w a => a.Timed cfg w) w) :
    (waits cfg).Quiesces (fun w a => a.Quiet w) (fun v => v.sched.Survives → Settled v) w := by
  refine Machine.quiesces_of_wf (I := fun w => Draining cfg w.sched ∧ Attended w) wf_waitsLess Waits.left ?_ ?_
    (reachable_draining (fun _ _ ha => ha) h)
  · rintro u a v ⟨hd, hw⟩ ha hst
    exact ⟨⟨waits_draining hd (WaitAct.timed_of_quiet ha) hst, step_attended hw hst⟩, waits_less hd hw ha hst⟩
  · rintro v ⟨hd, hw⟩ hstuck halive
    exact settled_of_stuck hstuck (fun _ ha => ha) (fun _ => trivial) (fun _ => trivial) hd hw halive fun _ => trivial

/-- Few jobs wait when a request comes. -/
def WaitAct.Few (w : Waits) : WaitAct → Prop
  | .act a => Hydrogen.Few w.sched a
  | _ => True

instance (w : Waits) : (a : WaitAct) → Decidable (a.Few w)
  | .act a => inferInstanceAs (Decidable (Hydrogen.Few w.sched a))
  | .check _ | .wait _ | .notifyAll => inferInstanceAs (Decidable True)

theorem WaitAct.timed_of_few {a : WaitAct} (h : a.Few w) : a.Timed cfg w := by
  cases a with
  | act a => exact Hydrogen.timed_of_few h
  | _ => trivial

/-- Two requests, one of them in a round and one with its handler, and a run that settles both. -/
theorem requests_drain_two : ∃ w, (waits localConfig).ReachableIf (fun w a => a.Timed localConfig w) w ∧
    w.sched.issued.length = 1 ∧ w.sched.entering.length = 1 ∧
    (waits localConfig).Quiesces (fun w a => a.Quiet w) (fun v => v.sched.Survives → Settled v) w ∧
    ∃ v, (waits localConfig).Continues (fun w a => a.Quiet w) w v ∧ (v.sched.Survives → Settled v) := by
  obtain ⟨w, hfew, hw⟩ := Machine.exists_reachableIf (waits localConfig) (fun w a => a.Few w)
    ((serve (targetRequest 100 100) 8 ++ [Act.drawId (targetRequest 100 100)]).map .act)
    (fun w => (w.sched.issued.length, w.sched.entering.length)) (1, 1) (by decide +kernel)
  have hr : (waits localConfig).ReachableIf (fun w a => a.Timed localConfig w) w :=
    hfew.mono fun _ _ => WaitAct.timed_of_few
  have hdrain := requests_drain localConfig w hr
  exact ⟨w, hr, congrArg Prod.fst hw, congrArg Prod.snd hw, hdrain, hdrain.exists_final⟩

/-- While notifications are timely as well, every client has its response in the end. -/
theorem timely_requests_drain (h : (waits cfg).ReachableIf (fun w a => a.Timed cfg w ∧ Timely w a) w) :
    (waits cfg).Quiesces (fun w a => a.Quiet w ∧ Timely w a)
      (fun v => v.sched.Survives → Answered v.sched) w := by
  have hinv : (Draining cfg w.sched ∧ Attended w) ∧ Awoken w :=
    ⟨reachable_draining (fun _ _ ha => ha.1) h, reachable_awoken (h.mono fun _ _ ha => ha.2)⟩
  refine Machine.quiesces_of_wf (I := fun w => (Draining cfg w.sched ∧ Attended w) ∧ Awoken w) wf_waitsLess Waits.left
    ?_ ?_ hinv
  · rintro u a v ⟨⟨hd, hw⟩, hawoken⟩ ⟨ha, htimely⟩ hst
    exact ⟨⟨⟨waits_draining hd (WaitAct.timed_of_quiet ha) hst, step_attended hw hst⟩,
      step_awoken hawoken htimely hst⟩, waits_less hd hw ha hst⟩
  · rintro v ⟨⟨hd, hw⟩, hawoken⟩ hstuck halive
    have hsettled := settled_of_stuck hstuck (fun _ ha => ⟨ha, trivial⟩) (fun _ => ⟨trivial, trivial⟩)
      (fun htimely => ⟨trivial, htimely⟩) hd hw halive fun _ => ⟨trivial, trivial⟩
    refine answered_of_waiting hd.served.life hd.clients hsettled.entering (List.eq_nil_iff_forall_not_mem.mpr ?_)
    exact fun j hj => not_lost_of_awoken hawoken _ (hsettled.lost j hj)

end Hydrogen
