import Hydrogen.Scheduler.Drain

/-!
# The workers of the server

Handlers run on the workers of `MultiThreadedTCPServer`. A worker that has read from a connection stays in `handle_read`
for the whole session: it calls `handle_request`, which waits for the job, writes the reply and reads again, until the
peer is done. There are `NUM_THREADS` workers, so that never more jobs are unfinished (`unfinished_le_workers`). The
window of the algorithms is larger: `ManagedMode` always decides about all ready jobs, whatever the load.
-/

namespace Hydrogen

open StdAlgorithm

/-! ## The code -/

/-- `NUM_THREADS` of the scheduler. -/
def NUM_THREADS : Nat := 4

/-- The scheduler with the workers of its server. -/
structure Pool where
  sched : State
  /-- workers between two messages of a session -/
  reading : Nat

namespace Pool

/-- The workers in a session: between two messages, or in `concurrentHandler`. -/
def busy (p : Pool) : Nat := p.reading + (p.sched.entering.length + p.sched.waiting.length)

/-- What happens on a worker, and the steps of the other threads. -/
inductive PoolAct where
  /-- an idle worker takes a connection -/
  | take
  /-- a worker reads a request for a job -/
  | request (m : Msg)
  /-- a handler pushes its job, or another thread takes a step -/
  | act (a : Act)
  /-- a handler copies the response, and its worker goes on with the session -/
  | reply (i : Nat)
  /-- a worker reads the last message of a session -/
  | close

variable (cfg : Config)

/-- One step. -/
def step (p : Pool) : PoolAct → Option Pool
  | .take => if p.busy < NUM_THREADS then some { p with reading := p.reading + 1 } else none
  | .request m =>
    if 0 < p.reading ∧ (m.msgId = MSG_OPTION_PRICE ∨ m.msgId = MSG_MOVING_AVG) then
      some ⟨drawId m p.sched, p.reading - 1⟩
    else none
  | .act a =>
    match a with
    | .drawId _ => none
    | .copy _ => none
    | a => (p.sched.step cfg a).map fun sched => { p with sched }
  | .reply i => (copyResponse i p.sched).map fun sched => ⟨sched, p.reading + 1⟩
  | .close => if 0 < p.reading then some { p with reading := p.reading - 1 } else none

end Pool

/-- The scheduler behind its server. -/
def pooled (cfg : Config) : Machine Pool Pool.PoolAct := ⟨⟨State.init cfg, 0⟩, fun p a => p.step cfg a⟩

/-! ## What is in the handlers -/

variable {cfg : Config} {s t : State} {p q : Pool}

/-- Pushing a job keeps the number of handlers; the steps of the other threads do not see them. -/
theorem handlers_eq {a : Act} (hs : s.step cfg a = some t) (hdraw : ∀ m, a ≠ .drawId m) (hcopy : ∀ i, a ≠ .copy i) :
    t.entering.length + t.waiting.length = s.entering.length + s.waiting.length := by
  cases a with
  | drawId m => exact absurd rfl (hdraw m)
  | copy i => exact absurd rfl (hcopy i)
  | enqueue i =>
    obtain ⟨j, hj, -, rfl⟩ := enqueue_cases hs
    obtain ⟨hlt, -⟩ := List.getElem?_eq_some_iff.mp hj
    simp only [List.length_eraseIdx_of_lt hlt, List.length_cons]
    omega
  | sched =>
    cases schedLoop_cases hs with
    | adjust _ _ hu => rw [updateResourcePool_frame hu]
    | _ => rfl
  | dispatch =>
    cases dispatcherLoop_cases hs with
    | _ => rfl
  | run i rsp =>
    obtain ⟨th, -, hrun⟩ := runJob_cases hs
    cases hrun with
    | _ => rfl
  | finish =>
    cases finishedLoop_cases hs with
    | _ => rfl

/-- What a step of the pool does. -/
inductive Pool.Step (cfg : Config) (p : Pool) : Pool → Prop
  | take : p.busy < NUM_THREADS → Step cfg p { p with reading := p.reading + 1 }
  | request (m : Msg) : 0 < p.reading → Step cfg p ⟨drawId m p.sched, p.reading - 1⟩
  | act {a : Act} {t : State} : (∀ m, a ≠ .drawId m) → (∀ i, a ≠ .copy i) → p.sched.step cfg a = some t →
      Step cfg p { p with sched := t }
  | reply {i : Nat} {t : State} : copyResponse i p.sched = some t → Step cfg p ⟨t, p.reading + 1⟩
  | close : 0 < p.reading → Step cfg p { p with reading := p.reading - 1 }

theorem Pool.step_cases {a : Pool.PoolAct} (hs : p.step cfg a = some q) : Pool.Step cfg p q := by
  cases a with
  | take =>
    rw [Pool.step] at hs
    split at hs
    · cases hs
      exact .take ‹_›
    · cases hs
  | request m =>
    rw [Pool.step] at hs
    split at hs
    · rename_i hguard
      cases hs
      exact .request m hguard.1
    · cases hs
  | act a =>
    have hmove : ∀ {t : State}, (∀ m, a ≠ .drawId m) → (∀ i, a ≠ .copy i) →
        (p.sched.step cfg a).map (fun sched => { p with sched }) = some q → Pool.Step cfg p q := by
      intro t hdraw hcopy hmap
      obtain ⟨t, ht, rfl⟩ := Option.map_eq_some_iff.mp hmap
      exact .act hdraw hcopy ht
    cases a with
    | drawId m => cases hs
    | copy i => cases hs
    | _ => exact hmove (t := p.sched) (fun m h => by cases h) (fun i h => by cases h) hs
  | reply i =>
    obtain ⟨t, ht, rfl⟩ := Option.map_eq_some_iff.mp hs
    exact .reply ht
  | close =>
    rw [Pool.step] at hs
    split at hs
    · cases hs
      exact .close ‹_›
    · cases hs

/-- The scheduler behind the server is the scheduler, and no more workers are busy than there are. -/
structure Staffed (cfg : Config) (p : Pool) : Prop where
  reachable : (system cfg).Reachable p.sched
  busy : p.busy ≤ NUM_THREADS

theorem step_staffed {a : Pool.PoolAct} (h : Staffed cfg p) (hs : p.step cfg a = some q) : Staffed cfg q := by
  have hbusy := h.busy
  unfold Pool.busy at hbusy
  cases Pool.step_cases hs with
  | take hfree =>
    refine ⟨h.reachable, ?_⟩
    unfold Pool.busy at hfree ⊢
    dsimp only
    omega
  | request m hpos =>
    refine ⟨.step (a := .drawId m) h.reachable trivial rfl, ?_⟩
    simp only [Pool.busy, drawId, List.length_cons]
    omega
  | @act a t hdraw hcopy ht =>
    refine ⟨.step h.reachable trivial ht, ?_⟩
    have hsame := handlers_eq ht hdraw hcopy
    unfold Pool.busy
    dsimp only
    omega
  | @reply i t ht =>
    refine ⟨.step (a := .copy i) h.reachable trivial ht, ?_⟩
    obtain ⟨j, hj, -, rfl⟩ := copyResponse_cases ht
    obtain ⟨hlt, -⟩ := List.getElem?_eq_some_iff.mp hj
    simp only [Pool.busy, List.length_eraseIdx_of_lt hlt]
    omega
  | close hpos =>
    refine ⟨h.reachable, ?_⟩
    unfold Pool.busy
    dsimp only
    omega

theorem staffed_init (cfg : Config) : Staffed cfg (pooled cfg).init where
  reachable := .init
  busy := Nat.zero_le _

theorem pooled_staffed (h : (pooled cfg).Reachable p) : Staffed cfg p :=
  h.invariant (I := Staffed cfg) (staffed_init cfg) fun _ _ _ hi hs => step_staffed hi hs

/-! ## What is in the queues -/

/-- The jobs that are not completed. -/
def State.unfinished (s : State) : List Job :=
  s.readyQ ++ s.pc.transfer.map Prod.fst ++ s.runQJobs ++ s.runningJobs ++ s.finishedQ

/-- Every unfinished job has a handler that waits for it. -/
theorem unfinished_le_waiting (h : (system cfg).Reachable s) : s.unfinished.length ≤ s.waiting.length := by
  have hl := reachable_life h
  have hc := reachable_clients h
  have hplaced := hl.placed.length_eq
  have hwaits := hc.waits.length_eq
  have hcopied : s.copied.length ≤ s.completed.length := by
    have hnd : (s.copied.map Prod.fst).Nodup :=
      (List.nodup_append.mp (hc.waits.nodup_iff.mpr hl.issued_ids_nodup)).2.1
    have hsub : s.copied.map Prod.fst ⊆ s.completed.map Job.jid := by
      intro i hi
      obtain ⟨c, hmem, rfl⟩ := List.mem_map.mp hi
      exact reachable_copied h c hmem
    simpa using (hnd.subperm hsub).length_le
  simp only [State.places, List.length_append, List.length_map] at hplaced hwaits
  simp only [State.unfinished, List.length_append, List.length_map]
  omega

/-! ## The window -/

/-- A window with room for the whole ready queue does not matter. -/
theorem managedMode_window (fp : Arith) (sort : StdSort Job) (strat : Strategy) {rq : List Job} {w : Nat}
    (h : rq.length ≤ w) : managedMode fp sort strat rq w = managedMode fp sort strat rq rq.length := by
  have htrials : trials rq w (algVec fp sort) = trials rq rq.length (algVec fp sort) := by
    simp only [algVec, trials, schedule, fcfsMax, fcfsMin, fcfsAsManyAsPos, sjtf, priority,
      List.take_of_length_le h, List.take_length]
  unfold managedMode
  rw [htrials]

/-- **No more jobs than workers**: in every run behind the server, the jobs that are entering or not completed are no
more than the workers, and `ManagedMode` does what it would do with any larger window. -/
theorem unfinished_le_workers (cfg : Config) (p : Pool) (h : (pooled cfg).Reachable p) :
    (system cfg).Reachable p.sched ∧ p.sched.entering.length + p.sched.unfinished.length ≤ NUM_THREADS ∧
      ∀ w, NUM_THREADS ≤ w →
        managedMode cfg.fp cfg.sort strat p.sched.readyQ w =
          managedMode cfg.fp cfg.sort strat p.sched.readyQ window := by
  have hstaff := pooled_staffed h
  have hbusy := hstaff.busy
  have hunfinished := unfinished_le_waiting hstaff.reachable
  unfold Pool.busy at hbusy
  have hready : p.sched.readyQ.length ≤ p.sched.unfinished.length := by
    simp only [State.unfinished, List.length_append]
    omega
  refine ⟨hstaff.reachable, by omega, fun w hw => ?_⟩
  have hwindow : NUM_THREADS ≤ window := by decide
  rw [managedMode_window _ _ _ (by omega : p.sched.readyQ.length ≤ w),
    managedMode_window _ _ _ (by omega : p.sched.readyQ.length ≤ window)]

/-- Four clients at once. -/
def fourClients : List Pool.PoolAct :=
  List.replicate 4 .take ++ List.replicate 4 (.request (targetRequest 1000 1000)) ++ List.replicate 4 (.act (.enqueue 0))

/-- Every worker has a job, and a fifth client waits. -/
theorem unfinished_le_workers_four : ∃ p, (pooled localConfig).Reachable p ∧ p.sched.unfinished.length = NUM_THREADS ∧
    (system localConfig).Reachable p.sched ∧ p.sched.entering.length + p.sched.unfinished.length ≤ NUM_THREADS := by
  obtain ⟨p, hr, hp⟩ := Machine.exists_reachableIf (pooled localConfig) (fun _ _ => True) fourClients
    (fun p => p.sched.unfinished.length) NUM_THREADS (by decide +kernel)
  obtain ⟨hsys, hle, -⟩ := unfinished_le_workers localConfig p hr
  exact ⟨p, hr, hp, hsys, hle⟩

end Hydrogen
