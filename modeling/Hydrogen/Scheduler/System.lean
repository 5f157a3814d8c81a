import Hydrogen.Lib.Machine
import Hydrogen.Scheduler.Dispatch

/-!
# The scheduler as a system of threads

Five kinds of threads share the scheduler's queues (`Scheduler.cpp`): the handlers of client requests, `schedLoop`,
`dispatcherLoop`, one `runJob` thread for each job that was dispatched, and `finishedLoop`. A step of the system is one
step of one of them, between two operations on a shared queue, so a list of labels is an interleaving.

`ManagedMode` runs under the lock of the ready queue: no handler can push while it does, but `runJob` threads can return
resources between any two of its operations on the pool. Ids are counted without bound.

The state also keeps a history that no thread reads: the jobs issued, those completed, the responses received and
copied, and whether `claimResources` has given `erase` the end of the pool.
-/

namespace Hydrogen

open StdAlgorithm

/-! ## Threads -/

/-- Where `schedLoop` is. -/
inductive SchedPc where
  /-- waiting for a job and a resource -/
  | idle
  /-- inside `ManagedMode`, holding the lock of the ready queue -/
  | managing (p : SchedProg Allocations)
  /-- `ManagedMode` has returned -/
  | chosen (a : Allocations)
  /-- in `serviceAllocations`, about to remove the next job from the ready queue -/
  | servicing (todo : List JobResPair)
  /-- about to claim the resources of a job just removed -/
  | claiming (p : JobResPair) (todo : List JobResPair)
  /-- about to push it on the run queue -/
  | adding (p : JobResPair) (todo : List JobResPair)

/-- The pair between the ready queue and the run queue. -/
def SchedPc.transfer : SchedPc → List JobResPair
  | .claiming p _ => [p]
  | .adding p _ => [p]
  | _ => []

/-- The pairs whose jobs are still to be removed from the ready queue. -/
def SchedPc.todo : SchedPc → List JobResPair
  | .chosen a => a.jobs
  | .servicing todo => todo
  | .claiming _ todo => todo
  | .adding _ todo => todo
  | _ => []

/-- The resources chosen and not claimed yet. -/
def SchedPc.unclaimed : SchedPc → List Resource
  | .chosen a => a.resources
  | .servicing todo => todo.flatMap Prod.snd
  | .claiming p todo => p.2 ++ todo.flatMap Prod.snd
  | .adding _ todo => todo.flatMap Prod.snd
  | _ => []

/-- The resources claimed for the pair in transfer. -/
def SchedPc.claimed : SchedPc → List Resource
  | .adding p _ => p.2
  | _ => []

/-- Whether the ready queue is locked. -/
def SchedPc.locksReadyQ : SchedPc → Bool
  | .managing _ => true
  | _ => false

/-- Where a `runJob` thread is. -/
inductive RunPhase where
  /-- waiting for the dispatcher's result -/
  | calling
  /-- the response is stored; these resources are still to be returned -/
  | returning (todo : List Resource)
  /-- the job is on the finished queue -/
  | finished

/-- A `runJob` thread, with the pair it was started for. -/
structure Thread where
  job : Job
  res : List Resource
  phase : RunPhase

/-- The resources the thread holds. -/
def Thread.held (t : Thread) : List Resource :=
  match t.phase with
  | .calling => t.res
  | .returning todo => todo
  | .finished => []

/-- The job of a thread that has not handed it on. -/
def Thread.running (t : Thread) : List Job :=
  match t.phase with
  | .finished => []
  | _ => [t.job]

/-- The job of a thread that has its response and has not handed it on. -/
def Thread.answered (t : Thread) : List Job :=
  match t.phase with
  | .returning _ => [t.job]
  | _ => []

/-- The bit of a resource id in the `rids` field. -/
def ridBit : Nat → BitVec 8
  | 1 => 0x1
  | 2 => 0x2
  | 3 => 0x4
  | 4 => 0x8
  | _ => 0x0

/-- `packed_rids`: the resource list as bits. -/
def packedRids (res : List Resource) : BitVec 8 := res.foldl (fun packed r => packed ||| ridBit r.rid) 0x0

/-- The message `runJob` sends: the request with its resources. -/
def Thread.request (t : Thread) : Msg := { t.job.req with rids := packedRids t.res }

/-! ## The state -/

/-- The queues, counters and threads, and the history. -/
structure State where
  /-- handlers with an id and a job that is not pushed yet -/
  entering : List Job
  readyQ : List Job
  pc : SchedPc
  resPool : List Resource
  runQ : List JobResPair
  /-- the pair `dispatcherLoop` has popped -/
  dispatcher : Option JobResPair
  /-- the `started` flags set, one entry for each `runJob` thread started -/
  started : List Nat
  threads : List Thread
  finishedQ : List Job
  /-- the job `finishedLoop` has popped -/
  finishing : Option Job
  /-- the `finished` flags set -/
  finished : List Nat
  /-- the `rsp` fields of the jobs -/
  rsp : Nat → Option Msg
  /-- handlers waiting for their job -/
  waiting : List Job
  nextJid : Nat
  resourceId : Nat
  provisionedResources : Nat
  /-- history: the jobs pushed on the ready queue, in order -/
  issued : List Job
  /-- history: the jobs popped from the finished queue -/
  completed : List Job
  /-- history: the responses `runJob` received -/
  received : List (Nat × Msg)
  /-- history: what handlers copied -/
  copied : List (Nat × Option Msg)
  /-- history: `claimResources` did not find a resource and gave `erase` the end -/
  erasedEnd : Bool

/-- What a scheduler is started with, and the arithmetic it computes in. -/
structure Config where
  fp : Arith
  sort : StdSort Job
  dispatcherPortNumber : Nat
  dispatcherHostname : String

/-- The scheduler's `window`. -/
def window : Nat := 5

/-- The scheduler's `strat`. -/
def strat : Strategy := .completionTime

/-! ## Resources -/

variable (cfg : Config)

/-- `provisionResource`. -/
def provisionResource (s : State) : State :=
  { s with
    resPool := s.resPool ++ [⟨s.resourceId, cfg.dispatcherPortNumber, cfg.dispatcherHostname, "DFE"⟩]
    resourceId := s.resourceId + 1
    provisionedResources := s.provisionedResources + 1 }

/-- `deprovisionResource`; it waits for a resource in the pool. -/
def deprovisionResource (s : State) : Option State :=
  if s.provisionedResources > 0 then
    match s.resPool.getLast? with
    | none => none
    | some _ =>
      some { s with provisionedResources := s.provisionedResources - 1, resPool := s.resPool.dropLast }
  else some s

/-- The `beta` of `updateResourcePool`: a slack above it gives a resource back. -/
def beta : ExtRat := .fin 1

/-- `ElasticityManager::updateResourcePool`. -/
def updateResourcePool (a : Allocations) (s : State) : Option State :=
  if (a.getJLOMetric cfg.fp).lt (.fin 0) then some (provisionResource cfg s)
  else if beta.lt (a.getJLOMetric cfg.fp) then deprovisionResource s
  else some s

/-- `claimResources`: erase each resource from the pool by id. The flag says that one was not found, so that `erase` was
given the end; what the library does then is undefined, and the pool is left as it was. -/
def claimResources : List Resource → List Resource → List Resource × Bool
  | [], pool => (pool, false)
  | r :: rs, pool =>
    if pool.any fun x => x.rid == r.rid then claimResources rs (pool.eraseP fun x => x.rid == r.rid)
    else ((claimResources rs pool).1, true)

/-- `removeJobFromReadyQ`. -/
def removeJobFromReadyQ (jid : Nat) (readyQ : List Job) : List Job := readyQ.eraseP fun j => j.jid == jid

/-- `removeJobFromRunQ`. -/
def removeJobFromRunQ (jid : Nat) (runQ : List JobResPair) : List JobResPair := runQ.eraseP fun p => p.1.jid == jid

/-! ## Steps -/

/-- The constructor: one resource is provisioned. -/
def State.init : State :=
  provisionResource cfg
    { entering := [], readyQ := [], pc := .idle, resPool := [], runQ := [], dispatcher := none, started := [],
      threads := [], finishedQ := [], finishing := none, finished := [], rsp := fun _ => none, waiting := [],
      nextJid := 1, resourceId := 1, provisionedResources := 0, issued := [], completed := [], received := [],
      copied := [], erasedEnd := false }

/-- A handler draws the next id and builds its job. -/
def drawId (request : Msg) (s : State) : State :=
  { s with entering := Job.ofRequest request s.nextJid :: s.entering, nextJid := s.nextJid + 1 }

/-- A handler pushes its job on the ready queue and waits for it. -/
def enqueue (i : Nat) (s : State) : Option State :=
  match s.entering[i]? with
  | none => none
  | some j =>
    if s.pc.locksReadyQ then none
    else some { s with
      entering := s.entering.eraseIdx i
      readyQ := j :: s.readyQ
      waiting := j :: s.waiting
      issued := s.issued ++ [j] }

/-- The next step of `schedLoop`. -/
def schedLoop (s : State) : Option State :=
  match s.pc with
  | .idle =>
    if s.readyQ.length > 0 ∧ s.resPool.length > 0 then
      some { s with pc := .managing (managedMode cfg.fp cfg.sort strat s.readyQ window) }
    else none
  | .managing (.ret a) => some { s with pc := .chosen a }
  | .managing p => (p.step s.resPool).map fun r => { s with pc := .managing r.1, resPool := r.2 }
  | .chosen a =>
    if a.noJobs > 0 then (updateResourcePool cfg a s).map fun s => { s with pc := .servicing a.jobs }
    else some { s with pc := .idle }
  | .servicing [] => some { s with pc := .idle }
  | .servicing (p :: todo) =>
    some { s with readyQ := removeJobFromReadyQ p.1.jid s.readyQ, pc := .claiming p todo }
  | .claiming p todo =>
    let claim := claimResources p.2 s.resPool
    some { s with resPool := claim.1, erasedEnd := s.erasedEnd || claim.2, pc := .adding p todo }
  | .adding p todo => some { s with runQ := p :: s.runQ, pc := .servicing todo }

/-- The next step of `dispatcherLoop`. -/
def dispatcherLoop (s : State) : Option State :=
  match s.dispatcher with
  | none =>
    match s.runQ with
    | [] => none
    | p :: runQ => some { s with dispatcher := some p, runQ }
  | some p =>
    if p.1.jid ∈ s.started then some { s with dispatcher := none }
    else some { s with
      dispatcher := none
      started := p.1.jid :: s.started
      threads := ⟨p.1, p.2, .calling⟩ :: s.threads }

/-- The next step of a `runJob` thread; `rsp` is the result it reads if it is waiting for one. Without a resource there
is no next step: the front of an empty list is taken, which the process does not survive. -/
def runJob (i : Nat) (rsp : Msg) (s : State) : Option State :=
  match s.threads[i]? with
  | none => none
  | some t =>
    let others := s.threads.eraseIdx i
    match t.phase with
    | .calling =>
      if t.res = [] then none
      else some { s with
        threads := { t with phase := .returning t.res } :: others
        rsp := fun jid => if jid = t.job.jid then some rsp else s.rsp jid
        received := (t.job.jid, rsp) :: s.received }
    | .returning (r :: todo) => some { s with
        threads := { t with phase := .returning todo } :: others
        resPool := s.resPool ++ [r] }
    | .returning [] => some { s with
        threads := { t with phase := .finished } :: others
        finishedQ := t.job :: s.finishedQ }
    | .finished => some { s with threads := others, runQ := removeJobFromRunQ t.job.jid s.runQ }

/-- The next step of `finishedLoop`. -/
def finishedLoop (s : State) : Option State :=
  match s.finishing with
  | none =>
    match s.finishedQ with
    | [] => none
    | j :: finishedQ => some { s with finishing := some j, finishedQ, completed := j :: s.completed }
  | some j => some { s with finishing := none, finished := j.jid :: s.finished }

/-- A waiting handler sees its job finished and copies the response. -/
def copyResponse (i : Nat) (s : State) : Option State :=
  match s.waiting[i]? with
  | none => none
  | some j =>
    if j.jid ∈ s.finished then
      some { s with waiting := s.waiting.eraseIdx i, copied := (j.jid, s.rsp j.jid) :: s.copied }
    else none

/-- Which thread takes the next step. -/
inductive Act where
  | drawId (request : Msg)
  | enqueue (i : Nat)
  | sched
  | dispatch
  | run (i : Nat) (rsp : Msg)
  | finish
  | copy (i : Nat)

/-- One step of the system. -/
def State.step (s : State) : Act → Option State
  | .drawId request => some (drawId request s)
  | .enqueue i => enqueue i s
  | .sched => schedLoop cfg s
  | .dispatch => dispatcherLoop s
  | .run i rsp => runJob i rsp s
  | .finish => finishedLoop s
  | .copy i => copyResponse i s

/-- The scheduler. -/
def system : Machine State Act := ⟨State.init cfg, fun s a => s.step cfg a⟩

/-- A scheduler on the local machine, for explicit runs. -/
def localConfig : Config := ⟨.ieee, .insertion, 8111, "localhost"⟩

/-- A request with a predicted and a target time. -/
def targetRequest (predicted target : BitVec 32) : Msg :=
  { timedRequest predicted with msgId := MSG_OPTION_PRICE, targetExecutionTimeMillis := target }

/-- A handler brings a request, and `schedLoop` takes `n` steps. -/
def serve (request : Msg) (n : Nat) : List Act := [.drawId request, .enqueue 0] ++ List.replicate n .sched

/-! ## Where jobs and resources are -/

namespace State

/-- The jobs in the run queue. -/
def runQJobs (s : State) : List Job := s.runQ.map Prod.fst

/-- The jobs of the dispatcher and of the threads that have not handed them on. -/
def runningJobs (s : State) : List Job := s.dispatcher.toList.map Prod.fst ++ s.threads.flatMap Thread.running

/-- All jobs, place by place. -/
def places (s : State) : List Job :=
  s.readyQ ++ s.pc.transfer.map Prod.fst ++ s.runQJobs ++ s.runningJobs ++ s.finishedQ ++ s.completed

/-- The resources held for jobs that left the ready queue. -/
def held (s : State) : List Resource :=
  s.pc.claimed ++ s.runQ.flatMap Prod.snd ++ s.dispatcher.toList.flatMap Prod.snd ++ s.threads.flatMap Thread.held

end State

/-! ## What a step does -/

/-- The steps of `schedLoop`. -/
inductive SchedStep (s : State) : State → Prop
  | start : s.pc = .idle → s.readyQ.length > 0 → s.resPool.length > 0 →
      SchedStep s { s with pc := .managing (managedMode cfg.fp cfg.sort strat s.readyQ window) }
  | choose {a : Allocations} : s.pc = .managing (.ret a) → SchedStep s { s with pc := .chosen a }
  | operate {p p' : SchedProg Allocations} {resPool : List Resource} : s.pc = .managing p →
      p.step s.resPool = some (p', resPool) → SchedStep s { s with pc := .managing p', resPool }
  | adjust {a : Allocations} {u : State} : s.pc = .chosen a → a.noJobs > 0 → updateResourcePool cfg a s = some u →
      SchedStep s { u with pc := .servicing a.jobs }
  | giveUp {a : Allocations} : s.pc = .chosen a → SchedStep s { s with pc := .idle }
  | rest : s.pc = .servicing [] → SchedStep s { s with pc := .idle }
  | remove {p : JobResPair} {todo : List JobResPair} : s.pc = .servicing (p :: todo) →
      SchedStep s { s with readyQ := removeJobFromReadyQ p.1.jid s.readyQ, pc := .claiming p todo }
  | claim {p : JobResPair} {todo : List JobResPair} : s.pc = .claiming p todo →
      SchedStep s { s with
        resPool := (claimResources p.2 s.resPool).1
        erasedEnd := s.erasedEnd || (claimResources p.2 s.resPool).2
        pc := .adding p todo }
  | add {p : JobResPair} {todo : List JobResPair} : s.pc = .adding p todo →
      SchedStep s { s with runQ := p :: s.runQ, pc := .servicing todo }

/-- The steps of `dispatcherLoop`. -/
inductive DispatchStep (s : State) : State → Prop
  | pop {p : JobResPair} {runQ : List JobResPair} : s.dispatcher = none → s.runQ = p :: runQ →
      DispatchStep s { s with dispatcher := some p, runQ }
  | skip {p : JobResPair} : s.dispatcher = some p → p.1.jid ∈ s.started → DispatchStep s { s with dispatcher := none }
  | start {p : JobResPair} : s.dispatcher = some p →
      DispatchStep s { s with
        dispatcher := none
        started := p.1.jid :: s.started
        threads := ⟨p.1, p.2, .calling⟩ :: s.threads }

/-- The steps of the `runJob` thread `th`, with its `others`. -/
inductive RunStep (s : State) (th : Thread) (others : List Thread) : State → Prop
  | answer (rsp : Msg) : th.phase = .calling → th.res ≠ [] →
      RunStep s th others { s with
        threads := { th with phase := .returning th.res } :: others
        rsp := fun jid => if jid = th.job.jid then some rsp else s.rsp jid
        received := (th.job.jid, rsp) :: s.received }
  | giveBack {r : Resource} {todo : List Resource} : th.phase = .returning (r :: todo) →
      RunStep s th others { s with
        threads := { th with phase := .returning todo } :: others
        resPool := s.resPool ++ [r] }
  | finish : th.phase = .returning [] →
      RunStep s th others { s with
        threads := { th with phase := .finished } :: others
        finishedQ := th.job :: s.finishedQ }
  | leave : th.phase = .finished →
      RunStep s th others { s with threads := others, runQ := removeJobFromRunQ th.job.jid s.runQ }

/-- The steps of `finishedLoop`. -/
inductive FinishStep (s : State) : State → Prop
  | pop {j : Job} {finishedQ : List Job} : s.finishing = none → s.finishedQ = j :: finishedQ →
      FinishStep s { s with finishing := some j, finishedQ, completed := j :: s.completed }
  | flag {j : Job} : s.finishing = some j → FinishStep s { s with finishing := none, finished := j.jid :: s.finished }

section Cases

variable {cfg : Config} {s t : State}

theorem enqueue_cases {i : Nat} (hs : enqueue i s = some t) : ∃ j, s.entering[i]? = some j ∧
    s.pc.locksReadyQ = false ∧ t = { s with
      entering := s.entering.eraseIdx i
      readyQ := j :: s.readyQ
      waiting := j :: s.waiting
      issued := s.issued ++ [j] } := by
  unfold enqueue at hs
  split at hs
  · cases hs
  · rename_i j hj
    split at hs
    · cases hs
    · rename_i hlock
      exact ⟨j, hj, eq_false_of_ne_true hlock, (Option.some.inj hs).symm⟩

theorem copyResponse_cases {i : Nat} (hs : copyResponse i s = some t) : ∃ j, s.waiting[i]? = some j ∧
    j.jid ∈ s.finished ∧
    t = { s with waiting := s.waiting.eraseIdx i, copied := (j.jid, s.rsp j.jid) :: s.copied } := by
  unfold copyResponse at hs
  split at hs
  · cases hs
  · rename_i j hj
    split at hs
    · rename_i hfin
      exact ⟨j, hj, hfin, (Option.some.inj hs).symm⟩
    · cases hs

theorem schedLoop_cases (hs : schedLoop cfg s = some t) : SchedStep cfg s t := by
  unfold schedLoop at hs
  split at hs
  · rename_i hpc
    split at hs
    · rename_i hpos
      obtain rfl := Option.some.inj hs
      exact .start hpc hpos.1 hpos.2
    · cases hs
  · rename_i a hpc
    obtain rfl := Option.some.inj hs
    exact .choose hpc
  · rename_i p _ hpc
    obtain ⟨⟨p', resPool⟩, hstep, rfl⟩ := Option.map_eq_some_iff.mp hs
    exact .operate hpc hstep
  · rename_i a hpc
    split at hs
    · rename_i hjobs
      obtain ⟨u, hu, rfl⟩ := Option.map_eq_some_iff.mp hs
      exact .adjust hpc hjobs hu
    · obtain rfl := Option.some.inj hs
      exact .giveUp hpc
  · rename_i hpc
    obtain rfl := Option.some.inj hs
    exact .rest hpc
  · rename_i p todo hpc
    obtain rfl := Option.some.inj hs
    exact .remove hpc
  · rename_i p todo hpc
    obtain rfl := Option.some.inj hs
    exact .claim hpc
  · rename_i p todo hpc
    obtain rfl := Option.some.inj hs
    exact .add hpc

theorem dispatcherLoop_cases (hs : dispatcherLoop s = some t) : DispatchStep s t := by
  unfold dispatcherLoop at hs
  split at hs
  · rename_i hd
    split at hs
    · cases hs
    · rename_i p runQ hq
      obtain rfl := Option.some.inj hs
      exact .pop hd hq
  · rename_i p hd
    split at hs
    · rename_i hstarted
      obtain rfl := Option.some.inj hs
      exact .skip hd hstarted
    · obtain rfl := Option.some.inj hs
      exact .start hd

theorem runJob_cases {i : Nat} {rsp : Msg} (hs : runJob i rsp s = some t) :
    ∃ th, s.threads[i]? = some th ∧ RunStep s th (s.threads.eraseIdx i) t := by
  unfold runJob at hs
  split at hs
  · cases hs
  · rename_i th hth
    refine ⟨th, hth, ?_⟩
    simp only at hs
    split at hs
    · rename_i hph
      split at hs
      · cases hs
      · rename_i hres
        obtain rfl := Option.some.inj hs
        exact .answer rsp hph hres
    · rename_i r todo hph
      obtain rfl := Option.some.inj hs
      exact .giveBack hph
    · rename_i hph
      obtain rfl := Option.some.inj hs
      exact .finish hph
    · rename_i hph
      obtain rfl := Option.some.inj hs
      exact .leave hph

theorem finishedLoop_cases (hs : finishedLoop s = some t) : FinishStep s t := by
  unfold finishedLoop at hs
  split at hs
  · rename_i hf
    split at hs
    · cases hs
    · rename_i j finishedQ hq
      obtain rfl := Option.some.inj hs
      exact .pop hf hq
  · rename_i j hf
    obtain rfl := Option.some.inj hs
    exact .flag hf

/-- Only the pool and its counters. -/
theorem updateResourcePool_frame {a : Allocations} (hs : updateResourcePool cfg a s = some t) :
    t = { s with
      resPool := t.resPool
      resourceId := t.resourceId
      provisionedResources := t.provisionedResources } := by
  unfold updateResourcePool deprovisionResource at hs
  split at hs
  · obtain rfl := Option.some.inj hs; rfl
  split at hs
  · split at hs
    · split at hs
      · cases hs
      · obtain rfl := Option.some.inj hs; rfl
    · obtain rfl := Option.some.inj hs; rfl
  · obtain rfl := Option.some.inj hs; rfl

/-- What a step does to the ready queue: nothing, a push at the front or a removal. -/
theorem step_readyQ {a : Act} (hs : s.step cfg a = some t) :
    (t.readyQ = s.readyQ ∧ t.issued = s.issued) ∨ (∃ j, t.readyQ = j :: s.readyQ ∧ t.issued = s.issued ++ [j]) ∨
      ∃ jid, t.readyQ = removeJobFromReadyQ jid s.readyQ ∧ t.issued = s.issued := by
  cases a with
  | drawId request =>
    obtain rfl := Option.some.inj hs
    exact .inl ⟨rfl, rfl⟩
  | enqueue i =>
    obtain ⟨j, -, -, rfl⟩ := enqueue_cases hs
    exact .inr (.inl ⟨j, rfl, rfl⟩)
  | sched =>
    cases schedLoop_cases hs with
    | adjust _ _ hu =>
      rw [updateResourcePool_frame hu]
      exact .inl ⟨rfl, rfl⟩
    | remove _ => exact .inr (.inr ⟨_, rfl, rfl⟩)
    | _ => exact .inl ⟨rfl, rfl⟩
  | dispatch =>
    cases dispatcherLoop_cases hs with
    | _ => exact .inl ⟨rfl, rfl⟩
  | run i rsp =>
    obtain ⟨th, -, hrun⟩ := runJob_cases hs
    cases hrun with
    | _ => exact .inl ⟨rfl, rfl⟩
  | finish =>
    cases finishedLoop_cases hs with
    | _ => exact .inl ⟨rfl, rfl⟩
  | copy i =>
    obtain ⟨j, -, -, rfl⟩ := copyResponse_cases hs
    exact .inl ⟨rfl, rfl⟩

/-- What a step does to the `finished` flags: at most it sets the one of the job in the hands of `finishedLoop`. -/
theorem step_finished {a : Act} (hs : s.step cfg a = some t) :
    t.finished = s.finished ∨ ∃ j ∈ s.finishing, t.finished = j.jid :: s.finished := by
  cases a with
  | drawId request =>
    obtain rfl := Option.some.inj hs
    exact .inl rfl
  | enqueue i =>
    obtain ⟨j, -, -, rfl⟩ := enqueue_cases hs
    exact .inl rfl
  | sched =>
    cases schedLoop_cases hs with
    | adjust _ _ hu =>
      rw [updateResourcePool_frame hu]
      exact .inl rfl
    | _ => exact .inl rfl
  | dispatch =>
    cases dispatcherLoop_cases hs with
    | _ => exact .inl rfl
  | run i rsp =>
    obtain ⟨th, -, hrun⟩ := runJob_cases hs
    cases hrun with
    | _ => exact .inl rfl
  | finish =>
    cases finishedLoop_cases hs with
    | pop _ _ => exact .inl rfl
    | flag hf => exact .inr ⟨_, hf, rfl⟩
  | copy i =>
    obtain ⟨j, -, -, rfl⟩ := copyResponse_cases hs
    exact .inl rfl

end Cases

/-- Taking a thread out of the list and putting another in front. -/
theorem flatMap_thread {β : Type} (f : Thread → List β) {ts : List Thread} {i : Nat} {t : Thread}
    (h : ts[i]? = some t) : (ts.flatMap f).Perm (f t ++ (ts.eraseIdx i).flatMap f) := by
  obtain ⟨hlt, rfl⟩ := List.getElem?_eq_some_iff.mp h
  simpa using (List.getElem_cons_eraseIdx_perm hlt).symm.flatMap_right f

end Hydrogen
