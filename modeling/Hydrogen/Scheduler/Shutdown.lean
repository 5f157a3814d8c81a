import Hydrogen.Scheduler.Payload
import Hydrogen.Scheduler.Workers

/-!
# How the server comes down

`SIGINT`, from outside or raised by the worker that has read `MSG_TERM`, lets an idle worker run `handle_stop`: the
`io_service` is stopped, so that a worker leaves `run` when it has no handler, and all workers are interrupted. A worker
sees this only where it waits for its job, in `jCondVar->wait`, which then throws, also when the job is finished. When
all workers have left, `join_all` returns and the destructor of `Scheduler` interrupts and joins `schedLoop`,
`dispatcherLoop` and `finishedLoop`, one after the other.

A handler that is interrupted returns a response that is all zero, so nothing is written, and its worker reads again from
a client that is still waiting for its reply. So the server comes down only if it has answered everybody
(`ended_answered`), and never once a handler was caught waiting (`stop_hangs`).

The handlers are those of `Waits`, and may be woken for no reason. Clients stay until they have their reply, as
`getResult` does: they send no `MSG_DONE` ahead. A handler that was interrupted is kept among those that wait, as it
will never copy.
-/

namespace Hydrogen

open StdAlgorithm Exec

/-! ## The code -/

/-- How far the signal has come. -/
inductive StopPhase where
  /-- there was none -/
  | serving
  /-- `handle_stop` is still to be run -/
  | signalled
  /-- `handle_stop` was run -/
  | stopped
  deriving DecidableEq

/-- `SIGINT`; only the first one has a handler. -/
def StopPhase.signal : StopPhase → StopPhase
  | .serving => .signalled
  | phase => phase

/-- A handler that is blocked on its condition variable resumes, for no reason. -/
def Waits.rouse (jid : Nat) (w : Waits) : Waits :=
  if w.handler jid = .waiting then { w with handler := w.move jid .checking } else w

/-- The server with its workers, also those that have no connection. -/
structure Server where
  waits : Waits
  /-- workers between two messages of a session -/
  reading : Nat
  phase : StopPhase
  /-- workers in `io_service::run` without a handler -/
  idle : Nat
  /-- the jobs whose handlers are in `jCondVar->wait`, woken or not -/
  sleeping : List Nat
  /-- the jobs whose handlers were interrupted; their workers read again, and their clients wait for a reply -/
  interrupted : List Nat
  /-- workers that have left `io_service::run` -/
  ended : Nat
  /-- how many of the three loops the destructor has joined -/
  joined : Nat

/-- Whether a loop, the `k`-th to be joined, is where it waits for its queue. -/
def Waits.atWait (w : Waits) : Nat → Bool
  | 0 =>
    match w.sched.pc with
    | .idle => true
    | _ => false
  | 1 => w.sched.dispatcher.isNone
  | 2 => w.sched.finishing.isNone && w.notifying.isNone
  | _ => false

namespace Server

/-- The scheduler and the workers in a session. -/
def pool (s : Server) : Pool := ⟨s.waits.sched, s.reading⟩

/-- The handler of a job is neither in `jCondVar->wait` nor was it interrupted. -/
def Awake (s : Server) (jid : Nat) : Prop := jid ∉ s.sleeping ∧ jid ∉ s.interrupted

instance (s : Server) (jid : Nat) : Decidable (s.Awake jid) := inferInstanceAs (Decidable (_ ∧ _))

/-- The loop that takes the step has not been joined. -/
def Alive (s : Server) : Act → Prop
  | .sched => s.joined ≤ 0
  | .dispatch => s.joined ≤ 1
  | .finish => s.joined ≤ 2
  | _ => True

instance (s : Server) : (a : Act) → Decidable (s.Alive a)
  | .sched | .dispatch | .finish => inferInstanceAs (Decidable (_ ≤ _))
  | .drawId _ | .enqueue _ | .run _ _ | .copy _ => inferInstanceAs (Decidable True)

/-- What happens. -/
inductive ServerAct where
  /-- an idle worker takes a connection -/
  | take
  /-- a worker reads a request for a job -/
  | request (m : Msg)
  /-- a handler pushes its job, or another thread takes a step -/
  | act (a : Act)
  /-- a handler looks at the flag -/
  | check (jid : Nat)
  /-- a handler calls `jCondVar->wait` -/
  | wait (jid : Nat)
  /-- `finishedLoop` notifies the handler of the job whose flag it has set -/
  | notifyAll
  /-- a handler comes back from `jCondVar->wait`, for whatever reason -/
  | resume (jid : Nat)
  /-- a handler copies the response, and its worker goes on with the session -/
  | reply (i : Nat)
  /-- a worker reads the last message of a session -/
  | close
  /-- a worker reads `MSG_TERM` -/
  | term
  /-- `SIGINT` from outside -/
  | signal
  /-- an idle worker runs `handle_stop` -/
  | stop
  /-- a worker leaves `io_service::run` -/
  | leave
  /-- the loop that is being joined is interrupted -/
  | join

variable (cfg : Config)

/-- One step. -/
def step (s : Server) : ServerAct → Option Server
  | .take =>
    if s.phase ≠ .stopped ∧ 0 < s.idle then some { s with reading := s.reading + 1, idle := s.idle - 1 } else none
  | .request m =>
    if 0 < s.reading ∧ (m.msgId = MSG_OPTION_PRICE ∨ m.msgId = MSG_MOVING_AVG) then
      (s.waits.act cfg (.drawId m)).map fun waits => { s with waits, reading := s.reading - 1 }
    else none
  | .act a =>
    match a with
    | .drawId _ => none
    | .copy _ => none
    | a => if s.Alive a then (s.waits.act cfg a).map fun waits => { s with waits } else none
  | .check jid => if s.Awake jid then (s.waits.check jid).map fun waits => { s with waits } else none
  | .wait jid =>
    if s.Awake jid then
      (s.waits.wait jid).map fun waits =>
        -- a worker that was interrupted before does not get to sleep
        if s.phase = .stopped then { s with waits, interrupted := jid :: s.interrupted }
        else { s with waits, sleeping := jid :: s.sleeping }
    else none
  | .notifyAll => if s.Alive .finish then s.waits.notifyAll.map fun waits => { s with waits } else none
  | .resume jid =>
    if jid ∈ s.sleeping then
      if s.phase = .stopped then
        some { s with sleeping := s.sleeping.erase jid, interrupted := jid :: s.interrupted }
      else some { s with waits := s.waits.rouse jid, sleeping := s.sleeping.erase jid }
    else none
  | .reply i =>
    if (s.waits.sched.waiting[i]?).all fun j => s.Awake j.jid then
      (s.waits.act cfg (.copy i)).map fun waits => { s with waits, reading := s.reading + 1 }
    else none
  | .close => if 0 < s.reading then some { s with reading := s.reading - 1, idle := s.idle + 1 } else none
  | .term =>
    if 0 < s.reading then
      some { s with reading := s.reading - 1, idle := s.idle + 1, phase := s.phase.signal }
    else none
  | .signal => if s.phase = .serving then some { s with phase := .signalled } else none
  | .stop => if s.phase = .signalled ∧ 0 < s.idle then some { s with phase := .stopped } else none
  | .leave =>
    if s.phase = .stopped ∧ 0 < s.idle then some { s with idle := s.idle - 1, ended := s.ended + 1 } else none
  | .join => if s.ended = NUM_THREADS ∧ s.waits.atWait s.joined then some { s with joined := s.joined + 1 } else none

end Server

/-- The server. -/
def server (cfg : Config) : Machine Server Server.ServerAct :=
  ⟨⟨(waits cfg).init, 0, .serving, NUM_THREADS, [], [], 0, 0⟩, fun s a => s.step cfg a⟩

/-- The reply of `handle_request` when `concurrentHandler` was interrupted: the response as it was allocated. -/
def interruptedReply (meanWaitTime : BitVec 32) (request : Msg) : Msg :=
  let response := callocMsg (BitVec.ofNat 64 sizeofMsg + request.expDataSizeBytes)
  if request.msgId = MSG_MOVING_AVG then { response with avgWt := meanWaitTime } else response

/-! ## What a step does -/

variable {cfg : Config} {s t : Server}

theorem Waits.rouse_sched (jid : Nat) (w : Waits) : (w.rouse jid).sched = w.sched := by
  unfold rouse
  split <;> rfl

/-- Whoever is blocked after it was blocked before, and is another one. -/
theorem Waits.waiting_of_rouse {jid k : Nat} {w : Waits} (h : (w.rouse jid).handler k = .waiting) :
    w.handler k = .waiting ∧ k ≠ jid := by
  unfold rouse at h
  split at h
  · unfold move at h
    dsimp only at h
    split at h
    · cases h
    · exact ⟨h, ‹_›⟩
  · rename_i hpc
    exact ⟨h, fun he => hpc (he ▸ h)⟩

namespace Server

/-- The steps, with their labels. -/
inductive Moves (cfg : Config) (s : Server) : ServerAct → Server → Prop
  | take : s.phase ≠ .stopped → 0 < s.idle →
      Moves cfg s .take { s with reading := s.reading + 1, idle := s.idle - 1 }
  | request {m : Msg} {w : Waits} : 0 < s.reading → m.msgId = MSG_OPTION_PRICE ∨ m.msgId = MSG_MOVING_AVG →
      s.waits.act cfg (.drawId m) = some w →
      Moves cfg s (.request m) { s with waits := w, reading := s.reading - 1 }
  | act {a : Act} {w : Waits} : s.Alive a → (∀ m, a ≠ .drawId m) → (∀ i, a ≠ .copy i) → s.waits.act cfg a = some w →
      Moves cfg s (.act a) { s with waits := w }
  | check {jid : Nat} {w : Waits} : s.waits.check jid = some w → Moves cfg s (.check jid) { s with waits := w }
  | wait {jid : Nat} {w : Waits} : s.Awake jid → s.waits.wait jid = some w → s.phase ≠ .stopped →
      Moves cfg s (.wait jid) { s with waits := w, sleeping := jid :: s.sleeping }
  | caught {jid : Nat} {w : Waits} : s.Awake jid → s.waits.wait jid = some w → s.phase = .stopped →
      Moves cfg s (.wait jid) { s with waits := w, interrupted := jid :: s.interrupted }
  | notifyAll {w : Waits} : s.waits.notifyAll = some w → Moves cfg s .notifyAll { s with waits := w }
  | resume {jid : Nat} : jid ∈ s.sleeping → s.phase ≠ .stopped →
      Moves cfg s (.resume jid) { s with waits := s.waits.rouse jid, sleeping := s.sleeping.erase jid }
  | interrupt {jid : Nat} : jid ∈ s.sleeping → s.phase = .stopped →
      Moves cfg s (.resume jid) { s with sleeping := s.sleeping.erase jid, interrupted := jid :: s.interrupted }
  | reply {i : Nat} {j : Job} {w : Waits} : s.waits.sched.waiting[i]? = some j → s.Awake j.jid →
      s.waits.act cfg (.copy i) = some w → Moves cfg s (.reply i) { s with waits := w, reading := s.reading + 1 }
  | close : 0 < s.reading → Moves cfg s .close { s with reading := s.reading - 1, idle := s.idle + 1 }
  | term : 0 < s.reading →
      Moves cfg s .term { s with reading := s.reading - 1, idle := s.idle + 1, phase := s.phase.signal }
  | signal : s.phase = .serving → Moves cfg s .signal { s with phase := .signalled }
  | stop : s.phase = .signalled → 0 < s.idle → Moves cfg s .stop { s with phase := .stopped }
  | leave : s.phase = .stopped → 0 < s.idle →
      Moves cfg s .leave { s with idle := s.idle - 1, ended := s.ended + 1 }
  | join : s.ended = NUM_THREADS → s.waits.atWait s.joined = true →
      Moves cfg s .join { s with joined := s.joined + 1 }

theorem step_cases {a : ServerAct} (hs : s.step cfg a = some t) : Moves cfg s a t := by
  cases a with
  | take =>
    obtain ⟨hguard, ht⟩ := Option.ite_none_right_eq_some.mp hs
    cases ht
    exact .take hguard.1 hguard.2
  | request m =>
    obtain ⟨hguard, ht⟩ := Option.ite_none_right_eq_some.mp hs
    obtain ⟨w, hw, rfl⟩ := Option.map_eq_some_iff.mp ht
    exact .request hguard.1 hguard.2 hw
  | act a =>
    unfold step at hs
    dsimp only at hs
    split at hs
    · cases hs
    · cases hs
    · rename_i hdraw hcopy
      obtain ⟨halive, ht⟩ := Option.ite_none_right_eq_some.mp hs
      obtain ⟨w, hw, rfl⟩ := Option.map_eq_some_iff.mp ht
      exact .act halive hdraw hcopy hw
  | check jid =>
    obtain ⟨-, ht⟩ := Option.ite_none_right_eq_some.mp hs
    obtain ⟨w, hw, rfl⟩ := Option.map_eq_some_iff.mp ht
    exact .check hw
  | wait jid =>
    obtain ⟨hawake, ht⟩ := Option.ite_none_right_eq_some.mp hs
    obtain ⟨w, hw, rfl⟩ := Option.map_eq_some_iff.mp ht
    split
    · exact .caught hawake hw ‹_›
    · exact .wait hawake hw ‹_›
  | notifyAll =>
    obtain ⟨-, ht⟩ := Option.ite_none_right_eq_some.mp hs
    obtain ⟨w, hw, rfl⟩ := Option.map_eq_some_iff.mp ht
    exact .notifyAll hw
  | resume jid =>
    obtain ⟨hmem, ht⟩ := Option.ite_none_right_eq_some.mp hs
    split at ht
    · cases ht
      exact .interrupt hmem ‹_›
    · cases ht
      exact .resume hmem ‹_›
  | reply i =>
    obtain ⟨hawake, ht⟩ := Option.ite_none_right_eq_some.mp hs
    obtain ⟨w, hw, rfl⟩ := Option.map_eq_some_iff.mp ht
    obtain ⟨j, hj, -⟩ := copyResponse_cases (act_cases hw).1
    rw [hj] at hawake
    exact .reply hj (of_decide_eq_true hawake) hw
  | close =>
    obtain ⟨hpos, ht⟩ := Option.ite_none_right_eq_some.mp hs
    cases ht
    exact .close hpos
  | term =>
    obtain ⟨hpos, ht⟩ := Option.ite_none_right_eq_some.mp hs
    cases ht
    exact .term hpos
  | signal =>
    obtain ⟨hserving, ht⟩ := Option.ite_none_right_eq_some.mp hs
    cases ht
    exact .signal hserving
  | stop =>
    obtain ⟨hguard, ht⟩ := Option.ite_none_right_eq_some.mp hs
    cases ht
    exact .stop hguard.1 hguard.2
  | leave =>
    obtain ⟨hguard, ht⟩ := Option.ite_none_right_eq_some.mp hs
    cases ht
    exact .leave hguard.1 hguard.2
  | join =>
    obtain ⟨hguard, ht⟩ := Option.ite_none_right_eq_some.mp hs
    cases ht
    exact .join hguard.1 hguard.2

end Server

/-! ## Workers and handlers -/

/-- A handler waits until it copies. -/
theorem waiting_subset {s t : State} {a : Act} (hs : s.step cfg a = some t) (hcopy : ∀ i, a ≠ .copy i) :
    s.waiting ⊆ t.waiting := by
  cases a with
  | copy i => exact absurd rfl (hcopy i)
  | drawId m =>
    obtain rfl := Option.some.inj hs
    exact List.Subset.refl _
  | enqueue i =>
    obtain ⟨j, -, -, rfl⟩ := enqueue_cases hs
    exact List.subset_cons_self _ _
  | sched =>
    cases schedLoop_cases hs with
    | adjust _ _ hu =>
      rw [updateResourcePool_frame hu]
      exact List.Subset.refl _
    | _ => exact List.Subset.refl _
  | dispatch =>
    cases dispatcherLoop_cases hs with
    | _ => exact List.Subset.refl _
  | run i rsp =>
    obtain ⟨th, -, hrun⟩ := runJob_cases hs
    cases hrun with
    | _ => exact List.Subset.refl _
  | finish =>
    cases finishedLoop_cases hs with
    | _ => exact List.Subset.refl _

/-- A handler that sleeps or was interrupted stays where it is. -/
theorem Server.Moves.waiting {a : Server.ServerAct} (hm : s.Moves cfg a t) {jid : Nat} (hjid : ¬s.Awake jid)
    (hmem : jid ∈ s.waits.sched.waiting.map Job.jid) : jid ∈ t.waits.sched.waiting.map Job.jid := by
  cases hm with
  | request _ _ hw =>
    obtain ⟨k, hk, rfl⟩ := List.mem_map.mp hmem
    exact List.mem_map_of_mem (waiting_subset (act_cases hw).1 (fun i h => by cases h) hk)
  | act _ _ hcopy hw =>
    obtain ⟨k, hk, rfl⟩ := List.mem_map.mp hmem
    exact List.mem_map_of_mem (waiting_subset (act_cases hw).1 hcopy hk)
  | check hw =>
    obtain ⟨-, rfl⟩ := check_cases hw
    exact hmem
  | wait _ hw _ =>
    obtain ⟨-, rfl⟩ := wait_cases hw
    exact hmem
  | caught _ hw _ =>
    obtain ⟨-, rfl⟩ := wait_cases hw
    exact hmem
  | notifyAll hw =>
    obtain ⟨jid', -, rfl⟩ := notifyAll_cases hw
    exact hmem
  | resume _ _ =>
    dsimp only
    rw [Waits.rouse_sched]
    exact hmem
  | @reply i j w hj hawake hw =>
    obtain ⟨j', hj', -, heq⟩ := copyResponse_cases (act_cases hw).1
    obtain ⟨hlt, rfl⟩ := List.getElem?_eq_some_iff.mp hj
    obtain ⟨k, hk, rfl⟩ := List.mem_map.mp hmem
    dsimp only
    rw [heq]
    -- the one that copies is awake, so it is another one
    rcases List.mem_cons.mp ((List.getElem_cons_eraseIdx_perm hlt).mem_iff.mpr hk) with rfl | hk
    · exact absurd hawake hjid
    · exact List.mem_map_of_mem hk
  | _ => exact hmem

/-- The scheduler is the one behind its pool; the workers are all accounted for; the handlers that sleep or were
interrupted wait for their jobs, and the others are not blocked; nobody is interrupted and nobody leaves before
`handle_stop`; and the loops are joined when all have left. -/
structure Manned (cfg : Config) (s : Server) : Prop where
  pool : (pooled cfg).Reachable s.pool
  attended : Attended s.waits
  staff : s.idle + s.pool.busy + s.ended = NUM_THREADS
  handlers : ∀ i ∈ s.sleeping ++ s.interrupted, i ∈ s.waits.sched.waiting.map Job.jid
  once : (s.sleeping ++ s.interrupted).Nodup
  blocked : ∀ i, s.waits.handler i = .waiting → i ∈ s.sleeping ++ s.interrupted
  early : s.phase ≠ .stopped → s.interrupted = [] ∧ s.ended = 0
  late : s.joined ≠ 0 → s.ended = NUM_THREADS
  loops : s.joined ≤ 3

theorem manned_init (cfg : Config) : Manned cfg (server cfg).init where
  pool := .init
  attended := attended_init cfg
  staff := rfl
  handlers := fun i hi => by cases hi
  once := List.nodup_nil
  blocked := fun i hi => by cases hi
  early := fun _ => ⟨rfl, rfl⟩
  late := fun h => absurd rfl h
  loops := Nat.zero_le _

theorem not_awake {jid : Nat} (h : jid ∈ s.sleeping ++ s.interrupted) : ¬s.Awake jid := by
  rintro ⟨hsleeping, hinterrupted⟩
  rcases List.mem_append.mp h with h | h
  · exact hsleeping h
  · exact hinterrupted h

namespace Server

/-- The handlers and the scheduler take a step, or a handler resumes for no reason, or they stay as they are. -/
theorem Moves.waits {a : ServerAct} (hm : s.Moves cfg a t) :
    (∃ b, s.waits.step cfg b = some t.waits) ∨ (∃ jid, t.waits = s.waits.rouse jid) ∨ t.waits = s.waits := by
  cases hm with
  | @request m w _ _ hw => exact .inl ⟨.act (.drawId m), hw⟩
  | @act a w _ _ _ hw => exact .inl ⟨.act a, hw⟩
  | @check jid w hw => exact .inl ⟨.check jid, hw⟩
  | @wait jid w _ hw _ => exact .inl ⟨.wait jid, hw⟩
  | @caught jid w _ hw _ => exact .inl ⟨.wait jid, hw⟩
  | notifyAll hw => exact .inl ⟨.notifyAll, hw⟩
  | @resume jid _ _ => exact .inr (.inl ⟨jid, rfl⟩)
  | @reply i j w _ _ hw => exact .inl ⟨.act (.copy i), hw⟩
  | _ => exact .inr (.inr rfl)

theorem Moves.attended {a : ServerAct} (hm : s.Moves cfg a t) (h : Attended s.waits) : Attended t.waits := by
  rcases hm.waits with ⟨b, hb⟩ | ⟨jid, heq⟩ | heq
  · exact step_attended h hb
  · rw [heq, Waits.rouse]
    split
    · rename_i hpc
      exact h.move (by simp [hpc]) (by simp [hpc]) fun he => by cases he
    · exact h
  · rw [heq]
    exact h

/-- The pool takes a step or stays as it is. -/
theorem Moves.pool {a : ServerAct} (hm : s.Moves cfg a t) (h : s.idle + s.pool.busy + s.ended = NUM_THREADS) :
    t.pool = s.pool ∨ ∃ b, s.pool.step cfg b = some t.pool := by
  cases hm with
  | take _ hidle => exact .inr ⟨.take, if_pos (by omega)⟩
  | @request m w hpos hid hw =>
    refine .inr ⟨.request m, ?_⟩
    have hdraw : drawId m s.waits.sched = w.sched := Option.some.inj (act_cases hw).1
    rw [Pool.step, if_pos ⟨hpos, hid⟩, Server.pool, Server.pool, hdraw]
  | @act a w _ hdraw hcopy hw =>
    have hmap : (s.waits.sched.step cfg a).map (fun sched => { s.pool with sched }) = some ⟨w.sched, s.reading⟩ := by
      rw [(act_cases hw).1]
      rfl
    cases a with
    | drawId m => exact absurd rfl (hdraw m)
    | copy i => exact absurd rfl (hcopy i)
    | enqueue i => exact .inr ⟨.act (.enqueue i), hmap⟩
    | sched => exact .inr ⟨.act .sched, hmap⟩
    | dispatch => exact .inr ⟨.act .dispatch, hmap⟩
    | run i rsp => exact .inr ⟨.act (.run i rsp), hmap⟩
    | finish => exact .inr ⟨.act .finish, hmap⟩
  | check hw =>
    obtain ⟨-, rfl⟩ := check_cases hw
    exact .inl rfl
  | wait _ hw _ =>
    obtain ⟨-, rfl⟩ := wait_cases hw
    exact .inl rfl
  | caught _ hw _ =>
    obtain ⟨-, rfl⟩ := wait_cases hw
    exact .inl rfl
  | notifyAll hw =>
    obtain ⟨jid, -, rfl⟩ := notifyAll_cases hw
    exact .inl rfl
  | @resume jid _ _ =>
    refine .inl ?_
    unfold Server.pool
    dsimp only
    rw [Waits.rouse_sched]
  | @reply i j w _ _ hw =>
    refine .inr ⟨.reply i, ?_⟩
    have hcopy : copyResponse i s.waits.sched = some w.sched := (act_cases hw).1
    rw [Pool.step, Server.pool, hcopy]
    rfl
  | close hpos => exact .inr ⟨.close, if_pos hpos⟩
  | term hpos => exact .inr ⟨.close, if_pos hpos⟩
  | _ => exact .inl rfl

theorem Moves.staff {a : ServerAct} (hm : s.Moves cfg a t) (h : s.idle + s.pool.busy + s.ended = NUM_THREADS) :
    t.idle + t.pool.busy + t.ended = NUM_THREADS := by
  unfold Pool.busy Server.pool at h ⊢
  dsimp only at h ⊢
  cases hm with
  | request hpos _ hw =>
    rw [← Option.some.inj (act_cases hw).1]
    simp only [drawId, List.length_cons]
    omega
  | act _ hdraw hcopy hw =>
    have := handlers_eq (act_cases hw).1 hdraw hcopy
    dsimp only
    omega
  | check hw =>
    obtain ⟨-, rfl⟩ := check_cases hw
    exact h
  | wait _ hw _ =>
    obtain ⟨-, rfl⟩ := wait_cases hw
    exact h
  | caught _ hw _ =>
    obtain ⟨-, rfl⟩ := wait_cases hw
    exact h
  | notifyAll hw =>
    obtain ⟨jid, -, rfl⟩ := notifyAll_cases hw
    exact h
  | resume _ _ =>
    dsimp only
    rw [Waits.rouse_sched]
    exact h
  | reply hj _ hw =>
    obtain ⟨j, hj, -, heq⟩ := copyResponse_cases (act_cases hw).1
    obtain ⟨hlt, -⟩ := List.getElem?_eq_some_iff.mp hj
    dsimp only
    rw [heq]
    simp only [List.length_eraseIdx_of_lt hlt]
    omega
  | _ =>
    dsimp only
    omega

end Server

theorem interrupt_perm {jid : Nat} (h : jid ∈ s.sleeping) :
    (s.sleeping ++ s.interrupted).Perm (s.sleeping.erase jid ++ jid :: s.interrupted) :=
  ((List.perm_cons_erase h).append_right _).trans List.perm_middle.symm

namespace Server

/-- A handler that has come to sleep or was caught waits for its job. -/
theorem Moves.handlers {a : ServerAct} (hm : s.Moves cfg a t) (hatt : Attended s.waits)
    (h : ∀ i ∈ s.sleeping ++ s.interrupted, i ∈ s.waits.sched.waiting.map Job.jid) :
    ∀ i ∈ t.sleeping ++ t.interrupted, i ∈ t.waits.sched.waiting.map Job.jid := by
  have hkeep : ∀ i ∈ s.sleeping ++ s.interrupted, i ∈ t.waits.sched.waiting.map Job.jid := fun i hi =>
    hm.waiting (not_awake hi) (h i hi)
  -- the handler that calls `wait` is in its loop
  have hnew : ∀ {jid : Nat} {w : Waits}, s.waits.wait jid = some w → jid ∈ w.sched.waiting.map Job.jid := by
    intro jid w hw
    obtain ⟨hpc, rfl⟩ := wait_cases hw
    exact hatt.only jid (by simp [hpc]) (by simp [hpc])
  intro i hi
  cases hm with
  | wait _ hw _ =>
    rcases List.mem_cons.mp hi with rfl | hi
    · exact hnew hw
    · exact hkeep i hi
  | caught _ hw _ =>
    rcases List.mem_cons.mp (List.perm_middle.mem_iff.mp hi) with rfl | hi
    · exact hnew hw
    · exact hkeep i hi
  | resume hmem _ =>
    rcases List.mem_append.mp hi with hi | hi
    · exact hkeep i (List.mem_append_left _ (List.mem_of_mem_erase hi))
    · exact hkeep i (List.mem_append_right _ hi)
  | interrupt hmem _ => exact hkeep i ((interrupt_perm hmem).mem_iff.mpr hi)
  | _ => exact hkeep i hi

theorem Moves.once {a : ServerAct} (hm : s.Moves cfg a t) (h : (s.sleeping ++ s.interrupted).Nodup) :
    (t.sleeping ++ t.interrupted).Nodup := by
  have hnew : ∀ {jid}, s.Awake jid → (jid :: (s.sleeping ++ s.interrupted)).Nodup := fun hawake =>
    List.nodup_cons.mpr ⟨fun hmem => not_awake hmem hawake, h⟩
  cases hm with
  | wait hawake _ _ => exact hnew hawake
  | caught hawake _ _ => exact List.perm_middle.nodup_iff.mpr (hnew hawake)
  | resume hmem _ => exact h.sublist ((List.erase_sublist).append_right _)
  | interrupt hmem _ => exact (interrupt_perm hmem).nodup_iff.mp h
  | _ => exact h

/-- A handler that is blocked is among those that sleep or were interrupted. -/
theorem Moves.blocked {a : ServerAct} (hm : s.Moves cfg a t)
    (h : ∀ i, s.waits.handler i = .waiting → i ∈ s.sleeping ++ s.interrupted) :
    ∀ i, t.waits.handler i = .waiting → i ∈ t.sleeping ++ t.interrupted := by
  have hact : ∀ {b : Act} {w : Waits}, s.waits.act cfg b = some w → ∀ i, w.handler i = .waiting →
      i ∈ s.sleeping ++ s.interrupted := by
    intro b w hw i hi
    rcases (act_cases hw).2.2.1 i with hsame | hchecking
    · exact h i (hsame ▸ hi)
    · rw [hchecking] at hi
      cases hi
  intro i hi
  cases hm with
  | request _ _ hw => exact hact hw i hi
  | act _ _ _ hw => exact hact hw i hi
  | reply _ _ hw => exact hact hw i hi
  | @check jid w hw =>
    obtain ⟨-, rfl⟩ := check_cases hw
    by_cases he : i = jid
    · simp only [Waits.move, if_pos he] at hi
      split at hi <;> cases hi
    · exact h i (by simpa only [Waits.move, if_neg he] using hi)
  | @wait jid w _ hw _ =>
    obtain ⟨-, rfl⟩ := wait_cases hw
    by_cases he : i = jid
    · rw [he]
      exact List.mem_cons_self
    · exact List.mem_cons_of_mem _ (h i (by simpa only [Waits.move, if_neg he] using hi))
  | @caught jid w _ hw _ =>
    obtain ⟨-, rfl⟩ := wait_cases hw
    refine List.perm_middle.mem_iff.mpr ?_
    by_cases he : i = jid
    · rw [he]
      exact List.mem_cons_self
    · exact List.mem_cons_of_mem _ (h i (by simpa only [Waits.move, if_neg he] using hi))
  | notifyAll hw =>
    obtain ⟨jid, -, rfl⟩ := notifyAll_cases hw
    by_cases he : i = jid
    · simp only [Waits.move, if_pos he] at hi
      split at hi
      · cases hi
      · exact absurd hi ‹_›
    · exact h i (by simpa only [Waits.move, if_neg he] using hi)
  | resume _ _ =>
    obtain ⟨hold, hne⟩ := Waits.waiting_of_rouse hi
    rcases List.mem_append.mp (h i hold) with hmem | hmem
    · exact List.mem_append_left _ ((List.mem_erase_of_ne hne).mpr hmem)
    · exact List.mem_append_right _ hmem
  | interrupt hmem _ => exact (interrupt_perm hmem).mem_iff.mp (h i hi)
  | _ => exact h i hi

end Server

theorem atWait_le {w : Waits} {k : Nat} (h : w.atWait k = true) : k + 1 ≤ 3 := by
  match k with
  | 0 | 1 | 2 => decide
  | k + 3 => cases h

theorem step_manned {a : Server.ServerAct} (h : Manned cfg s) (hs : s.step cfg a = some t) : Manned cfg t := by
  have hm := Server.step_cases hs
  refine ⟨?_, hm.attended h.attended, hm.staff h.staff, hm.handlers h.attended h.handlers, hm.once h.once,
    hm.blocked h.blocked, fun hphase => ?_, fun hjoined => ?_, ?_⟩
  · rcases hm.pool h.staff with heq | ⟨b, hb⟩
    · rw [heq]
      exact h.pool
    · exact .step h.pool trivial hb
  · cases hm with
    | caught _ _ hstopped => exact absurd hstopped hphase
    | interrupt _ hstopped => exact absurd hstopped hphase
    | leave hstopped _ => exact absurd hstopped hphase
    | stop _ _ => exact absurd rfl hphase
    | term _ =>
      refine h.early fun hstopped => ?_
      rw [hstopped] at hphase
      exact hphase rfl
    | signal hserving =>
      refine h.early fun hstopped => ?_
      rw [hserving] at hstopped
      cases hstopped
    | _ => exact h.early hphase
  · cases hm with
    | leave _ hidle =>
      -- the last one has left
      have hall := h.late hjoined
      have := h.staff
      omega
    | join hended _ => exact hended
    | _ => exact h.late hjoined
  · cases hm with
    | join _ hwait => exact atWait_le hwait
    | _ => exact h.loops

theorem reachable_manned {C : Server → Server.ServerAct → Prop} (h : (server cfg).ReachableIf C s) : Manned cfg s :=
  h.invariant (I := Manned cfg) (manned_init cfg) fun _ _ _ hi _ hs => step_manned hi hs

/-! ## The end -/

namespace Manned

theorem reachable (h : Manned cfg s) : (system cfg).Reachable s.waits.sched := (pooled_staffed h.pool).reachable

theorem interrupted_nodup (h : Manned cfg s) : s.interrupted.Nodup := (List.nodup_append.mp h.once).2.1

theorem waiting_nodup (h : Manned cfg s) :
    (s.waits.sched.waiting.map Job.jid ++ s.waits.sched.copied.map Prod.fst).Nodup :=
  (reachable_clients h.reachable).waits.nodup_iff.mpr (reachable_life h.reachable).issued_ids_nodup

/-- No handler is left when all workers have left. -/
theorem handlers_nil (h : Manned cfg s) (hended : s.ended = NUM_THREADS) :
    s.waits.sched.entering = [] ∧ s.waits.sched.waiting = [] ∧ s.interrupted = [] := by
  have hstaff := h.staff
  unfold Pool.busy Server.pool at hstaff
  dsimp only at hstaff
  have hwaiting : s.waits.sched.waiting = [] := List.length_eq_zero_iff.mp (by omega)
  refine ⟨List.length_eq_zero_iff.mp (by omega), hwaiting, List.eq_nil_iff_forall_not_mem.mpr fun i hi => ?_⟩
  have hmem := h.handlers i (List.mem_append_right _ hi)
  rw [hwaiting] at hmem
  cases hmem

theorem answered (h : Manned cfg s) (hended : s.ended = NUM_THREADS) : Answered s.waits.sched := by
  obtain ⟨hentering, hwaiting, -⟩ := h.handlers_nil hended
  exact answered_of_waiting (reachable_life h.reachable) (reachable_clients h.reachable) hentering hwaiting

end Manned

/-- **Nobody is left behind**: in every run, under every interleaving, when all workers have left, so in particular when
the loops are interrupted and when the scheduler is destroyed, every request that was accepted has been answered with
the response to its own job, no job is on any queue, and the threads of the jobs, which nobody joins, have at most their
entry in the run queue to look for. -/
theorem ended_answered (cfg : Config) (s : Server) (h : (server cfg).Reachable s) (hended : s.ended = NUM_THREADS) :
    Answered s.waits.sched ∧ s.waits.sched.unfinished = [] ∧ s.interrupted = [] ∧
      ∀ th ∈ s.waits.sched.threads, th.phase = .finished := by
  have hm := reachable_manned h
  obtain ⟨-, hwaiting, hinterrupted⟩ := hm.handlers_nil hended
  have hunfinished : s.waits.sched.unfinished = [] := by
    have hle := unfinished_le_waiting hm.reachable
    rw [hwaiting] at hle
    exact List.length_eq_zero_iff.mp (Nat.le_zero.mp hle)
  refine ⟨hm.answered hended, hunfinished, hinterrupted, fun th hth => ?_⟩
  have hnone : th.running = [] := by
    have hrunning : s.waits.sched.threads.flatMap Thread.running = [] := by
      simp only [State.unfinished, State.runningJobs, List.append_eq_nil_iff] at hunfinished
      exact hunfinished.1.2.2
    exact List.flatMap_eq_nil_iff.mp hrunning th hth
  cases hph : th.phase with
  | finished => rfl
  | _ =>
    simp only [Thread.running, hph] at hnone
    cases hnone

/-- One client is answered, its session ends with `MSG_TERM`, and the server comes down. -/
def lastClient : List Server.ServerAct :=
  List.flatten
    [[.take, .request (targetRequest 1000 1000), .act (.enqueue 0), .check 1, .wait 1],
      List.replicate 24 (.act .sched), List.replicate 2 (.act .dispatch),
      List.replicate 3 (.act (.run 0 msgEmpty)), List.replicate 2 (.act .finish),
      [.notifyAll, .resume 1, .check 1, .reply 0, .term, .stop], List.replicate 4 .leave, List.replicate 3 .join]

/-- The loops are joined while the thread of the job is still there. -/
theorem ended_answered_one : ∃ s, (server localConfig).Reachable s ∧ s.joined = 3 ∧
    s.waits.sched.issued.length = 1 ∧ s.waits.sched.threads.length = 1 ∧ Answered s.waits.sched ∧
    s.waits.sched.unfinished = [] ∧ ∀ th ∈ s.waits.sched.threads, th.phase = .finished := by
  obtain ⟨s, hr, hs⟩ := Machine.exists_reachableIf (server localConfig) (fun _ _ => True) lastClient
    (fun s => (s.ended, s.joined, s.waits.sched.issued.length, s.waits.sched.threads.length)) (NUM_THREADS, 3, 1, 1)
    (by decide +kernel)
  simp only [Prod.mk.injEq] at hs
  obtain ⟨hended, hjoined, hissued, hthreads⟩ := hs
  obtain ⟨hanswered, hunfinished, -, hfinished⟩ := ended_answered localConfig s hr hended
  exact ⟨s, hr, hjoined, hissued, hthreads, hanswered, hunfinished, hfinished⟩

/-! ## Handlers caught waiting -/

/-- Nothing of it is written. -/
theorem writeMsg_interruptedReply (meanWaitTime : BitVec 32) (request : Msg) :
    writeMsg (interruptedReply meanWaitTime request) = done [] := by
  have htotal : (interruptedReply meanWaitTime request).totalBytes = 0 := by
    have hcalloc : ∀ sizeBytes, (callocMsg sizeBytes).totalBytes = 0 := fun sizeBytes =>
      congrArg (BitVec.ofNat 64) (LittleEndian.read_replicate_zero 8 53 sizeBytes.toNat)
    unfold interruptedReply
    dsimp only
    split <;> exact hcalloc _
  rw [writeMsg, htotal]
  rfl

/-- A client does not return from `getResult` when nothing comes. -/
theorem getResult_nothing (c : Call) (out : List UInt8) : getResult out c.sizeBytes [] = outOfFuel := by
  have hsize : (((c.sizeBytes.signExtend 64 + BitVec.ofNat 64 sizeofMsg).setWidth 32).signExtend 64).toNat =
      sizeofMsg + c.outBytes := by
    have hout := c.toNat_sizeBytes
    rw [BitVec.add_comm, toInt_sizeofMsg_add (by rw [hout]; exact c.outBytes_lt), hout]
  have hpos : ([] : List Chunk).flatten.length < sizeofMsg + c.outBytes :=
    Nat.lt_of_lt_of_le (by decide) (Nat.le_add_right _ _)
  unfold getResult clientRead
  dsimp only
  rw [hsize, readExactly_short [] hpos]
  rfl

theorem Server.Moves.caught_stays {a : Server.ServerAct} (hm : s.Moves cfg a t) (hphase : s.phase = .stopped) {jid : Nat}
    (hjid : jid ∈ s.sleeping ++ s.interrupted) : t.phase = .stopped ∧ jid ∈ t.sleeping ++ t.interrupted := by
  cases hm with
  | wait _ _ hnot => exact absurd hphase hnot
  | caught _ _ _ => exact ⟨hphase, List.perm_middle.mem_iff.mpr (List.mem_cons_of_mem _ hjid)⟩
  | resume _ hnot => exact absurd hphase hnot
  | interrupt hmem _ => exact ⟨hphase, (interrupt_perm hmem).mem_iff.mp hjid⟩
  | term _ =>
    refine ⟨?_, hjid⟩
    dsimp only
    rw [hphase]
    rfl
  | signal hserving =>
    rw [hphase] at hserving
    cases hserving
  | stop _ _ => exact ⟨rfl, hjid⟩
  | _ => exact ⟨hphase, hjid⟩

/-- **A handler caught waiting hangs the server**: when `handle_stop` finds a handler in `jCondVar->wait`, or one comes
there later, then in no run does it ever copy a response, do all workers leave or is a loop joined. It writes nothing,
its worker waits for the client's next message, and the client, in `getResult`, for its reply. -/
theorem stop_hangs (cfg : Config) (s : Server) (h : (server cfg).Reachable s) (hphase : s.phase = .stopped) (j : Job)
    (hj : j.jid ∈ s.sleeping ++ s.interrupted) :
    (∀ t, (server cfg).Continues (fun _ _ => True) s t →
      j.jid ∈ t.sleeping ++ t.interrupted ∧ j.jid ∉ t.waits.sched.copied.map Prod.fst ∧ t.ended < NUM_THREADS ∧
        t.joined = 0) ∧
    (∀ meanWaitTime, writeMsg (interruptedReply meanWaitTime j.req) = done []) ∧
    ∀ (c : Call) out, getResult out c.sizeBytes [] = outOfFuel := by
  refine ⟨fun t ht => ?_, fun w => writeMsg_interruptedReply w j.req, getResult_nothing⟩
  have hinv : Manned cfg t ∧ t.phase = .stopped ∧ j.jid ∈ t.sleeping ++ t.interrupted := by
    refine ht.invariant (I := fun t => Manned cfg t ∧ t.phase = .stopped ∧ j.jid ∈ t.sleeping ++ t.interrupted) ?_
      ⟨reachable_manned h, hphase, hj⟩
    rintro u a v ⟨hm, hstopped, hcaught⟩ - hs
    exact ⟨step_manned hm hs, (Server.step_cases hs).caught_stays hstopped hcaught⟩
  obtain ⟨hm, -, hcaught⟩ := hinv
  have hwaiting := hm.handlers _ hcaught
  have hended : t.ended < NUM_THREADS := by
    have hpos := List.length_pos_of_mem hwaiting
    have hstaff := hm.staff
    rw [List.length_map] at hpos
    unfold Pool.busy Server.pool at hstaff
    dsimp only at hstaff
    omega
  refine ⟨hcaught, fun hcopied => ?_, hended, ?_⟩
  · exact (List.nodup_append.mp hm.waiting_nodup).2.2 _ hwaiting _ hcopied rfl
  · by_contra hjoined
    exact absurd (hm.late hjoined) (Nat.ne_of_lt hended)

/-- A signal comes while a handler is waiting for its job. -/
def caughtClient : List Server.ServerAct :=
  [.take, .request (targetRequest 1000 1000), .act (.enqueue 0), .check 1, .wait 1, .signal, .stop]

theorem stop_hangs_one : ∃ s, (server localConfig).Reachable s ∧ s.phase = .stopped ∧ s.sleeping = [1] ∧
    ∀ t, (server localConfig).Continues (fun _ _ => True) s t → t.ended < NUM_THREADS ∧ t.joined = 0 := by
  obtain ⟨s, hr, hs⟩ := Machine.exists_reachableIf (server localConfig) (fun _ _ => True) caughtClient
    (fun s => (s.phase, s.sleeping)) (.stopped, [1]) (by decide +kernel)
  simp only [Prod.mk.injEq] at hs
  obtain ⟨hphase, hsleeping⟩ := hs
  have hj : (Job.ofRequest (targetRequest 1000 1000) 1).jid ∈ s.sleeping ++ s.interrupted := by
    rw [hsleeping]
    exact List.mem_cons_self
  obtain ⟨hhangs, -, -⟩ := stop_hangs localConfig s hr hphase _ hj
  exact ⟨s, hr, hphase, hsleeping, fun t ht => (hhangs t ht).2.2⟩

end Hydrogen
