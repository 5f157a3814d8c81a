import Hydrogen.Scheduler.Shutdown

/-!
# What becomes of the server after a signal

No fairness between the threads is needed for the server to come to rest after a signal: every step goes down in the
order of the scheduler with its handlers (`WaitsLess`), those of the workers and of the destructor too. Where it comes to
rest is one of three places: it is down, it is held up by handlers that were interrupted, or all its workers have lost
their wake-ups, so that none is left to run `handle_stop` (`shutdown_rests`).
-/

namespace Hydrogen

open StdAlgorithm

variable {cfg : Config} {s t : Server}

/-! ## The measure -/

/-- The steps the signal has left. -/
def StopPhase.left : StopPhase → Nat
  | .serving => 2
  | .signalled => 1
  | .stopped => 0

theorem StopPhase.left_signal (phase : StopPhase) : phase.signal.left ≤ phase.left := by
  cases phase <;> decide

namespace Server

/-- Requests come with a positive predicted time. -/
def Timed (_ : Server) : ServerAct → Prop
  | .request m => 0 < m.predictedTimeMillis.toInt
  | _ => True

instance (s : Server) : (a : ServerAct) → Decidable (s.Timed a)
  | .request _ => inferInstanceAs (Decidable (_ < _))
  | .take | .act _ | .check _ | .wait _ | .notifyAll | .resume _ | .reply _ | .close | .term | .signal | .stop | .leave
  | .join => inferInstanceAs (Decidable True)

/-- No new connection and no new request comes in, and nobody resumes for no reason. -/
def Leaving (s : Server) : ServerAct → Prop
  | .take => False
  | .request _ => False
  | .resume jid => s.phase = .stopped ∨ s.waits.handler jid ≠ .waiting
  | _ => True

theorem timed_of_leaving {a : ServerAct} (h : s.Leaving a) : s.Timed a := by
  cases a with
  | request m => cases h
  | _ => trivial

/-- There is always room for the jobs of the workers. -/
theorem room (h : Manned cfg s) : cfg.Room (s.waits.sched.backlog + 1) := by
  obtain ⟨-, hle, -⟩ := unfinished_le_workers cfg s.pool h.pool
  refine room_few ?_
  simp only [pool, State.unfinished, List.length_append, NUM_THREADS] at hle
  unfold State.backlog
  omega

theorem Moves.draining {a : ServerAct} (hm : s.Moves cfg a t) (hmanned : Manned cfg s) (ha : s.Timed a)
    (h : Draining cfg s.waits.sched) : Draining cfg t.waits.sched := by
  have hkeep : ∀ {b : WaitAct} {w : Waits}, b.Timed cfg s.waits → s.waits.step cfg b = some w → Draining cfg w.sched :=
    fun hb hw => waits_draining h hb hw
  cases hm with
  | @request m w _ _ hw => exact hkeep (b := .act (.drawId m)) ⟨ha, room hmanned⟩ hw
  | @act a w _ hdraw _ hw => exact hkeep (b := .act a) (Hydrogen.timed_of_quiet (quiet_of_ne hdraw)) hw
  | @check jid w hw => exact hkeep (b := .check jid) trivial hw
  | @wait jid w _ hw _ => exact hkeep (b := .wait jid) trivial hw
  | @caught jid w _ hw _ => exact hkeep (b := .wait jid) trivial hw
  | notifyAll hw => exact hkeep (b := .notifyAll) trivial hw
  | resume _ _ =>
    dsimp only
    rw [Waits.rouse_sched]
    exact h
  | @reply i j w _ _ hw => exact hkeep (b := .act (.copy i)) trivial hw
  | _ => exact h

/-- The steps left in which the scheduler does nothing and nobody is notified. -/
def stepsLeft (s : Server) : Nat :=
  2 * s.reading + s.idle + s.phase.left + 2 * s.waits.handlersLeft + s.sleeping.length + (3 - s.joined)

/-- What goes down with every step, first that of the scheduler. -/
def left (s : Server) : (Nat × SchedPc × Nat) × Nat × Nat :=
  (s.waits.sched.left, s.waits.notifying.toList.length, s.stepsLeft)

theorem less_of_stepsLeft (hsched : t.waits.sched = s.waits.sched) (hnotifying : t.waits.notifying = s.waits.notifying)
    (h : t.stepsLeft < s.stepsLeft) : WaitsLess t.left s.left := by
  unfold left
  rw [hsched, hnotifying]
  exact .right _ (.right _ h)

theorem Moves.less {a : ServerAct} (hm : s.Moves cfg a t) (h : Manned cfg s) (hserved : Served cfg s.waits.sched)
    (ha : s.Leaving a) : WaitsLess t.left s.left := by
  have hwaited : ∀ {jid : Nat} {w : Waits}, s.waits.wait jid = some w →
      w.sched = s.waits.sched ∧ w.notifying = s.waits.notifying ∧ w.handlersLeft < s.waits.handlersLeft := by
    intro jid w hw
    obtain ⟨hpc, rfl⟩ := wait_cases hw
    refine ⟨rfl, rfl, handlersLeft_move h.attended ?_⟩
    rw [hpc]
    decide
  cases hm with
  | take _ _ => cases ha
  | request _ _ _ => cases ha
  | act _ hdraw _ hw => exact .left _ _ (step_less hserved (quiet_of_ne hdraw) (act_cases hw).1)
  | @reply i j w _ _ hw =>
    have hquiet : Quiet s.waits.sched (.copy i) := trivial
    exact .left _ _ (step_less hserved hquiet (act_cases hw).1)
  | @check jid w hw =>
    obtain ⟨hpc, rfl⟩ := check_cases hw
    have hleft :
        (if jid ∈ s.waits.sched.finished then HandlerPc.done else .toWait).left < (s.waits.handler jid).left := by
      rw [hpc]
      split <;> decide
    have hlt := handlersLeft_move h.attended hleft
    refine less_of_stepsLeft rfl rfl ?_
    unfold stepsLeft
    dsimp only
    omega
  | wait _ hw _ =>
    obtain ⟨hsched, hnotifying, hlt⟩ := hwaited hw
    refine less_of_stepsLeft hsched hnotifying ?_
    simp only [stepsLeft, List.length_cons]
    omega
  | caught _ hw _ =>
    obtain ⟨hsched, hnotifying, hlt⟩ := hwaited hw
    refine less_of_stepsLeft hsched hnotifying ?_
    unfold stepsLeft
    dsimp only
    omega
  | notifyAll hw =>
    obtain ⟨jid, hn, rfl⟩ := notifyAll_cases hw
    refine .right _ (.left _ _ ?_)
    rw [hn]
    exact Nat.one_pos
  | @resume jid hmem hphase =>
    -- it was notified, so it does not start to look at the flag only now
    have hsame : s.waits.rouse jid = s.waits := if_neg (ha.resolve_left hphase)
    have hlen := List.length_erase_of_mem hmem
    have hpos := List.length_pos_of_mem hmem
    refine less_of_stepsLeft (by dsimp only; rw [hsame]) (by dsimp only; rw [hsame]) ?_
    simp only [stepsLeft, hsame]
    omega
  | interrupt hmem _ =>
    have hlen := List.length_erase_of_mem hmem
    have hpos := List.length_pos_of_mem hmem
    refine less_of_stepsLeft rfl rfl ?_
    unfold stepsLeft
    dsimp only
    omega
  | term hpos =>
    have := s.phase.left_signal
    refine less_of_stepsLeft rfl rfl ?_
    unfold stepsLeft
    dsimp only
    omega
  | signal hserving =>
    refine less_of_stepsLeft rfl rfl ?_
    simp only [stepsLeft, hserving, StopPhase.left]
    omega
  | stop hsignalled _ =>
    refine less_of_stepsLeft rfl rfl ?_
    simp only [stepsLeft, hsignalled, StopPhase.left]
    omega
  | join _ hwait =>
    have := atWait_le hwait
    refine less_of_stepsLeft rfl rfl ?_
    unfold stepsLeft
    dsimp only
    omega
  | _ =>
    refine less_of_stepsLeft rfl rfl ?_
    unfold stepsLeft
    dsimp only
    omega

theorem Moves.signalled {a : ServerAct} (hm : s.Moves cfg a t) (h : s.phase ≠ .serving) : t.phase ≠ .serving := by
  cases hm with
  | term _ =>
    cases hphase : s.phase with
    | serving => exact absurd hphase h
    | _ => exact fun hserving => by cases hserving
  | signal hserving => exact absurd hserving h
  | stop _ _ => exact fun hserving => by cases hserving
  | _ => exact h

end Server

/-! ## Coming to rest -/

/-- What holds in every run with positive times after the signal. -/
structure Falling (cfg : Config) (s : Server) : Prop where
  manned : Manned cfg s
  draining : Draining cfg s.waits.sched
  signalled : s.phase ≠ .serving

theorem draining_of_reachable (h : (server cfg).ReachableIf Server.Timed s) :
    Manned cfg s ∧ Draining cfg s.waits.sched := by
  refine h.invariant (I := fun s => Manned cfg s ∧ Draining cfg s.waits.sched) ⟨manned_init cfg, draining_init cfg⟩ ?_
  exact fun _ _ _ hi ha hs => ⟨step_manned hi.1 hs, (Server.step_cases hs).draining hi.1 ha hi.2⟩

theorem step_falling {a : Server.ServerAct} (h : Falling cfg s) (ha : s.Leaving a) (hs : s.step cfg a = some t) :
    Falling cfg t := by
  have hm := Server.step_cases hs
  exact ⟨step_manned h.manned hs, hm.draining h.manned (Server.timed_of_leaving ha) h.draining, hm.signalled h.signalled⟩

/-- `handle_stop` was run; the workers have left, but for those whose handlers were interrupted; and if there is none,
the three loops are joined and every client was answered. -/
structure Down (s : Server) : Prop where
  stopped : s.phase = .stopped
  caught : s.interrupted.Perm (s.waits.sched.waiting.map Job.jid)
  staff : s.ended + s.interrupted.length = NUM_THREADS
  down : s.interrupted = [] → s.joined = 3 ∧ Answered s.waits.sched

/-- `handle_stop` was not run, and never will be: the handlers of all workers have lost their wake-ups. -/
structure Asleep (s : Server) : Prop where
  signalled : s.phase = .signalled
  workers : s.waits.sched.waiting.length = NUM_THREADS
  lost : ∀ j ∈ s.waits.sched.waiting, LostWakeup s.waits j.jid

section Stuck

variable (hstuck : (server cfg).Stuck Server.Leaving s)
include hstuck

/-- `finishedLoop` has notified whom it had to. -/
theorem notifying_of_stuck (halive : s.joined ≤ 2) : s.waits.notifying = none := by
  have hnone : s.step cfg .notifyAll = none := hstuck .notifyAll trivial
  have hguard : s.Alive .finish := halive
  rw [Server.step, if_pos hguard, Option.map_eq_none_iff] at hnone
  unfold Waits.notifyAll at hnone
  split at hnone
  · assumption
  · cases hnone

/-- A thread of the scheduler that is still there is at rest. -/
theorem act_of_stuck {a : Act} (halive : s.Alive a) (hnotifying : s.waits.notifying = none)
    (ha : Internal s.waits.sched a) : s.waits.sched.step cfg a = none := by
  have hact : s.waits.act cfg a = none := by
    have hnone : s.step cfg (.act a) = none := hstuck (.act a) trivial
    cases a with
    | drawId m => cases ha
    | copy i => cases ha
    | _ => simpa only [Server.step, if_pos halive, Option.map_eq_none_iff] using hnone
  cases a with
  | drawId m => cases ha
  | copy i => cases ha
  | finish =>
    simp only [Waits.act, hnotifying] at hact
    exact Option.map_eq_none_iff.mp hact
  | _ => exact Option.map_eq_none_iff.mp hact

/-- Before the first join, they all are. -/
theorem stuck_sched (hjoined : s.joined = 0) : (system cfg).Stuck Internal s.waits.sched := by
  intro a ha
  refine act_of_stuck hstuck ?_ (notifying_of_stuck hstuck (by omega)) ha
  cases a with
  | sched | dispatch | finish =>
    unfold Server.Alive
    omega
  | _ => trivial

theorem reading_of_stuck : s.reading = 0 := by
  by_contra hpos
  have hnone : s.step cfg .close = none := hstuck .close trivial
  rw [Server.step, if_pos (Nat.pos_of_ne_zero hpos)] at hnone
  cases hnone

theorem idle_of_stuck (hphase : s.phase ≠ .serving) : s.idle = 0 := by
  by_contra hpos
  cases hp : s.phase with
  | serving => exact hphase hp
  | signalled =>
    have hnone : s.step cfg .stop = none := hstuck .stop trivial
    rw [Server.step, if_pos ⟨hp, Nat.pos_of_ne_zero hpos⟩] at hnone
    cases hnone
  | stopped =>
    have hnone : s.step cfg .leave = none := hstuck .leave trivial
    rw [Server.step, if_pos ⟨hp, Nat.pos_of_ne_zero hpos⟩] at hnone
    cases hnone

/-- A handler whose job is finished goes on, unless it was interrupted or has lost its wake-up; and that only before
`handle_stop`. -/
theorem caught_or_lost_of_stuck (h : Manned cfg s) (hjoined : s.joined = 0) {j : Job} (hj : j ∈ s.waits.sched.waiting)
    (hfin : j.jid ∈ s.waits.sched.finished) :
    j.jid ∈ s.interrupted ∨ s.phase ≠ .stopped ∧ LostWakeup s.waits j.jid := by
  by_cases hinterrupted : j.jid ∈ s.interrupted
  · exact .inl hinterrupted
  have hnotifying := notifying_of_stuck hstuck (s := s) (by omega)
  by_cases hsleeping : j.jid ∈ s.sleeping
  · have hblocked : s.phase ≠ .stopped ∧ s.waits.handler j.jid = .waiting := by
      by_contra hnot
      have hnone : s.step cfg (.resume j.jid) = none := by
        refine hstuck (.resume j.jid) ?_
        by_cases hphase : s.phase = .stopped
        · exact .inl hphase
        · exact .inr fun hpc => hnot ⟨hphase, hpc⟩
      rw [Server.step, if_pos hsleeping] at hnone
      split at hnone <;> cases hnone
    have htold := h.attended.told _ hfin
    rw [hnotifying] at htold
    exact .inr ⟨hblocked.1, hfin, htold.resolve_right (by simp), hblocked.2⟩
  · have hawake : s.Awake j.jid := ⟨hsleeping, hinterrupted⟩
    have hcheck : s.waits.check j.jid = none := by
      have hnone : s.step cfg (.check j.jid) = none := hstuck (.check j.jid) trivial
      rwa [Server.step, if_pos hawake, Option.map_eq_none_iff] at hnone
    have hwait : s.waits.wait j.jid = none := by
      have hnone : s.step cfg (.wait j.jid) = none := hstuck (.wait j.jid) trivial
      rwa [Server.step, if_pos hawake, Option.map_eq_none_iff] at hnone
    have hcopy : ∀ i, s.waits.sched.waiting[i]? = some j → s.waits.act cfg (.copy i) = none := by
      intro i hi
      have hnone : s.step cfg (.reply i) = none := hstuck (.reply i) trivial
      have hguard : ((some j).all fun j => decide (s.Awake j.jid)) = true := decide_eq_true hawake
      rwa [Server.step, hi, if_pos hguard, Option.map_eq_none_iff] at hnone
    -- it is blocked, but not in `wait`
    obtain ⟨-, -, hpc⟩ := h.attended.lost hj hfin hnotifying hcheck hwait hcopy
    exact absurd hawake (not_awake (h.blocked _ hpc))

/-- The loop that is being joined is not where it waits. -/
theorem not_atWait_of_stuck (hended : s.ended = NUM_THREADS) : s.waits.atWait s.joined = false := by
  by_contra hwait
  have hnone : s.step cfg .join = none := hstuck .join trivial
  rw [Server.step, if_pos ⟨hended, eq_true_of_ne_false hwait⟩] at hnone
  cases hnone

/-- The dispatcher and `finishedLoop` get to where they wait. -/
theorem joined_of_stuck (h : Manned cfg s) (hjoined : s.joined ≠ 0) : s.joined = 3 := by
  have hnot := not_atWait_of_stuck hstuck (h.late hjoined)
  have hloops := h.loops
  match hk : s.joined with
  | 0 => exact absurd hk hjoined
  | 1 =>
    have hdispatch : dispatcherLoop s.waits.sched = none :=
      act_of_stuck hstuck (a := .dispatch) (Nat.le_of_eq hk) (notifying_of_stuck hstuck (by omega)) trivial
    cases hd : s.waits.sched.dispatcher with
    | none =>
      rw [hk, Waits.atWait, hd] at hnot
      cases hnot
    | some p =>
      simp only [dispatcherLoop, hd] at hdispatch
      split at hdispatch <;> cases hdispatch
  | 2 =>
    have hnotifying := notifying_of_stuck hstuck (s := s) (by omega)
    have hfinish : finishedLoop s.waits.sched = none :=
      act_of_stuck hstuck (a := .finish) (Nat.le_of_eq hk) hnotifying trivial
    cases hf : s.waits.sched.finishing with
    | none =>
      rw [hk, Waits.atWait, hf, hnotifying] at hnot
      cases hnot
    | some j => simp [finishedLoop, hf] at hfinish
  | 3 => rfl
  | k + 4 => omega

/-- Before the first join, everybody who waits was interrupted or has lost its wake-up, and there is somebody. -/
theorem waiting_of_stuck (h : Falling cfg s) (halive : s.waits.sched.Survives) (hjoined : s.joined = 0) :
    s.waits.sched.entering = [] ∧
      (∀ j ∈ s.waits.sched.waiting, j.jid ∈ s.interrupted ∨ s.phase ≠ .stopped ∧ LostWakeup s.waits j.jid) ∧
      s.ended ≠ NUM_THREADS := by
  have hsched := stuck_sched hstuck hjoined
  have hfin := h.draining.clients.waiting_finished (flagged_of_stuck h.draining halive hsched)
  refine ⟨entering_of_stuck h.draining.served halive hsched,
    fun j hj => caught_or_lost_of_stuck hstuck h.manned hjoined hj (hfin j hj), ?_⟩
  intro hended
  obtain ⟨hpc, -⟩ := stuck_rest h.draining.served halive hsched
  have hnot := not_atWait_of_stuck hstuck hended
  rw [hjoined, Waits.atWait, hpc] at hnot
  cases hnot

theorem down_or_asleep_of_stuck (h : Falling cfg s) (halive : s.waits.sched.Survives) : Down s ∨ Asleep s := by
  have hreading := reading_of_stuck hstuck
  have hidle := idle_of_stuck hstuck h.signalled
  have hstaff := h.manned.staff
  unfold Pool.busy Server.pool at hstaff
  dsimp only at hstaff
  by_cases hjoined : s.joined = 0
  · obtain ⟨hentering, hall, hsome⟩ := waiting_of_stuck hstuck h halive hjoined
    rw [hentering, List.length_nil] at hstaff
    by_cases hphase : s.phase = .stopped
    · have hcaught : s.interrupted.Perm (s.waits.sched.waiting.map Job.jid) := by
        have hwaiting := (List.nodup_append.mp h.manned.waiting_nodup).1
        refine (List.perm_ext_iff_of_nodup h.manned.interrupted_nodup hwaiting).mpr fun i =>
          ⟨fun hi => h.manned.handlers i (List.mem_append_right _ hi), fun hi => ?_⟩
        obtain ⟨j, hj, rfl⟩ := List.mem_map.mp hi
        exact (hall j hj).resolve_right fun hlost => hlost.1 hphase
      have hlength := hcaught.length_eq
      rw [List.length_map] at hlength
      have hended : s.ended + s.interrupted.length = NUM_THREADS := by omega
      refine .inl ⟨hphase, hcaught, hended, fun hnil => ?_⟩
      rw [hnil] at hended
      exact absurd hended hsome
    · obtain ⟨hnobody, hended⟩ := h.manned.early hphase
      refine .inr ⟨?_, by omega, fun j hj => ?_⟩
      · cases hp : s.phase with
        | serving => exact absurd hp h.signalled
        | signalled => rfl
        | stopped => exact absurd hp hphase
      · rcases hall j hj with hmem | ⟨-, hlost⟩
        · rw [hnobody] at hmem
          cases hmem
        · exact hlost
  · have hended := h.manned.late hjoined
    obtain ⟨-, hwaiting, hinterrupted⟩ := h.manned.handlers_nil hended
    refine .inl ⟨?_, ?_, ?_, fun _ => ⟨joined_of_stuck hstuck h.manned hjoined, h.manned.answered hended⟩⟩
    · by_contra hphase
      have := (h.manned.early hphase).2
      rw [hended] at this
      cases this
    · rw [hinterrupted, hwaiting]
      exact .nil
    · rw [hinterrupted, hended]
      rfl

end Stuck

/-- **There is no other way**: from every state reached with requests of positive predicted times in which a signal has
come, whatever order the threads take their steps in, a run without new connections, requests and spurious wake-ups is
finite. When it cannot go on, then either `handle_stop` was run and all workers have left, the loops are joined and every
client has its response, or those are left whose handlers were interrupted; or nobody is there to run `handle_stop`, as
all workers have lost their wake-ups. Unless the process has not survived. -/
theorem shutdown_rests (cfg : Config) (s : Server) (h : (server cfg).ReachableIf Server.Timed s)
    (hphase : s.phase ≠ .serving) :
    (server cfg).Quiesces Server.Leaving (fun t => t.waits.sched.Survives → Down t ∨ Asleep t) s := by
  obtain ⟨hmanned, hdraining⟩ := draining_of_reachable h
  refine Machine.quiesces_of_wf (I := Falling cfg) wf_waitsLess Server.left ?_ ?_ ⟨hmanned, hdraining, hphase⟩
  · intro u a v hu ha hs
    exact ⟨step_falling hu ha hs, (Server.step_cases hs).less hu.manned hu.draining.served ha⟩
  · exact fun _ hu hstuck halive => down_or_asleep_of_stuck hstuck hu halive

/-- From where the signal caught a client, to where it is waited for. -/
theorem shutdown_rests_one : ∃ s, (server localConfig).ReachableIf Server.Timed s ∧ s.phase = .stopped ∧
    s.sleeping = [1] ∧
    (server localConfig).Quiesces Server.Leaving (fun t => t.waits.sched.Survives → Down t ∨ Asleep t) s ∧
    ∃ t, (server localConfig).Continues Server.Leaving s t ∧ (t.waits.sched.Survives → Down t ∨ Asleep t) := by
  obtain ⟨s, hr, hs⟩ := Machine.exists_reachableIf (server localConfig) Server.Timed caughtClient
    (fun s => (s.phase, s.sleeping)) (.stopped, [1]) (by decide +kernel)
  simp only [Prod.mk.injEq] at hs
  obtain ⟨hphase, hsleeping⟩ := hs
  have hrests := shutdown_rests localConfig s hr (by rw [hphase]; exact fun h => by cases h)
  exact ⟨s, hr, hphase, hsleeping, hrests, hrests.exists_final⟩

/-- A client whose handler looks at the flag before the job is done and waits after the notification. -/
def lostClient (jid : Nat) : List Server.ServerAct :=
  List.flatten
    [[.take, .request (targetRequest 1000 1000), .act (.enqueue 0), .check jid], List.replicate 24 (.act .sched),
      List.replicate 2 (.act .dispatch), List.replicate 4 (.act (.run 0 msgEmpty)), List.replicate 2 (.act .finish),
      [.notifyAll, .wait jid]]

/-- Four of them, and a signal that nobody handles. -/
example : ∃ s, (server localConfig).ReachableIf Server.Timed s ∧ Asleep s := by
  obtain ⟨s, hr, hs⟩ := Machine.exists_reachableIf (server localConfig) Server.Timed
    ([1, 2, 3, 4].flatMap lostClient ++ [.signal])
    (fun s => (s.phase, s.waits.sched.waiting.length, decide (∀ j ∈ s.waits.sched.waiting,
      j.jid ∈ s.waits.sched.finished ∧ j.jid ∈ s.waits.notified ∧ s.waits.handler j.jid = .waiting)))
    (.signalled, NUM_THREADS, true) (by decide +kernel)
  simp only [Prod.mk.injEq, decide_eq_true_eq] at hs
  exact ⟨s, hr, hs.1, hs.2.1, hs.2.2⟩

end Hydrogen
