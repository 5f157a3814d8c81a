import Hydrogen.Scheduler.System

/-!
# Waking the handlers

A handler waits for its job in a loop: it looks at the `finished` flag and, if it is not set, waits on the condition
variable of the job. `finishedLoop` sets the flag and then calls `notify_all`. The flag has a lock of its own and the
handler's mutex is unknown to `finishedLoop`, so nothing keeps both steps of `finishedLoop` from falling between the two
of the handler.

`waits` is the scheduler with these steps apart. What it does to the queues, the scheduler of `System` can do too
(`reachable_sched`). No handler misses its notification in a run in which `notify_all` is never called while the handler
of that job is between its look at the flag and its wait (`no_lost_wakeup`); in other runs one can. A handler that can do
nothing more although its flag is set and nobody is being notified is one that has (`Attended.lost`).
-/

namespace Hydrogen

/-- Where the handler of a job is. -/
inductive HandlerPc where
  /-- the job is not on the ready queue yet -/
  | absent
  /-- about to look at the flag -/
  | checking
  /-- the flag was not set; about to wait -/
  | toWait
  /-- blocked on the condition variable -/
  | waiting
  /-- the flag was set; out of the loop -/
  | done
  deriving DecidableEq

/-- The scheduler, its handlers and the notifications. -/
structure Waits where
  sched : State
  /-- the handlers, by the id of their job -/
  handler : Nat → HandlerPc
  /-- the job whose flag `finishedLoop` has set and whose condition variable it is about to notify -/
  notifying : Option Nat
  /-- history: the jobs whose `notify_all` was called -/
  notified : List Nat

namespace Waits

/-- The handler of `jid` moves. -/
def move (w : Waits) (jid : Nat) (pc : HandlerPc) : Nat → HandlerPc := fun k => if k = jid then pc else w.handler k

/-- A handler that moves to where it is stays there. -/
theorem move_self (w : Waits) (jid : Nat) : w.move jid (w.handler jid) = w.handler := by
  funext k
  unfold move
  split
  · rename_i he
    rw [he]
  · rfl

/-- The handler looks at the flag. -/
def check (jid : Nat) (w : Waits) : Option Waits :=
  match w.handler jid with
  | .checking => some { w with handler := w.move jid (if jid ∈ w.sched.finished then .done else .toWait) }
  | _ => none

/-- The handler starts to wait. -/
def wait (jid : Nat) (w : Waits) : Option Waits :=
  match w.handler jid with
  | .toWait => some { w with handler := w.move jid .waiting }
  | _ => none

/-- `notify_all` wakes the handler if it is waiting; it looks at the flag again. -/
def notifyAll (w : Waits) : Option Waits :=
  match w.notifying with
  | none => none
  | some jid => some { w with
      handler := w.move jid (if w.handler jid = .waiting then .checking else w.handler jid)
      notifying := none
      notified := jid :: w.notified }

/-- A step of the scheduler: a handler that pushes its job enters the loop, one that copies the response has left it,
and `finishedLoop` goes on to the next job only after notifying. -/
def act (cfg : Config) (w : Waits) : Act → Option Waits
  | .enqueue i => (w.sched.step cfg (.enqueue i)).map fun s => { w with
      sched := s
      handler := fun k => if w.sched.entering[i]?.map Job.jid = some k then .checking else w.handler k }
  | .finish =>
    match w.notifying with
    | some _ => none
    | none => (w.sched.step cfg .finish).map fun s => { w with
        sched := s
        notifying := w.sched.finishing.map Job.jid }
  | .copy i =>
    if w.sched.waiting[i]?.map (fun j => w.handler j.jid) = some .done then
      (w.sched.step cfg (.copy i)).map fun s => { w with sched := s }
    else none
  | a => (w.sched.step cfg a).map fun s => { w with sched := s }

end Waits

/-- Which thread takes the next step. -/
inductive WaitAct where
  | act (a : Act)
  | check (jid : Nat)
  | wait (jid : Nat)
  | notifyAll

/-- One step. -/
def Waits.step (cfg : Config) (w : Waits) : WaitAct → Option Waits
  | .act a => w.act cfg a
  | .check jid => w.check jid
  | .wait jid => w.wait jid
  | .notifyAll => w.notifyAll

/-- The scheduler with its handlers. -/
def waits (cfg : Config) : Machine Waits WaitAct where
  init := ⟨State.init cfg, fun _ => .absent, none, []⟩
  step := fun w a => w.step cfg a

variable {cfg : Config} {w v : Waits}

/-! ## What a step does -/

/-- A step of the scheduler leaves the notifications, and a handler where it is or about to look at the flag. -/
theorem act_cases {a : Act} (hs : w.act cfg a = some v) :
    w.sched.step cfg a = some v.sched ∧ v.notified = w.notified ∧
      (∀ k, v.handler k = w.handler k ∨ v.handler k = .checking) ∧
      (v.notifying = w.notifying ∨ a = .finish ∧ v.notifying = w.sched.finishing.map Job.jid) := by
  cases a with
  | enqueue i =>
    obtain ⟨s, hst, rfl⟩ := Option.map_eq_some_iff.mp hs
    refine ⟨hst, rfl, fun k => ?_, .inl rfl⟩
    by_cases hk : w.sched.entering[i]?.map Job.jid = some k
    · exact .inr (if_pos hk)
    · exact .inl (if_neg hk)
  | finish =>
    simp only [Waits.act] at hs
    split at hs
    · cases hs
    · obtain ⟨s, hst, rfl⟩ := Option.map_eq_some_iff.mp hs
      exact ⟨hst, rfl, fun k => .inl rfl, .inr ⟨rfl, rfl⟩⟩
  | copy i =>
    simp only [Waits.act] at hs
    split at hs
    · obtain ⟨s, hst, rfl⟩ := Option.map_eq_some_iff.mp hs
      exact ⟨hst, rfl, fun k => .inl rfl, .inl rfl⟩
    · cases hs
  | drawId request =>
    simp only [Waits.act] at hs
    obtain ⟨s, hst, rfl⟩ := Option.map_eq_some_iff.mp hs
    exact ⟨hst, rfl, fun k => .inl rfl, .inl rfl⟩
  | sched =>
    obtain ⟨s, hst, rfl⟩ := Option.map_eq_some_iff.mp hs
    exact ⟨hst, rfl, fun k => .inl rfl, .inl rfl⟩
  | dispatch =>
    obtain ⟨s, hst, rfl⟩ := Option.map_eq_some_iff.mp hs
    exact ⟨hst, rfl, fun k => .inl rfl, .inl rfl⟩
  | run i rsp =>
    obtain ⟨s, hst, rfl⟩ := Option.map_eq_some_iff.mp hs
    exact ⟨hst, rfl, fun k => .inl rfl, .inl rfl⟩

theorem check_cases {jid : Nat} (hs : w.check jid = some v) : w.handler jid = .checking ∧
    v = { w with handler := w.move jid (if jid ∈ w.sched.finished then .done else .toWait) } := by
  unfold Waits.check at hs
  split at hs
  · rename_i hpc
    exact ⟨hpc, (Option.some.inj hs).symm⟩
  · cases hs

theorem wait_cases {jid : Nat} (hs : w.wait jid = some v) :
    w.handler jid = .toWait ∧ v = { w with handler := w.move jid .waiting } := by
  unfold Waits.wait at hs
  split at hs
  · rename_i hpc
    exact ⟨hpc, (Option.some.inj hs).symm⟩
  · cases hs

theorem notifyAll_cases (hs : w.notifyAll = some v) : ∃ jid, w.notifying = some jid ∧ v = { w with
    handler := w.move jid (if w.handler jid = .waiting then .checking else w.handler jid)
    notifying := none
    notified := jid :: w.notified } := by
  unfold Waits.notifyAll at hs
  split at hs
  · cases hs
  · rename_i jid hn
    exact ⟨jid, hn, (Option.some.inj hs).symm⟩

/-- **Refinement**: the scheduler of a state reached with the wait loops apart is a state of the scheduler. -/
theorem reachable_sched (h : (waits cfg).Reachable w) : (system cfg).Reachable w.sched := by
  have h0 : (system cfg).Reachable (State.init cfg) := .init
  refine h.invariant (I := fun w => (system cfg).Reachable w.sched) h0 ?_
  intro w a v hw hs
  cases a with
  | act a => exact .step hw trivial (act_cases hs).1
  | check jid =>
    obtain ⟨-, rfl⟩ := check_cases hs
    exact hw
  | wait jid =>
    obtain ⟨-, rfl⟩ := wait_cases hs
    exact hw
  | notifyAll =>
    obtain ⟨jid, -, rfl⟩ := notifyAll_cases hs
    exact hw

/-! ## The invariant -/

/-- The handler is neither waiting nor about to. -/
def HandlerPc.Awake (pc : HandlerPc) : Prop := pc ≠ .toWait ∧ pc ≠ .waiting

/-- Whoever is being or was notified has a flag set, and whoever was notified is awake. -/
structure Awoken (w : Waits) : Prop where
  notifying : ∀ jid ∈ w.notifying, jid ∈ w.sched.finished
  notified : ∀ jid ∈ w.notified, jid ∈ w.sched.finished ∧ (w.handler jid).Awake

/-- `notify_all` is not called while the handler is between its look at the flag and its wait. -/
def Timely (w : Waits) : WaitAct → Prop
  | .notifyAll => ∀ jid ∈ w.notifying, w.handler jid ≠ .toWait
  | _ => True

instance (w : Waits) : (a : WaitAct) → Decidable (Timely w a)
  | .notifyAll => inferInstanceAs (Decidable (∀ jid ∈ w.notifying, w.handler jid ≠ .toWait))
  | .act _ => .isTrue trivial
  | .check _ => .isTrue trivial
  | .wait _ => .isTrue trivial

theorem move_self (w : Waits) (jid : Nat) (pc : HandlerPc) : w.move jid pc jid = pc := if_pos rfl

theorem move_of_ne (w : Waits) {jid k : Nat} (pc : HandlerPc) (h : k ≠ jid) : w.move jid pc k = w.handler k := if_neg h

/-- A handler is awake after a move if it moved there awake, or did not move and was. -/
theorem awake_move {jid k : Nat} {pc : HandlerPc} (hself : k = jid → pc.Awake)
    (hother : k ≠ jid → (w.handler k).Awake) : (w.move jid pc k).Awake := by
  by_cases he : k = jid
  · subst he
    rw [move_self]
    exact hself rfl
  · rw [move_of_ne w pc he]
    exact hother he

theorem act_awoken {a : Act} (h : Awoken w) (hs : w.act cfg a = some v) : Awoken v := by
  obtain ⟨hst, hnotified, hhandler, hnotifying⟩ := act_cases hs
  have hmono : ∀ jid ∈ w.sched.finished, jid ∈ v.sched.finished := by
    intro jid hj
    rcases step_finished hst with he | ⟨j, -, he⟩
    · rw [he]; exact hj
    · rw [he]; exact List.mem_cons_of_mem _ hj
  constructor
  · intro jid hj
    rcases hnotifying with he | ⟨rfl, he⟩
    · rw [he] at hj
      exact hmono jid (h.notifying jid hj)
    · rw [he] at hj
      obtain ⟨j, hfin, rfl⟩ := Option.map_eq_some_iff.mp hj
      simp only [State.step, finishedLoop, hfin] at hst
      rw [← Option.some.inj hst]
      exact List.mem_cons_self
  · intro jid hj
    rw [hnotified] at hj
    obtain ⟨hf, hawake⟩ := h.notified jid hj
    refine ⟨hmono jid hf, ?_⟩
    rcases hhandler jid with he | he
    · rw [he]; exact hawake
    · rw [he]; exact ⟨by decide, by decide⟩

/-- **One step** keeps the invariant if it is timely. -/
theorem step_awoken {a : WaitAct} (h : Awoken w) (ht : Timely w a) (hs : w.step cfg a = some v) : Awoken v := by
  cases a with
  | act a => exact act_awoken h hs
  | check jid =>
    obtain ⟨-, rfl⟩ := check_cases hs
    refine ⟨h.notifying, fun k hk => ⟨(h.notified k hk).1, awake_move ?_ fun _ => (h.notified k hk).2⟩⟩
    -- a handler that was notified finds its flag set
    rintro rfl
    rw [if_pos (h.notified k hk).1]
    exact ⟨by decide, by decide⟩
  | wait jid =>
    obtain ⟨hpc, rfl⟩ := wait_cases hs
    refine ⟨h.notifying, fun k hk => ⟨(h.notified k hk).1, awake_move ?_ fun _ => (h.notified k hk).2⟩⟩
    rintro rfl
    exact absurd hpc (h.notified k hk).2.1
  | notifyAll =>
    obtain ⟨jid, hn, rfl⟩ := notifyAll_cases hs
    refine ⟨fun k hk => (by cases hk), fun k hk => ?_⟩
    have hold : k ≠ jid → k ∈ w.sched.finished ∧ (w.handler k).Awake := fun he =>
      h.notified k ((List.mem_cons.mp hk).resolve_left he)
    refine ⟨?_, awake_move ?_ fun he => (hold he).2⟩
    · by_cases he : k = jid
      · subst he
        exact h.notifying k hn
      · exact (hold he).1
    · rintro rfl
      split
      · exact ⟨by decide, by decide⟩
      · rename_i hw
        exact ⟨ht k hn, hw⟩

/-! ## Whole runs -/

/-- The flag of the job is set and its `notify_all` is over, and its handler is blocked. -/
def LostWakeup (w : Waits) (jid : Nat) : Prop :=
  jid ∈ w.sched.finished ∧ jid ∈ w.notified ∧ w.handler jid = .waiting

theorem reachable_awoken (h : (waits cfg).ReachableIf Timely w) : Awoken w :=
  h.invariant (I := Awoken) ⟨fun k hk => (by cases hk), fun k hk => (by cases hk)⟩ fun _ _ _ hw ht hs =>
    step_awoken hw ht hs

theorem not_lost_of_awoken (h : Awoken w) (jid : Nat) : ¬LostWakeup w jid := by
  rintro ⟨-, hn, hpc⟩
  exact (h.notified jid hn).2.2 hpc

/-- **No wake-up is lost** in a run whose notifications are timely. -/
theorem no_lost_wakeup (cfg : Config) (w : Waits) (h : (waits cfg).ReachableIf Timely w) (jid : Nat) :
    ¬LostWakeup w jid :=
  not_lost_of_awoken (reachable_awoken h) jid

/-- A request that is served up to the point where `finishedLoop` has set the flag of its job. -/
def untilFlagSet : List WaitAct :=
  (List.replicate 24 Act.sched ++ [Act.dispatch, Act.dispatch] ++ List.replicate 3 (Act.run 0 msgEmpty) ++
    [Act.finish, Act.finish]).map .act

/-- The handler waits in time, is woken and finds the flag set. -/
theorem no_lost_wakeup_woken : ∃ w, (waits localConfig).ReachableIf Timely w ∧ w.notified = [1] ∧
    w.handler 1 = .done ∧ ¬LostWakeup w 1 := by
  obtain ⟨w, hr, hw⟩ := Machine.exists_reachableIf (waits localConfig) Timely
    ((serve (targetRequest 100 200) 0).map .act ++ [.check 1, .wait 1] ++ untilFlagSet ++ [.notifyAll, .check 1])
    (fun w => (w.notified, w.handler 1)) ([1], .done) (by decide +kernel)
  exact ⟨w, hr, congrArg Prod.fst hw, congrArg Prod.snd hw, no_lost_wakeup localConfig w hr 1⟩

/-- The handler looks at the flag, `finishedLoop` sets it and notifies, and only then the handler waits: for ever. -/
theorem wakeup_lost : ¬∀ (cfg : Config) (w : Waits), (waits cfg).Reachable w → ∀ jid, ¬LostWakeup w jid := by
  intro h
  obtain ⟨w, hr, hw⟩ := Machine.exists_reachableIf (waits localConfig) (fun _ _ => True)
    ((serve (targetRequest 100 200) 0).map .act ++ [.check 1] ++ untilFlagSet ++ [.notifyAll, .wait 1])
    (fun w => (w.sched.finished, w.notified, w.handler 1)) ([1], [1], .waiting) (by decide +kernel)
  obtain ⟨hfin, hw⟩ := Prod.mk.inj hw
  obtain ⟨hnot, hpc⟩ := Prod.mk.inj hw
  refine h localConfig w hr 1 ⟨?_, ?_, hpc⟩
  · rw [hfin]
    exact List.mem_cons_self
  · rw [hnot]
    exact List.mem_cons_self

/-! ## The handlers in their loops -/

/-- Whoever waits for its job is in its loop, only those are, and whoever has its flag set was notified or is about to
be. -/
structure Attended (w : Waits) : Prop where
  here : ∀ j ∈ w.sched.waiting, w.handler j.jid ≠ .absent
  only : ∀ k, w.handler k ≠ .absent → w.handler k ≠ .done → k ∈ w.sched.waiting.map Job.jid
  told : ∀ k ∈ w.sched.finished, k ∈ w.notified ∨ k ∈ w.notifying

theorem attended_init (cfg : Config) : Attended (waits cfg).init :=
  ⟨fun j hj => (by cases hj), fun k hk => absurd rfl hk, fun k hk => by cases hk⟩

/-- A handler moves in its loop. -/
theorem Attended.move (h : Attended w) {jid : Nat} {pc : HandlerPc} (hin : w.handler jid ≠ .absent)
    (hout : w.handler jid ≠ .done) (hpc : pc ≠ .absent) : Attended { w with handler := w.move jid pc } := by
  refine ⟨fun j hj => ?_, fun k hk hdone => ?_, h.told⟩
  · by_cases he : j.jid = jid
    · simpa [Waits.move, he] using hpc
    · simpa [Waits.move, he] using h.here j hj
  · by_cases he : k = jid
    · rw [he]
      exact h.only jid hin hout
    · simp only [Waits.move, if_neg he] at hk hdone
      exact h.only k hk hdone

/-- A step of the scheduler that leaves the handlers alone. -/
theorem Attended.same (h : Attended w) {s : State} (hwaiting : s.waiting = w.sched.waiting)
    (hfinished : s.finished = w.sched.finished) : Attended { w with sched := s } := by
  refine ⟨?_, ?_, ?_⟩
  · simpa only [hwaiting] using h.here
  · simpa only [hwaiting] using h.only
  · simpa only [hfinished] using h.told

/-- A handler that has pushed its job enters its loop. -/
theorem Attended.enter (h : Attended w) (j : Job) {s : State} (hwaiting : s.waiting = j :: w.sched.waiting)
    (hfinished : s.finished = w.sched.finished) :
    Attended { w with sched := s, handler := w.move j.jid .checking } := by
  refine ⟨fun k hk => ?_, fun k hk hdone => ?_, by simpa only [hfinished] using h.told⟩
  · by_cases he : k.jid = j.jid
    · simp [Waits.move, he]
    · rw [hwaiting] at hk
      have hmem : k ∈ w.sched.waiting := (List.mem_cons.mp hk).resolve_left fun heq => he (heq ▸ rfl)
      simpa [Waits.move, he] using h.here k hmem
  · dsimp only
    rw [hwaiting, List.map_cons]
    by_cases he : k = j.jid
    · exact he ▸ List.mem_cons_self
    · simp only [Waits.move, if_neg he] at hk hdone
      exact List.mem_cons_of_mem _ (h.only k hk hdone)

/-- `finishedLoop` sets the flag of a job, and is about to notify its handler. -/
theorem Attended.flag (h : Attended w) (hnotifying : w.notifying = none) {jid : Nat} {s : State}
    (hwaiting : s.waiting = w.sched.waiting) (hfinished : s.finished = jid :: w.sched.finished) :
    Attended { w with sched := s, notifying := some jid } := by
  refine ⟨by simpa only [hwaiting] using h.here, by simpa only [hwaiting] using h.only, fun k hk => ?_⟩
  rw [hfinished] at hk
  rcases List.mem_cons.mp hk with rfl | hk
  · exact .inr rfl
  · have htold := h.told k hk
    rw [hnotifying] at htold
    exact .inl (htold.resolve_right fun he => by cases he)

/-- A handler that has left its loop copies the response. -/
theorem Attended.copied (h : Attended w) {j : Job} (hpc : w.handler j.jid = .done) {s : State}
    (hwaiting : (j :: s.waiting).Perm w.sched.waiting) (hfinished : s.finished = w.sched.finished) :
    Attended { w with sched := s } := by
  refine ⟨fun k hk => h.here k (hwaiting.subset (List.mem_cons_of_mem _ hk)), fun k hk hdone => ?_,
    by simpa only [hfinished] using h.told⟩
  obtain ⟨k', hk', rfl⟩ := List.mem_map.mp (h.only k hk hdone)
  rcases List.mem_cons.mp (hwaiting.mem_iff.mpr hk') with rfl | hk'
  · exact absurd hpc hdone
  · exact List.mem_map_of_mem hk'

theorem act_attended {a : Act} (h : Attended w) (hs : w.act cfg a = some v) : Attended v := by
  cases a with
  | drawId request =>
    simp only [Waits.act] at hs
    obtain ⟨s, hst, rfl⟩ := Option.map_eq_some_iff.mp hs
    obtain rfl := Option.some.inj hst
    exact h.same rfl rfl
  | enqueue i =>
    obtain ⟨s, hst, rfl⟩ := Option.map_eq_some_iff.mp hs
    obtain ⟨j, hj, -, rfl⟩ := enqueue_cases hst
    simp only [hj, Option.map_some, Option.some.injEq, @eq_comm _ j.jid]
    exact h.enter j rfl rfl
  | sched =>
    obtain ⟨s, hst, rfl⟩ := Option.map_eq_some_iff.mp hs
    cases schedLoop_cases hst with
    | adjust _ _ hu =>
      rw [updateResourcePool_frame hu]
      exact h.same rfl rfl
    | _ => exact h.same rfl rfl
  | dispatch =>
    obtain ⟨s, hst, rfl⟩ := Option.map_eq_some_iff.mp hs
    cases dispatcherLoop_cases hst with
    | _ => exact h.same rfl rfl
  | run i rsp =>
    obtain ⟨s, hst, rfl⟩ := Option.map_eq_some_iff.mp hs
    obtain ⟨th, -, hrun⟩ := runJob_cases hst
    cases hrun with
    | _ => exact h.same rfl rfl
  | finish =>
    simp only [Waits.act] at hs
    split at hs
    · cases hs
    · rename_i hnone
      obtain ⟨s, hst, rfl⟩ := Option.map_eq_some_iff.mp hs
      cases finishedLoop_cases hst with
      | pop hf _ =>
        rw [hf, Option.map_none, ← hnone]
        exact h.same rfl rfl
      | flag hf =>
        rw [hf]
        exact h.flag hnone rfl rfl
  | copy i =>
    obtain ⟨hpc, hmap⟩ := Option.ite_none_right_eq_some.mp hs
    obtain ⟨s, hst, rfl⟩ := Option.map_eq_some_iff.mp hmap
    obtain ⟨j, hj, -, rfl⟩ := copyResponse_cases hst
    obtain ⟨hlt, rfl⟩ := List.getElem?_eq_some_iff.mp hj
    rw [hj, Option.map_some, Option.some.injEq] at hpc
    exact h.copied hpc (List.getElem_cons_eraseIdx_perm hlt) rfl

theorem step_attended {a : WaitAct} (h : Attended w) (hs : w.step cfg a = some v) : Attended v := by
  cases a with
  | act a => exact act_attended h hs
  | check jid =>
    obtain ⟨hpc, rfl⟩ := check_cases hs
    refine h.move (by simp [hpc]) (by simp [hpc]) ?_
    split <;> exact fun he => by cases he
  | wait jid =>
    obtain ⟨hpc, rfl⟩ := wait_cases hs
    exact h.move (by simp [hpc]) (by simp [hpc]) fun he => by cases he
  | notifyAll =>
    obtain ⟨jid, hn, rfl⟩ := notifyAll_cases hs
    have hmoved : Attended { w with
        handler := w.move jid (if w.handler jid = .waiting then .checking else w.handler jid) } := by
      split
      · rename_i hpc
        exact h.move (by simp [hpc]) (by simp [hpc]) fun he => by cases he
      · rw [w.move_self]
        exact h
    refine ⟨hmoved.here, hmoved.only, fun k hk => .inl ?_⟩
    rcases h.told k hk with hk | hk
    · exact List.mem_cons_of_mem _ hk
    · rw [hn] at hk
      cases hk
      exact List.mem_cons_self

/-- A handler that waits and cannot go on, with its flag set and nobody being notified, has lost its wake-up. -/
theorem Attended.lost (h : Attended w) {j : Job} (hj : j ∈ w.sched.waiting) (hfin : j.jid ∈ w.sched.finished)
    (hquiet : w.notifying = none) (hcheck : w.check j.jid = none) (hwait : w.wait j.jid = none)
    (hcopy : ∀ i, w.sched.waiting[i]? = some j → w.act cfg (.copy i) = none) : LostWakeup w j.jid := by
  have hnotified : j.jid ∈ w.notified := by
    have htold := h.told _ hfin
    rw [hquiet] at htold
    exact htold.resolve_right fun he => by cases he
  refine ⟨hfin, hnotified, ?_⟩
  cases hpc : w.handler j.jid with
  | waiting => rfl
  | absent => exact absurd hpc (h.here j hj)
  | checking => simp [Waits.check, hpc] at hcheck
  | toWait => simp [Waits.wait, hpc] at hwait
  | done =>
    obtain ⟨i, hi⟩ := List.mem_iff_getElem?.mp hj
    have hnone := hcopy i hi
    simp [Waits.act, hi, hpc, State.step, copyResponse, hfin] at hnone

end Hydrogen
