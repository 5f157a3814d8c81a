import Hydrogen.Scheduler.Drain

/-!
# The statistics of the scheduler

Every job carries the times at which it was issued, dispatched and finished, and `finishedLoop` adds them to running
totals before it flags the job (`updateStatistics`). The mean waiting time of all completed jobs goes back to the client
of a moving average in `avg_wt`, where its executor takes it for the load of the shared devices; the other means and
totals are reported by `stop` when the server is terminated.

`clocked` is the scheduler with its clock readings: the label of a step has the time the thread reads in it, and the
reading it took before, where it subtracts the two. Times are exact, in seconds. The clock is the system's, so nothing
says that it does not go back; `Ticking` are the runs in which it does not.

* The totals are the sums over the completed jobs, and the means their quotients, in every state of every run, although
  the times of other jobs are written in between (`statistics_exact`).
* An average that was reported to a client is the mean over the jobs completed by then, its own among them
  (`reported_average`); if the clock does not go back it is between zero and the time since the start.
* `stop` divides by the number of schedules. Between rounds that is zero exactly as long as no job has left the ready
  queue (`stop_between_rounds`); within the first round it is zero even after jobs were answered.
-/

namespace Hydrogen

open StdAlgorithm

/-! ## The totals -/

/-- The times of a `Job`. -/
structure Times where
  issueTime : ℚ
  dispatchTime : ℚ
  finishTime : ℚ
  measuredExecutionTime : ℚ
  actualExecutionTime : ℚ

namespace Times

def waitTime (t : Times) : ℚ := t.dispatchTime - t.issueTime

def serviceTime (t : Times) : ℚ := t.finishTime - t.dispatchTime

def latency (t : Times) : ℚ := t.measuredExecutionTime - t.actualExecutionTime

end Times

/-- The totals and means of the scheduler. -/
structure Statistics where
  totalCompletions : Nat
  totalWaitTime : ℚ
  meanWaitTime : ℚ
  totalServiceTime : ℚ
  meanServiceTime : ℚ
  totalLatency : ℚ
  meanLatency : ℚ
  /-- in microseconds -/
  totalSchedTime : ℤ
  numSchedules : Nat
  totalJobsScheduled : Nat

/-- What the constructor sets. -/
def Statistics.init : Statistics := ⟨0, 0, 0, 0, 0, 0, 0, 0, 0, 0⟩

/-- A `duration_cast` to whole units. -/
def durationCast (unitsPerSecond : Nat) (t : ℚ) : ℤ := (t * unitsPerSecond).num.tdiv (t * unitsPerSecond).den

namespace Statistics

variable (st : Statistics) (t : Times)

def updateMeanWaitTime : Statistics :=
  let totalWaitTime := st.totalWaitTime + t.waitTime
  { st with totalWaitTime, meanWaitTime := totalWaitTime / st.totalCompletions }

def updateMeanServiceTime : Statistics :=
  let totalServiceTime := st.totalServiceTime + t.serviceTime
  { st with totalServiceTime, meanServiceTime := totalServiceTime / st.totalCompletions }

def updateLatency : Statistics :=
  let totalLatency := st.totalLatency + t.latency
  { st with totalLatency, meanLatency := totalLatency / st.totalCompletions }

/-- `updateStatistics`. -/
def updateStatistics : Statistics :=
  let st := { st with totalCompletions := st.totalCompletions + 1 }
  ((st.updateMeanWaitTime t).updateMeanServiceTime t).updateLatency t

/-- The end of a round of `schedLoop` that took from `start` to `now`. -/
def updateSchedules (numJobsScheduled : Nat) (start now : ℚ) : Statistics :=
  { st with
    totalSchedTime := st.totalSchedTime + durationCast 1000000 (now - start)
    numSchedules := st.numSchedules + 1
    totalJobsScheduled := st.totalJobsScheduled + numJobsScheduled }

/-- The `avg_wt` of the reply to a moving average: the mean waiting time in milliseconds, as an `int`. -/
def avgWt : BitVec 32 := BitVec.ofInt 32 (durationCast 1000 st.meanWaitTime)

end Statistics

/-! ## The clock readings of a step -/

/-- What a step of the scheduler means for the times and totals. -/
inductive Event where
  /-- the constructor of a job -/
  | drawn (jid : Nat)
  /-- `setIssueTime` -/
  | issued (jid : Nat)
  /-- `addToRunQ` -/
  | dispatched (jid : Nat)
  /-- `runJob` has the reply -/
  | answered (jid : Nat) (rsp : Msg)
  /-- `setFinishTime` -/
  | finished (jid : Nat)
  /-- `updateStatistics` -/
  | completed (jid : Nat)
  /-- `schedLoop` has counted the jobs of an allocation -/
  | counted (numJobsScheduled : Nat)
  /-- `serviceAllocations` has returned -/
  | serviced
  | silent

/-- The event of the next step of a thread. -/
def State.event (s : State) : Act → Event
  | .drawId _ => .drawn s.nextJid
  | .enqueue i =>
    match s.entering[i]? with
    | some j => .issued j.jid
    | none => .silent
  | .sched =>
    match s.pc with
    | .chosen a => .counted a.noJobs
    | .servicing [] => .serviced
    | .adding p _ => .dispatched p.1.jid
    | _ => .silent
  | .run i rsp =>
    match s.threads[i]? with
    | none => .silent
    | some t =>
      match t.phase with
      | .calling => .answered t.job.jid rsp
      | .returning [] => .finished t.job.jid
      | _ => .silent
  | .finish =>
    match s.finishing, s.finishedQ with
    | none, j :: _ => .completed j.jid
    | _, _ => .silent
  | _ => .silent

/-- The scheduler with its times and totals. -/
structure Clocked where
  sched : State
  /-- the times of the jobs, by id -/
  times : Nat → Times
  numJobsScheduled : Nat
  stats : Statistics
  startTime : ℚ
  /-- history: the last reading of the clock -/
  clock : ℚ
  /-- history: the `avg_wt` sent to clients, with the id of their job -/
  reported : List (Nat × BitVec 32)

namespace Clocked

/-- Set times of one job. -/
def stamp (w : Clocked) (jid : Nat) (f : Times → Times) : Clocked :=
  { w with times := fun k => if k = jid then f (w.times k) else w.times k }

/-- What the thread writes that reads the clock at `now`, having read `start` before. -/
def observe (w : Clocked) (start now : ℚ) : Event → Clocked
  | .drawn jid => w.stamp jid fun t => { t with issueTime := now, dispatchTime := now, finishTime := now }
  | .issued jid => w.stamp jid fun t => { t with issueTime := now }
  | .dispatched jid => w.stamp jid fun t => { t with dispatchTime := now }
  | .answered jid rsp => w.stamp jid fun t => { t with
      measuredExecutionTime := now - start
      actualExecutionTime := rsp.predictedTimeMillis.toInt / 1000 }
  | .finished jid => w.stamp jid fun t => { t with finishTime := now }
  | .completed jid => { w with stats := w.stats.updateStatistics (w.times jid) }
  | .counted numJobsScheduled => { w with numJobsScheduled }
  | .serviced => { w with stats := w.stats.updateSchedules w.numJobsScheduled start now }
  | .silent => w

/-- `handle_request` of a moving average, after its response was copied: the average is read and sent. -/
def report (w : Clocked) (j : Job) : Option Clocked :=
  if j ∈ w.sched.issued ∧ j.req.msgId = MSG_MOVING_AVG ∧ j.jid ∈ w.sched.copied.map Prod.fst ∧
      j.jid ∉ w.reported.map Prod.fst then
    some { w with reported := (j.jid, w.stats.avgWt) :: w.reported }
  else none

end Clocked

/-- A step of the scheduler with its clock readings, or the report of an average. -/
inductive ClockedAct where
  | act (a : Act) (start now : ℚ)
  | report (j : Job)

/-- One step. -/
def Clocked.step (cfg : Config) (w : Clocked) : ClockedAct → Option Clocked
  | .act a start now => (w.sched.step cfg a).map fun s =>
      { w.observe start now (w.sched.event a) with sched := s, clock := now }
  | .report j => w.report j

/-- The scheduler, constructed at `startTime`; what is in the memory of a job before it is constructed is arbitrary. -/
def clocked (cfg : Config) (startTime : ℚ) (memory : Nat → Times) : Machine Clocked ClockedAct where
  init := ⟨State.init cfg, memory, 0, .init, startTime, startTime, []⟩
  step := fun w a => w.step cfg a

variable {cfg : Config} {startTime : ℚ} {memory : Nat → Times} {w v : Clocked} {s t : State}

/-! ## What a step does -/

namespace Clocked

@[simp] theorem stamp_sched (jid : Nat) (f : Times → Times) : (w.stamp jid f).sched = w.sched := rfl

@[simp] theorem stamp_stats (jid : Nat) (f : Times → Times) : (w.stamp jid f).stats = w.stats := rfl

@[simp] theorem stamp_reported (jid : Nat) (f : Times → Times) : (w.stamp jid f).reported = w.reported := rfl

theorem stamp_self (w : Clocked) (jid : Nat) (f : Times → Times) : (w.stamp jid f).times jid = f (w.times jid) :=
  if_pos rfl

theorem stamp_of_ne (w : Clocked) {jid k : Nat} (f : Times → Times) (h : k ≠ jid) :
    (w.stamp jid f).times k = w.times k :=
  if_neg h

/-- A step of the scheduler, with what its thread writes; or a report, of a job whose response was copied. -/
theorem step_cases {a : ClockedAct} (hs : w.step cfg a = some v) :
    (∃ b start now t, a = .act b start now ∧ w.sched.step cfg b = some t ∧
      v = { w.observe start now (w.sched.event b) with sched := t, clock := now }) ∨
    ∃ j, a = .report j ∧ j ∈ w.sched.issued ∧ j.req.msgId = MSG_MOVING_AVG ∧ j.jid ∈ w.sched.copied.map Prod.fst ∧
      v = { w with reported := (j.jid, w.stats.avgWt) :: w.reported } := by
  cases a with
  | act b start now =>
    obtain ⟨t, ht, rfl⟩ := Option.map_eq_some_iff.mp hs
    exact .inl ⟨b, start, now, t, rfl, ht, rfl⟩
  | report j =>
    simp only [Clocked.step, report] at hs
    split at hs
    · rename_i hj
      exact .inr ⟨j, rfl, hj.1, hj.2.1, hj.2.2.1, (Option.some.inj hs).symm⟩
    · cases hs

end Clocked

/-- **Refinement**: the clock readings change nothing for the scheduler. -/
theorem reachable_unclocked (h : (clocked cfg startTime memory).Reachable w) : (system cfg).Reachable w.sched := by
  have h0 : (system cfg).Reachable (State.init cfg) := .init
  refine h.invariant (I := fun w => (system cfg).Reachable w.sched) h0 ?_
  intro w a v hw hs
  rcases Clocked.step_cases hs with ⟨b, start, now, t, -, ht, rfl⟩ | ⟨j, -, -, -, -, rfl⟩
  · exact .step hw trivial ht
  · exact hw

/-- The job whose times an event sets. -/
def Event.stamped : Event → Option Nat
  | .drawn jid => some jid
  | .issued jid => some jid
  | .dispatched jid => some jid
  | .answered jid _ => some jid
  | .finished jid => some jid
  | _ => none

/-- A job is completed by its event and by no other. -/
theorem step_completed {a : Act} (hs : s.step cfg a = some t) :
    (∃ j, s.event a = .completed j.jid ∧ s.finishing = none ∧ j ∈ s.finishedQ ∧ t.completed = j :: s.completed) ∨
    ((∀ i, s.event a ≠ .completed i) ∧ t.completed = s.completed) := by
  cases a with
  | drawId request =>
    obtain rfl := Option.some.inj hs
    exact .inr ⟨fun i h => (by cases h), rfl⟩
  | enqueue i =>
    obtain ⟨j, hj, -, rfl⟩ := enqueue_cases hs
    exact .inr ⟨fun i h => by simp [State.event, hj] at h, rfl⟩
  | sched =>
    refine .inr ⟨fun i h => ?_, ?_⟩
    · simp only [State.event] at h
      split at h <;> cases h
    · cases schedLoop_cases hs with
      | adjust _ _ hu => rw [updateResourcePool_frame hu]
      | _ => rfl
  | dispatch =>
    refine .inr ⟨fun i h => (by cases h), ?_⟩
    cases dispatcherLoop_cases hs with
    | _ => rfl
  | run i rsp =>
    obtain ⟨th, hth, hrun⟩ := runJob_cases hs
    refine .inr ⟨fun i h => ?_, ?_⟩
    · simp only [State.event, hth] at h
      split at h <;> cases h
    · cases hrun with
      | _ => rfl
  | finish =>
    cases finishedLoop_cases hs with
    | @pop j _ hf hq =>
      refine .inl ⟨j, ?_, hf, ?_, rfl⟩
      · simp only [State.event, hf, hq]
      · rw [hq]
        exact List.mem_cons_self
    | flag hf => exact .inr ⟨fun i h => by simp [State.event, hf] at h, rfl⟩
  | copy i =>
    obtain ⟨j, -, -, rfl⟩ := copyResponse_cases hs
    exact .inr ⟨fun i h => (by cases h), rfl⟩

theorem Life.completed_subset (h : Life s) : s.completed ⊆ s.issued := by
  intro j hj
  refine h.placed.subset ?_
  rw [State.places]
  exact List.mem_append_right _ hj

/-- No event sets the times of a job that is completed. -/
theorem Life.stamped_open (h : Life s) {a : Act} (hs : s.step cfg a = some t) {i : Nat}
    (hi : (s.event a).stamped = some i) : i ∉ s.completed.map Job.jid := by
  have hdis := h.at_nodup.2
  have hissued : i ∈ s.completed.map Job.jid → i ∈ s.issued.map Job.jid := fun hm =>
    List.map_subset _ h.completed_subset hm
  cases a with
  | drawId request =>
    cases hi
    intro hm
    have hold := (h.drawn s.nextJid).mp (by rw [List.map_append]; exact List.mem_append_right _ (hissued hm))
    omega
  | enqueue k =>
    obtain ⟨j, hj, -, -⟩ := enqueue_cases hs
    simp only [State.event, hj] at hi
    cases hi
    have hfresh := h.fresh
    rw [List.map_append] at hfresh
    intro hm
    exact (List.nodup_append.mp hfresh).2.2 _ (List.mem_map_of_mem (List.mem_of_getElem? hj)) _ (hissued hm) rfl
  | sched =>
    simp only [State.event] at hi
    split at hi <;> cases hi
    rename_i p _ hpc
    refine fun hm => hdis .transfer .completed (by decide) (a := p.1.jid) ?_ hm
    simp [State.at, hpc, SchedPc.transfer]
  | dispatch => cases hi
  | run k rsp =>
    obtain ⟨th, hth, -⟩ := runJob_cases hs
    have hmem := List.mem_of_getElem? hth
    -- the job of a thread that runs is at its place
    have hrunning : th.running = [th.job] → th.job.jid ∉ s.completed.map Job.jid := fun hrun hm => by
      refine hdis .running .completed (by decide) (a := th.job.jid) ?_ hm
      refine List.mem_map_of_mem (List.mem_append_right _ (List.mem_flatMap.mpr ⟨th, hmem, ?_⟩))
      rw [hrun]
      exact List.mem_singleton.mpr rfl
    simp only [State.event, hth] at hi
    split at hi
    · rename_i hph
      cases hi
      exact hrunning (by rw [Thread.running, hph])
    · rename_i hph
      cases hi
      exact hrunning (by rw [Thread.running, hph])
    · cases hi
  | finish =>
    simp only [State.event] at hi
    split at hi <;> cases hi
  | copy k => cases hi

theorem Clocked.observe_stamped (w : Clocked) (start now : ℚ) {e : Event} {jid : Nat} (h : e.stamped = some jid) :
    ∃ f, w.observe start now e = w.stamp jid f := by
  cases e with
  | completed i => cases h
  | counted n => cases h
  | serviced => cases h
  | silent => cases h
  | _ =>
    cases h
    exact ⟨_, by rw [observe]⟩

/-- What a thread writes leaves the times of the jobs it does not stamp. -/
theorem Clocked.observe_times {start now : ℚ} {e : Event} {k : Nat} (h : e.stamped ≠ some k) :
    (w.observe start now e).times k = w.times k := by
  cases he : e.stamped with
  | some jid =>
    obtain ⟨f, hf⟩ := w.observe_stamped start now he
    rw [hf]
    exact stamp_of_ne w f fun hk => h (by rw [he, hk])
  | none =>
    cases e with
    | completed i => rfl
    | counted n => rfl
    | serviced => rfl
    | silent => rfl
    | _ => cases he

/-! ## The totals are exact -/

/-- The sum of a time over jobs. -/
def Clocked.total (w : Clocked) (f : Times → ℚ) (js : List Job) : ℚ := (js.map fun j => f (w.times j.jid)).sum

theorem Clocked.total_cons (f : Times → ℚ) (j : Job) (js : List Job) :
    w.total f (j :: js) = f (w.times j.jid) + w.total f js := rfl

/-- The totals are those of the completed jobs, and the means are up to date. -/
structure Exact (w : Clocked) : Prop where
  totalCompletions : w.stats.totalCompletions = w.sched.completed.length
  totalWaitTime : w.stats.totalWaitTime = w.total Times.waitTime w.sched.completed
  meanWaitTime : w.stats.meanWaitTime = w.stats.totalWaitTime / w.stats.totalCompletions
  totalServiceTime : w.stats.totalServiceTime = w.total Times.serviceTime w.sched.completed
  meanServiceTime : w.stats.meanServiceTime = w.stats.totalServiceTime / w.stats.totalCompletions
  totalLatency : w.stats.totalLatency = w.total Times.latency w.sched.completed
  meanLatency : w.stats.meanLatency = w.stats.totalLatency / w.stats.totalCompletions

/-- The totals, if neither they nor the times they stand for have changed. -/
theorem Exact.same (h : Exact w) (hc : v.sched.completed = w.sched.completed)
    (ht : ∀ j ∈ w.sched.completed, v.times j.jid = w.times j.jid)
    (hn : v.stats.totalCompletions = w.stats.totalCompletions)
    (hw : v.stats.totalWaitTime = w.stats.totalWaitTime ∧ v.stats.meanWaitTime = w.stats.meanWaitTime)
    (hs : v.stats.totalServiceTime = w.stats.totalServiceTime ∧ v.stats.meanServiceTime = w.stats.meanServiceTime)
    (hl : v.stats.totalLatency = w.stats.totalLatency ∧ v.stats.meanLatency = w.stats.meanLatency) : Exact v := by
  have htotal : ∀ f : Times → ℚ, v.total f v.sched.completed = w.total f w.sched.completed := by
    intro f
    rw [Clocked.total, hc]
    exact congrArg List.sum (List.map_congr_left fun j hj => by rw [ht j hj])
  refine ⟨?_, ?_, ?_, ?_, ?_, ?_, ?_⟩
  · rw [hn, hc, h.totalCompletions]
  · rw [hw.1, htotal, h.totalWaitTime]
  · rw [hw.1, hw.2, hn, h.meanWaitTime]
  · rw [hs.1, htotal, h.totalServiceTime]
  · rw [hs.1, hs.2, hn, h.meanServiceTime]
  · rw [hl.1, htotal, h.totalLatency]
  · rw [hl.1, hl.2, hn, h.meanLatency]

/-- One more job is added to all totals. -/
theorem Exact.complete (h : Exact w) {j : Job} (hst : v.stats = w.stats.updateStatistics (w.times j.jid))
    (htimes : v.times = w.times) (hc : v.sched.completed = j :: w.sched.completed) : Exact v := by
  have htotal : ∀ f : Times → ℚ, v.total f v.sched.completed = w.total f w.sched.completed + f (w.times j.jid) := by
    intro f
    rw [hc, Clocked.total_cons, htimes, add_comm]
    exact congrArg (· + _) (by rw [Clocked.total, htimes]; rfl)
  refine ⟨?_, ?_, ?_, ?_, ?_, ?_, ?_⟩
  · rw [hst, hc, List.length_cons, ← h.totalCompletions]
    rfl
  · rw [htotal, ← h.totalWaitTime, hst]
    rfl
  · rw [hst]
    rfl
  · rw [htotal, ← h.totalServiceTime, hst]
    rfl
  · rw [hst]
    rfl
  · rw [htotal, ← h.totalLatency, hst]
    rfl
  · rw [hst]
    rfl

theorem step_exact {a : ClockedAct} (hl : Life w.sched) (h : Exact w) (hs : w.step cfg a = some v) : Exact v := by
  rcases Clocked.step_cases hs with ⟨b, start, now, t, -, ht, rfl⟩ | ⟨j, -, -, -, -, rfl⟩
  · rcases step_completed ht with ⟨j, hev, -, -, hc⟩ | ⟨hev, hc⟩
    · refine h.complete (j := j) ?_ ?_ hc
      · simp only [hev, Clocked.observe]
      · simp only [hev, Clocked.observe]
    · -- the times of the completed jobs stay, and the totals of completions with them
      have htimes : ∀ j ∈ w.sched.completed,
          (w.observe start now (w.sched.event b)).times j.jid = w.times j.jid := fun j hj =>
        Clocked.observe_times fun hst => hl.stamped_open ht hst (List.mem_map_of_mem hj)
      refine h.same hc htimes ?_ ?_ ?_ ?_
      all_goals
        cases he : w.sched.event b with
        | completed i => exact absurd he (hev i)
        | _ => simp [Clocked.observe, Statistics.updateSchedules]
  · exact h.same rfl (fun _ _ => rfl) rfl ⟨rfl, rfl⟩ ⟨rfl, rfl⟩ ⟨rfl, rfl⟩

theorem exact_init (cfg : Config) (startTime : ℚ) (memory : Nat → Times) :
    Exact (clocked cfg startTime memory).init := by
  refine ⟨rfl, rfl, ?_, rfl, ?_, rfl, ?_⟩
  all_goals exact (div_zero (0 : ℚ)).symm

theorem step_unclocked_life {a : ClockedAct} (h : Life w.sched) (hs : w.step cfg a = some v) : Life v.sched := by
  rcases Clocked.step_cases hs with ⟨b, start, now, t, -, ht, rfl⟩ | ⟨j, -, -, -, -, rfl⟩
  · exact step_life h ht
  · exact h

theorem reachable_exact (h : (clocked cfg startTime memory).Reachable w) : Life w.sched ∧ Exact w := by
  refine h.invariant (I := fun w => Life w.sched ∧ Exact w) ⟨life_init cfg, exact_init cfg startTime memory⟩ ?_
  exact fun w a v hi hs => ⟨step_unclocked_life hi.1 hs, step_exact hi.1 hi.2 hs⟩

/-- **The statistics are exact**: in every state of every run, with any clock, the totals are the sums over the completed
jobs, and each mean is the quotient of its total and the number of completions. -/
theorem statistics_exact (cfg : Config) (startTime : ℚ) (memory : Nat → Times) (w : Clocked)
    (h : (clocked cfg startTime memory).Reachable w) : Exact w :=
  (reachable_exact h).2

/-- A request for a moving average. -/
def averageRequest : Msg := { targetRequest 100 100 with msgId := MSG_MOVING_AVG }

/-- Steps, with the times the clock is read. -/
def readings (as : List (Act × ℚ)) : List ClockedAct := as.map fun p => .act p.1 0 p.2

/-- The request is issued after two seconds, dispatched after five and finished after eight, with `n` steps of
`schedLoop`; then its client is told the average. -/
def averageRun (n : Nat) : List ClockedAct :=
  readings ([(.drawId averageRequest, 1), (.enqueue 0, 2)] ++ List.replicate n (.sched, 5) ++
    [(.dispatch, 6), (.dispatch, 6)] ++ List.replicate 4 (.run 0 msgEmpty, 8) ++
    [(.finish, 9), (.finish, 9), (.copy 0, 9)]) ++ [.report (Job.ofRequest averageRequest 1)]

/-- A scheduler on the local machine whose clock starts at zero. -/
def localClocked : Machine Clocked ClockedAct := clocked localConfig 0 fun _ => ⟨0, 0, 0, 0, 0⟩

theorem statistics_exact_one : ∃ w, localClocked.Reachable w ∧ w.stats.totalWaitTime = 3 ∧
    w.stats.meanServiceTime = 3 ∧ Exact w := by
  obtain ⟨w, hr, hw⟩ := Machine.exists_reachableIf localClocked (fun _ _ => True) (averageRun 24)
    (fun w => (w.stats.totalWaitTime, w.stats.meanServiceTime)) (3, 3) (by decide +kernel)
  exact ⟨w, hr, congrArg Prod.fst hw, congrArg Prod.snd hw, statistics_exact _ _ _ w hr⟩

/-! ## The averages the clients get -/

/-- The `avg_wt` of the mean waiting time of some jobs. -/
def Clocked.averageOf (w : Clocked) (js : List Job) : BitVec 32 :=
  BitVec.ofInt 32 (durationCast 1000 (w.total Times.waitTime js / js.length))

/-- Responses are of completed jobs, and every average reported is that of the jobs completed at some time, the job it
was reported for among them. -/
structure Reports (w : Clocked) : Prop where
  copied : ∀ c ∈ w.sched.copied, c.1 ∈ w.sched.completed.map Job.jid
  reported : ∀ p ∈ w.reported, ∃ js, js <:+ w.sched.completed ∧ p.1 ∈ js.map Job.jid ∧ p.2 = w.averageOf js

theorem step_reports {a : ClockedAct} (hl : Life w.sched) (he : Exact w) (h : Reports w)
    (hs : w.step cfg a = some v) : Reports v := by
  rcases Clocked.step_cases hs with ⟨b, start, now, t, -, ht, rfl⟩ | ⟨j, -, -, -, hj, rfl⟩
  · refine ⟨step_copied hl h.copied ht, fun p hp => ?_⟩
    have hrep : (w.observe start now (w.sched.event b)).reported = w.reported := by
      cases w.sched.event b with
      | _ => rfl
    obtain ⟨js, hsuffix, hmem, havg⟩ := h.reported p (hrep ▸ hp)
    have hmore : w.sched.completed <:+ t.completed := by
      rcases step_completed ht with ⟨j, -, -, -, hc⟩ | ⟨-, hc⟩
      · rw [hc]
        exact List.suffix_cons j _
      · rw [hc]
    refine ⟨js, hsuffix.trans hmore, hmem, havg.trans ?_⟩
    -- the times of completed jobs are not set again
    have htimes : ∀ j ∈ js, (w.observe start now (w.sched.event b)).times j.jid = w.times j.jid := fun j hj =>
      Clocked.observe_times fun hst => hl.stamped_open ht hst (List.mem_map_of_mem (hsuffix.subset hj))
    have htotal : (js.map fun j => ((w.observe start now (w.sched.event b)).times j.jid).waitTime) =
        js.map fun j => (w.times j.jid).waitTime := List.map_congr_left fun j hj => by rw [htimes j hj]
    simp only [Clocked.averageOf, Clocked.total, htotal]
  · refine ⟨h.copied, fun p hp => ?_⟩
    rcases List.mem_cons.mp hp with rfl | hp
    · refine ⟨w.sched.completed, List.suffix_refl _, ?_, ?_⟩
      · obtain ⟨c, hc, hid⟩ := List.mem_map.mp hj
        exact hid ▸ h.copied c hc
      · simp only [Statistics.avgWt, Clocked.averageOf, he.meanWaitTime, he.totalWaitTime, he.totalCompletions]
        rfl
    · exact h.reported p hp

/-- **The average a client gets** is the mean waiting time over all jobs completed at some time before, and its own job
is one of them. -/
theorem reported_average (cfg : Config) (startTime : ℚ) (memory : Nat → Times) (w : Clocked)
    (h : (clocked cfg startTime memory).Reachable w) (jid : Nat) (avgWt : BitVec 32)
    (hr : (jid, avgWt) ∈ w.reported) :
    ∃ js, js <:+ w.sched.completed ∧ jid ∈ js.map Job.jid ∧ avgWt = w.averageOf js := by
  have hinv : (Life w.sched ∧ Exact w) ∧ Reports w := by
    refine h.invariant (I := fun w => (Life w.sched ∧ Exact w) ∧ Reports w)
      ⟨⟨life_init cfg, exact_init cfg startTime memory⟩, ⟨fun c hc => (by cases hc), fun p hp => (by cases hp)⟩⟩ ?_
    rintro w a v ⟨⟨hl, he⟩, hrep⟩ hs
    exact ⟨⟨step_unclocked_life hl hs, step_exact hl he hs⟩, step_reports hl he hrep hs⟩
  exact hinv.2.reported _ hr

theorem reported_average_one : ∃ w, localClocked.Reachable w ∧ w.reported = [(1, 3000)] ∧
    ∃ js, js <:+ w.sched.completed ∧ 1 ∈ js.map Job.jid ∧ 3000 = w.averageOf js := by
  obtain ⟨w, hr, hw⟩ := Machine.exists_reachableIf localClocked (fun _ _ => True) (averageRun 24)
    Clocked.reported [(1, 3000)] (by decide +kernel)
  exact ⟨w, hr, hw, reported_average _ _ _ w hr 1 3000 (by rw [hw]; exact List.mem_cons_self)⟩

/-! ## A clock that does not go back -/

/-- The clock of a step is not behind the last reading, or behind the one the thread took before. -/
def Ticking (w : Clocked) : ClockedAct → Prop
  | .act _ start now => w.clock ≤ now ∧ start ≤ now
  | .report _ => True

instance (w : Clocked) (a : ClockedAct) : Decidable (Ticking w a) := by
  unfold Ticking
  split <;> infer_instance

/-- The jobs issued and not dispatched yet. -/
def State.undispatched (s : State) : List Job := s.readyQ ++ s.pc.transfer.map Prod.fst

/-- Jobs are issued and dispatched by their events. -/
theorem step_dispatched {a : Act} (hl : Life s) (hs : s.step cfg a = some t) {j : Job} (hj : j ∈ t.issued) :
    (j ∈ s.issued ∨ s.event a = .issued j.jid) ∧
      (j ∉ t.undispatched → (j ∈ s.issued ∧ j ∉ s.undispatched) ∨ s.event a = .dispatched j.jid) := by
  -- a step that touches neither the ready queue nor the pair in transfer
  have hsame : t.issued = s.issued → (∀ i, i ∈ t.undispatched ↔ i ∈ s.undispatched) →
      (j ∈ s.issued ∨ s.event a = .issued j.jid) ∧
        (j ∉ t.undispatched → (j ∈ s.issued ∧ j ∉ s.undispatched) ∨ s.event a = .dispatched j.jid) := by
    intro hi hu
    rw [hi] at hj
    exact ⟨.inl hj, fun hn => .inl ⟨hj, fun hm => hn ((hu j).mpr hm)⟩⟩
  cases a with
  | drawId request =>
    obtain rfl := Option.some.inj hs
    exact hsame rfl fun _ => .rfl
  | enqueue i =>
    obtain ⟨k, hk, -, rfl⟩ := enqueue_cases hs
    have hev : s.event (.enqueue i) = .issued k.jid := by simp only [State.event, hk]
    rcases List.mem_append.mp hj with hj | hj
    · refine ⟨.inl hj, fun hn => .inl ⟨hj, fun hm => hn ?_⟩⟩
      exact List.mem_cons_of_mem _ hm
    · obtain rfl := List.mem_singleton.mp hj
      exact ⟨.inr hev, fun hn => absurd List.mem_cons_self hn⟩
  | sched =>
    cases schedLoop_cases hs with
    | adjust hpc _ hu =>
      rw [updateResourcePool_frame hu] at hj hsame ⊢
      exact hsame rfl fun i => by simp [State.undispatched, hpc, SchedPc.transfer]
    | @remove p todo hpc =>
      have hsel := hl.selects
      rw [hpc] at hsel
      have hmem : p.1 ∈ s.readyQ := hsel.subset List.mem_cons_self
      have hperm := perm_cons_eraseP_key Job.jid hmem hl.readyQ_ids_nodup
      refine hsame rfl fun i => ?_
      simp only [State.undispatched, hpc, SchedPc.transfer, removeJobFromReadyQ, List.map_cons, List.map_nil,
        List.append_nil, hperm.mem_iff, List.mem_append, List.mem_cons, List.not_mem_nil, or_false]
      exact or_comm
    | @add p todo hpc =>
      refine ⟨.inl hj, fun hn => ?_⟩
      by_cases hjp : j = p.1
      · exact .inr (by simp only [State.event, hpc, hjp])
      · refine .inl ⟨hj, fun hm => hn ?_⟩
        simp only [State.undispatched, hpc, SchedPc.transfer, List.map_cons, List.map_nil, List.mem_append,
          List.mem_cons, List.not_mem_nil, or_false] at hm ⊢
        exact hm.resolve_right hjp
    | start hpc _ _ => exact hsame rfl fun i => by simp [State.undispatched, hpc, SchedPc.transfer]
    | choose hpc => exact hsame rfl fun i => by simp [State.undispatched, hpc, SchedPc.transfer]
    | operate hpc _ => exact hsame rfl fun i => by simp [State.undispatched, hpc, SchedPc.transfer]
    | giveUp hpc => exact hsame rfl fun i => by simp [State.undispatched, hpc, SchedPc.transfer]
    | rest hpc => exact hsame rfl fun i => by simp [State.undispatched, hpc, SchedPc.transfer]
    | claim hpc => exact hsame rfl fun i => by simp [State.undispatched, hpc, SchedPc.transfer]
  | dispatch =>
    cases dispatcherLoop_cases hs with
    | _ => exact hsame rfl fun _ => .rfl
  | run i rsp =>
    obtain ⟨th, -, hrun⟩ := runJob_cases hs
    cases hrun with
    | _ => exact hsame rfl fun _ => .rfl
  | finish =>
    cases finishedLoop_cases hs with
    | _ => exact hsame rfl fun _ => .rfl
  | copy i =>
    obtain ⟨k, -, -, rfl⟩ := copyResponse_cases hs
    exact hsame rfl fun _ => .rfl

/-- Only a job that is not issued yet gets an issue time. -/
theorem Life.issue_open (h : Life s) {a : Act} (hs : s.step cfg a = some t) {j : Job} (hj : j ∈ s.issued) :
    s.event a ≠ .drawn j.jid ∧ s.event a ≠ .issued j.jid := by
  have hid := List.mem_map_of_mem (f := Job.jid) hj
  constructor
  · intro he
    cases a with
    | drawId request =>
      simp only [State.event, Event.drawn.injEq] at he
      have hold := (h.drawn j.jid).mp (by rw [List.map_append]; exact List.mem_append_right _ hid)
      omega
    | enqueue i =>
      simp only [State.event] at he
      split at he <;> cases he
    | sched =>
      simp only [State.event] at he
      split at he <;> cases he
    | run i rsp =>
      obtain ⟨th, hth, -⟩ := runJob_cases hs
      simp only [State.event, hth] at he
      split at he <;> cases he
    | finish =>
      simp only [State.event] at he
      split at he <;> cases he
    | dispatch => cases he
    | copy i => cases he
  · intro he
    cases a with
    | enqueue i =>
      obtain ⟨k, hk, -, -⟩ := enqueue_cases hs
      simp only [State.event, hk, Event.issued.injEq] at he
      have hfresh := h.fresh
      rw [List.map_append] at hfresh
      exact (List.nodup_append.mp hfresh).2.2 _ (List.mem_map_of_mem (List.mem_of_getElem? hk)) _ hid he
    | drawId request => cases he
    | sched =>
      simp only [State.event] at he
      split at he <;> cases he
    | run i rsp =>
      obtain ⟨th, hth, -⟩ := runJob_cases hs
      simp only [State.event, hth] at he
      split at he <;> cases he
    | finish =>
      simp only [State.event] at he
      split at he <;> cases he
    | dispatch => cases he
    | copy i => cases he

namespace Clocked

variable {start now : ℚ} {e : Event} {k : Nat}

theorem observe_issueTime (h1 : e ≠ .drawn k) (h2 : e ≠ .issued k) :
    ((w.observe start now e).times k).issueTime = (w.times k).issueTime := by
  cases e with
  | drawn jid => simp [observe, stamp, show k ≠ jid from fun h => h1 (by rw [h])]
  | issued jid => simp [observe, stamp, show k ≠ jid from fun h => h2 (by rw [h])]
  | dispatched jid => simp only [observe, stamp]; split <;> rfl
  | answered jid rsp => simp only [observe, stamp]; split <;> rfl
  | finished jid => simp only [observe, stamp]; split <;> rfl
  | _ => rfl

theorem observe_dispatchTime (h1 : e ≠ .drawn k) (h2 : e ≠ .dispatched k) :
    ((w.observe start now e).times k).dispatchTime = (w.times k).dispatchTime := by
  cases e with
  | drawn jid => simp [observe, stamp, show k ≠ jid from fun h => h1 (by rw [h])]
  | dispatched jid => simp [observe, stamp, show k ≠ jid from fun h => h2 (by rw [h])]
  | issued jid => simp only [observe, stamp]; split <;> rfl
  | answered jid rsp => simp only [observe, stamp]; split <;> rfl
  | finished jid => simp only [observe, stamp]; split <;> rfl
  | _ => rfl

end Clocked

/-- Jobs were issued after the start, and dispatched after they were issued. -/
structure Ordered (startTime : ℚ) (w : Clocked) : Prop where
  started : startTime ≤ w.clock
  issued : ∀ j ∈ w.sched.issued,
    startTime ≤ (w.times j.jid).issueTime ∧ (w.times j.jid).issueTime ≤ w.clock
  dispatched : ∀ j ∈ w.sched.issued, j ∉ w.sched.undispatched →
    (w.times j.jid).issueTime ≤ (w.times j.jid).dispatchTime ∧ (w.times j.jid).dispatchTime ≤ w.clock

theorem step_ordered {a : ClockedAct} (hl : Life w.sched) (h : Ordered startTime w) (hc : Ticking w a)
    (hs : w.step cfg a = some v) : Ordered startTime v := by
  rcases Clocked.step_cases hs with ⟨b, start, now, t, rfl, ht, rfl⟩ | ⟨j, -, -, -, -, rfl⟩
  · obtain ⟨hclock, -⟩ := hc
    have hissue : ∀ j ∈ w.sched.issued,
        ((w.observe start now (w.sched.event b)).times j.jid).issueTime = (w.times j.jid).issueTime := fun j hj =>
      Clocked.observe_issueTime (hl.issue_open ht hj).1 (hl.issue_open ht hj).2
    refine ⟨h.started.trans hclock, fun j hj => ?_, fun j hj hdone => ?_⟩
    · rcases (step_dispatched hl ht hj).1 with hj | hev
      · have := h.issued j hj
        dsimp only
        rw [hissue j hj]
        exact ⟨this.1, this.2.trans hclock⟩
      · dsimp only
        rw [hev, Clocked.observe, Clocked.stamp_self]
        exact ⟨h.started.trans hclock, le_rfl⟩
    · rcases (step_dispatched hl ht hj).2 hdone with ⟨hj, hwas⟩ | hev
      · have hold := h.dispatched j hj hwas
        by_cases hev : w.sched.event b = .dispatched j.jid
        · have hle := (h.issued j hj).2
          dsimp only
          rw [hissue j hj, hev, Clocked.observe, Clocked.stamp_self]
          exact ⟨hle.trans hclock, le_rfl⟩
        · dsimp only
          rw [hissue j hj, Clocked.observe_dispatchTime (hl.issue_open ht hj).1 hev]
          exact ⟨hold.1, hold.2.trans hclock⟩
      · have hj' : j ∈ w.sched.issued := by
          rcases (step_dispatched hl ht hj).1 with hj | hi
          · exact hj
          · rw [hi] at hev
            cases hev
        have hle := (h.issued j hj').2
        dsimp only
        rw [hissue j hj', hev, Clocked.observe, Clocked.stamp_self]
        exact ⟨hle.trans hclock, le_rfl⟩
  · exact ⟨h.started, h.issued, h.dispatched⟩

/-- A completed job was dispatched. -/
theorem Life.completed_dispatched (h : Life s) {j : Job} (hj : j ∈ s.completed) : j ∉ s.undispatched := by
  have hid := List.mem_map_of_mem (f := Job.jid) hj
  intro hm
  rcases List.mem_append.mp hm with hm | hm
  · exact h.at_nodup.2 .readyQ .completed (by decide) (List.mem_map_of_mem hm) hid
  · exact h.at_nodup.2 .transfer .completed (by decide) (List.mem_map_of_mem hm) hid

theorem Ordered.waitTime (h : Ordered startTime w) (hl : Life w.sched) {j : Job} (hj : j ∈ w.sched.completed) :
    0 ≤ (w.times j.jid).waitTime ∧ (w.times j.jid).waitTime ≤ w.clock - startTime := by
  have hissued := hl.completed_subset hj
  have h1 := h.issued j hissued
  have h2 := h.dispatched j hissued (hl.completed_dispatched hj)
  constructor
  · exact sub_nonneg.mpr h2.1
  · unfold Times.waitTime
    linarith

/-- A mean of numbers between two bounds is between them. -/
theorem mean_bounds (xs : List ℚ) {b : ℚ} (hb : 0 ≤ b) (h : ∀ x ∈ xs, 0 ≤ x ∧ x ≤ b) :
    0 ≤ xs.sum / xs.length ∧ xs.sum / xs.length ≤ b := by
  have hnonneg : 0 ≤ xs.sum := List.sum_nonneg fun x hx => (h x hx).1
  refine ⟨div_nonneg hnonneg (by positivity), ?_⟩
  have hle := List.sum_le_card_nsmul xs b fun x hx => (h x hx).2
  rw [nsmul_eq_mul] at hle
  by_cases hnil : xs = []
  · simpa [hnil] using hb
  · have hpos : (0 : ℚ) < xs.length := by exact_mod_cast List.length_pos_iff.mpr hnil
    rw [div_le_iff₀ hpos]
    linarith

/-- **Waiting times are bounded by the uptime**: in every run in which the clock does not go back, no completed job has
waited less than no time or more than since the start, and so for the mean. -/
theorem wait_within_uptime (cfg : Config) (startTime : ℚ) (memory : Nat → Times) (w : Clocked)
    (h : (clocked cfg startTime memory).ReachableIf Ticking w) :
    (∀ j ∈ w.sched.completed, 0 ≤ (w.times j.jid).waitTime ∧ (w.times j.jid).waitTime ≤ w.clock - startTime) ∧
      0 ≤ w.stats.meanWaitTime ∧ w.stats.meanWaitTime ≤ w.clock - startTime := by
  have hinv : (Life w.sched ∧ Exact w) ∧ Ordered startTime w := by
    refine h.invariant (I := fun w => (Life w.sched ∧ Exact w) ∧ Ordered startTime w)
      ⟨⟨life_init cfg, exact_init cfg startTime memory⟩,
        ⟨le_rfl, fun j hj => (by cases hj), fun j hj => (by cases hj)⟩⟩ ?_
    rintro w a v ⟨⟨hl, he⟩, ho⟩ hc hs
    exact ⟨⟨step_unclocked_life hl hs, step_exact hl he hs⟩, step_ordered hl ho hc hs⟩
  obtain ⟨⟨hl, he⟩, ho⟩ := hinv
  have hall := fun j (hj : j ∈ w.sched.completed) => ho.waitTime hl hj
  refine ⟨hall, ?_⟩
  have hmean := mean_bounds (w.sched.completed.map fun j => (w.times j.jid).waitTime)
    (sub_nonneg.mpr ho.started) (by simpa using hall)
  rw [List.length_map] at hmean
  rw [he.meanWaitTime, he.totalWaitTime, he.totalCompletions]
  exact hmean

theorem wait_within_uptime_one : ∃ w, localClocked.ReachableIf Ticking w ∧ w.clock = 9 ∧ w.stats.meanWaitTime = 3 ∧
    0 ≤ w.stats.meanWaitTime ∧ w.stats.meanWaitTime ≤ w.clock - 0 := by
  obtain ⟨w, hr, hw⟩ := Machine.exists_reachableIf localClocked Ticking (averageRun 24)
    (fun w => (w.clock, w.stats.meanWaitTime)) (9, 3) (by decide +kernel)
  exact ⟨w, hr, congrArg Prod.fst hw, congrArg Prod.snd hw, (wait_within_uptime _ _ _ w hr).2⟩

/-! ## The report of `stop` -/

/-- What `stop` prints of the totals. -/
structure Report where
  meanWaitTime : ℚ
  meanServiceTime : ℚ
  meanLatency : ℚ
  /-- in microseconds -/
  meanSchedulingOverhead : ℤ
  totalJobs : Nat
  totalCompletions : Nat
  jobsPerSchedule : ℚ

/-- `stop`; none if it divides an integer by zero. -/
def Clocked.stop (w : Clocked) : Option Report :=
  if w.stats.numSchedules = 0 then none
  else some
    { meanWaitTime := w.stats.meanWaitTime
      meanServiceTime := w.stats.meanServiceTime
      meanLatency := w.stats.meanLatency
      meanSchedulingOverhead := w.stats.totalSchedTime.tdiv w.stats.numSchedules
      totalJobs := w.stats.totalCompletions + w.sched.readyQ.length + w.sched.runQ.length
      totalCompletions := w.stats.totalCompletions
      jobsPerSchedule := w.stats.totalJobsScheduled / w.stats.numSchedules }

theorem Clocked.stop_eq_none (w : Clocked) : w.stop = none ↔ w.stats.numSchedules = 0 := by
  unfold stop
  split
  · rename_i h
    exact iff_of_true rfl h
  · rename_i h
    exact iff_of_false (by simp) h

/-- `schedLoop` is servicing an allocation. -/
def SchedPc.inService : SchedPc → Bool
  | .servicing _ => true
  | .claiming _ _ => true
  | .adding _ _ => true
  | _ => false

/-- No schedule is counted before a job has left the ready queue, and one is by the end of the round in which the first
did; a round that is at its end has taken a job out. -/
structure Counted (w : Clocked) : Prop where
  none_left : w.stats.numSchedules = 0 → w.sched.pc.inService = false →
    w.sched.readyQ.length = w.sched.issued.length
  some_left : w.stats.numSchedules ≠ 0 → w.sched.readyQ.length < w.sched.issued.length
  round : w.sched.pc = .servicing [] → w.sched.readyQ.length < w.sched.issued.length

theorem Life.readyQ_length_le (h : Life s) : s.readyQ.length ≤ s.issued.length := by
  have := h.placed.length_eq
  simp only [State.places, List.length_append] at this
  omega

theorem Clocked.observe_numSchedules (w : Clocked) (start now : ℚ) {e : Event} (h : e ≠ .serviced) :
    (w.observe start now e).stats.numSchedules = w.stats.numSchedules := by
  cases e with
  | serviced => exact absurd rfl h
  | _ => rfl

/-- A step that takes no job out of the ready queue and ends no round. -/
theorem Counted.same {start now : ℚ} {e : Event} (h : Counted w) (he : e ≠ .serviced)
    (hlen : t.readyQ.length = w.sched.readyQ.length ∧ t.issued.length = w.sched.issued.length ∨
      t.readyQ.length = w.sched.readyQ.length + 1 ∧ t.issued.length = w.sched.issued.length + 1)
    (hpc : t.pc.inService = false → w.sched.pc.inService = false)
    (hround : t.pc = .servicing [] → w.sched.readyQ.length < w.sched.issued.length) :
    Counted { w.observe start now e with sched := t, clock := now } := by
  have hnum := w.observe_numSchedules start now he
  refine ⟨fun h0 hi => ?_, fun h0 => ?_, fun hp => ?_⟩
  · have := h.none_left (hnum.symm.trans h0) (hpc hi)
    show t.readyQ.length = t.issued.length
    omega
  · have := h.some_left fun hz => h0 (hnum.trans hz)
    show t.readyQ.length < t.issued.length
    omega
  · have := hround hp
    show t.readyQ.length < t.issued.length
    omega

/-- A round ends in a step of `schedLoop` that has nothing left to do. -/
theorem event_ne_serviced {a : Act} (h : a = .sched → s.pc ≠ .servicing []) : s.event a ≠ .serviced := by
  intro he
  cases a with
  | enqueue i =>
    simp only [State.event] at he
    split at he <;> cases he
  | sched =>
    simp only [State.event] at he
    split at he
    · cases he
    · rename_i hpc
      exact h rfl hpc
    · cases he
    · cases he
  | run i rsp =>
    simp only [State.event] at he
    split at he
    · cases he
    · split at he <;> cases he
  | finish =>
    simp only [State.event] at he
    split at he <;> cases he
  | _ => cases he

theorem schedLoop_counted {start now : ℚ} (hl : Life w.sched) (h : Counted w) (hs : schedLoop cfg w.sched = some t) :
    Counted { w.observe start now (w.sched.event .sched) with sched := t, clock := now } := by
  -- a step that stays within its part of the round
  have hsame : t.readyQ = w.sched.readyQ → t.issued = w.sched.issued → w.sched.pc ≠ .servicing [] →
      (t.pc.inService = false → w.sched.pc.inService = false) →
      (t.pc = .servicing [] → w.sched.readyQ.length < w.sched.issued.length) →
      Counted { w.observe start now (w.sched.event .sched) with sched := t, clock := now } := by
    intro hq hi hpc
    exact h.same (event_ne_serviced fun _ => hpc) (.inl ⟨by rw [hq], by rw [hi]⟩)
  cases schedLoop_cases hs with
  | start hpc _ _ => exact hsame rfl rfl (by simp [hpc]) (by simp [hpc, SchedPc.inService]) (by simp)
  | choose hpc => exact hsame rfl rfl (by simp [hpc]) (by simp [hpc, SchedPc.inService]) (by simp)
  | operate hpc _ => exact hsame rfl rfl (by simp [hpc]) (by simp [hpc, SchedPc.inService]) (by simp)
  | @adjust a u hpc hjobs hu =>
    rw [updateResourcePool_frame hu] at hsame ⊢
    refine hsame rfl rfl (by simp [hpc]) (by simp [SchedPc.inService]) fun hnil => ?_
    have := a.jobs_length_pos hjobs
    simp only [SchedPc.servicing.injEq] at hnil
    simp [hnil] at this
  | giveUp hpc => exact hsame rfl rfl (by simp [hpc]) (by simp [hpc, SchedPc.inService]) (by simp)
  | rest hpc =>
    have hev : w.sched.event .sched = .serviced := by simp only [State.event, hpc]
    rw [hev]
    refine ⟨fun h0 => absurd h0 (Nat.succ_ne_zero _), fun _ => h.round hpc, fun hp => ?_⟩
    cases hp
  | @remove p todo hpc =>
    have hsel := hl.selects
    rw [hpc] at hsel
    have hmem : p.1 ∈ w.sched.readyQ := hsel.subset List.mem_cons_self
    have hperm := (perm_cons_eraseP_key Job.jid hmem hl.readyQ_ids_nodup).length_eq
    have hle := hl.readyQ_length_le
    have hless : (removeJobFromReadyQ p.1.jid w.sched.readyQ).length < w.sched.issued.length := by
      simp only [removeJobFromReadyQ, List.length_cons] at hperm ⊢
      omega
    refine ⟨fun _ hi => ?_, fun _ => hless, fun hp => ?_⟩
    · cases hi
    · cases hp
  | claim hpc => exact hsame rfl rfl (by simp [hpc]) (by simp [SchedPc.inService]) (by simp)
  | add hpc =>
    refine hsame rfl rfl (by simp [hpc]) (by simp [SchedPc.inService]) fun _ => ?_
    -- the job in transfer has left the ready queue
    have := hl.placed.length_eq
    simp only [State.places, hpc, SchedPc.transfer, List.length_append, List.length_map, List.length_cons] at this
    omega

theorem step_counted {a : ClockedAct} (hl : Life w.sched) (h : Counted w) (hs : w.step cfg a = some v) :
    Counted v := by
  rcases Clocked.step_cases hs with ⟨b, start, now, t, -, ht, rfl⟩ | ⟨j, -, -, -, -, rfl⟩
  · cases b with
    | drawId request =>
      obtain rfl := Option.some.inj ht
      exact h.same (event_ne_serviced (by simp)) (.inl ⟨rfl, rfl⟩) id h.round
    | enqueue i =>
      have hne := event_ne_serviced (s := w.sched) (a := .enqueue i) (by simp)
      obtain ⟨j, -, -, rfl⟩ := enqueue_cases ht
      exact h.same hne (.inr ⟨rfl, by simp⟩) id h.round
    | sched => exact schedLoop_counted hl h ht
    | dispatch =>
      have hne := event_ne_serviced (s := w.sched) (a := .dispatch) (by simp)
      cases dispatcherLoop_cases ht with
      | _ => exact h.same hne (.inl ⟨rfl, rfl⟩) id h.round
    | run i rsp =>
      have hne := event_ne_serviced (s := w.sched) (a := .run i rsp) (by simp)
      obtain ⟨th, -, hrun⟩ := runJob_cases ht
      cases hrun with
      | _ => exact h.same hne (.inl ⟨rfl, rfl⟩) id h.round
    | finish =>
      have hne := event_ne_serviced (s := w.sched) (a := .finish) (by simp)
      cases finishedLoop_cases ht with
      | _ => exact h.same hne (.inl ⟨rfl, rfl⟩) id h.round
    | copy i =>
      have hne := event_ne_serviced (s := w.sched) (a := .copy i) (by simp)
      obtain ⟨j, -, -, rfl⟩ := copyResponse_cases ht
      exact h.same hne (.inl ⟨rfl, rfl⟩) id h.round
  · exact ⟨h.none_left, h.some_left, h.round⟩

theorem counted_init (cfg : Config) (startTime : ℚ) (memory : Nat → Times) :
    Counted (clocked cfg startTime memory).init :=
  ⟨fun _ _ => rfl, fun h => absurd rfl h, fun h => by cases h⟩

/-- **`stop` between rounds**: while no allocation is being serviced, `stop` divides by zero if and only if no job has
left the ready queue since the start; else the jobs it reports are all those issued but the ones that are running or
finished and not counted yet. -/
theorem stop_between_rounds (cfg : Config) (startTime : ℚ) (memory : Nat → Times) (w : Clocked)
    (h : (clocked cfg startTime memory).Reachable w) (hpc : w.sched.pc.inService = false) :
    (w.stop = none ↔ w.sched.readyQ.length = w.sched.issued.length) ∧
      ∀ r, w.stop = some r →
        r.totalJobs + w.sched.runningJobs.length + w.sched.finishedQ.length = w.sched.issued.length := by
  have hinv : (Life w.sched ∧ Exact w) ∧ Counted w := by
    refine h.invariant (I := fun w => (Life w.sched ∧ Exact w) ∧ Counted w)
      ⟨⟨life_init cfg, exact_init cfg startTime memory⟩, counted_init cfg startTime memory⟩ ?_
    rintro w a v ⟨⟨hl, he⟩, hc⟩ hs
    exact ⟨⟨step_unclocked_life hl hs, step_exact hl he hs⟩, step_counted hl hc hs⟩
  obtain ⟨⟨hl, he⟩, hc⟩ := hinv
  refine ⟨?_, fun r hr => ?_⟩
  · rw [w.stop_eq_none]
    refine ⟨fun h0 => hc.none_left h0 hpc, fun hlen => ?_⟩
    by_contra h0
    have := hc.some_left h0
    omega
  · have htransfer : w.sched.pc.transfer = [] := by
      cases hp : w.sched.pc with
      | claiming p todo => rw [hp] at hpc; cases hpc
      | adding p todo => rw [hp] at hpc; cases hpc
      | _ => rfl
    have hplaced := hl.placed.length_eq
    have hcount := he.totalCompletions
    unfold Clocked.stop at hr
    split at hr
    · cases hr
    · obtain rfl := Option.some.inj hr
      simp only [State.places, State.runQJobs, htransfer, List.map_nil, List.append_nil, List.length_append,
        List.length_map] at hplaced ⊢
      omega

theorem stop_between_rounds_one : ∃ w, localClocked.Reachable w ∧ w.sched.issued.length = 1 ∧ w.stop ≠ none := by
  obtain ⟨w, hr, hw⟩ := Machine.exists_reachableIf localClocked (fun _ _ => True) (averageRun 24)
    (fun w => (w.sched.pc.inService, w.sched.readyQ.length, w.sched.issued.length)) (false, 0, 1) (by decide +kernel)
  simp only [Prod.mk.injEq] at hw
  obtain ⟨hpc, hq, hi⟩ := hw
  refine ⟨w, hr, hi, fun hnone => ?_⟩
  have := (stop_between_rounds _ _ _ w hr hpc).1.mp hnone
  omega

/-- Within the first round `stop` divides by zero after its job was answered. -/
example : ∃ w, localClocked.Reachable w ∧ w.reported = [(1, 3000)] ∧ w.stop.isNone = true := by
  obtain ⟨w, hr, hw⟩ := Machine.exists_reachableIf localClocked (fun _ _ => True) (averageRun 23)
    (fun w => (w.reported, w.stop.isNone)) ([(1, 3000)], true) (by decide +kernel)
  exact ⟨w, hr, congrArg Prod.fst hw, congrArg Prod.snd hw⟩

end Hydrogen
