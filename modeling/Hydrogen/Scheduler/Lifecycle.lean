import Hydrogen.Scheduler.System

/-!
# Every job is at one place

The invariant `Life`: the jobs of all places together are the jobs issued, whose ids are distinct. What `schedLoop` has
chosen and not removed yet is in the ready queue; the jobs started are those of the threads and behind them, the ones
answered are those whose response was received. Every step keeps it (`step_life`), so an id that was drawn is with its
handler or at exactly one place, no job is started twice, and a handler copies the response of its own job
(`job_exactly_once`).
-/

namespace Hydrogen

open StdAlgorithm

/-! ## The invariant -/

/-- What `schedLoop` has chosen, or will choose whatever other threads return to the pool, is waiting. -/
def Selects (pc : SchedPc) (readyQ : List Job) (pool : List Resource) : Prop :=
  match pc with
  | .managing p => p.Sat (fun _ a _ => a.jobList.Subperm readyQ) pool
  | pc => (pc.todo.map Prod.fst).Subperm readyQ

/-- The jobs of threads, the finished queue and the completed ones. -/
def State.launched (s : State) : List Job := s.threads.flatMap Thread.running ++ s.finishedQ ++ s.completed

/-- Those of them that have a response. -/
def State.answered (s : State) : List Job := s.threads.flatMap Thread.answered ++ s.finishedQ ++ s.completed

/-- The invariant of the life of jobs. -/
structure Life (s : State) : Prop where
  pos : 1 ≤ s.nextJid
  placed : s.places.Perm s.issued
  fresh : ((s.entering ++ s.issued).map Job.jid).Nodup
  drawn : ∀ i, i ∈ (s.entering ++ s.issued).map Job.jid ↔ 1 ≤ i ∧ i < s.nextJid
  selects : Selects s.pc s.readyQ s.resPool
  launched : s.started.Perm (s.launched.map Job.jid)
  answered : (s.received.map Prod.fst).Perm (s.answered.map Job.jid)
  stored : ∀ p ∈ s.received, s.rsp p.1 = some p.2
  handed : ∀ t ∈ s.threads, t.running = [] → t.job ∈ s.finishedQ ++ s.completed
  finishing : ∀ j ∈ s.finishing, j ∈ s.completed
  finished : ∀ i ∈ s.finished, i ∈ s.completed.map Job.jid
  copied : ∀ c ∈ s.copied, ∃ m, c.2 = some m ∧ (c.1, m) ∈ s.received

namespace Life

variable {s : State}

theorem issued_ids_nodup (h : Life s) : (s.issued.map Job.jid).Nodup := by
  have := h.fresh
  rw [List.map_append] at this
  exact (List.nodup_append.mp this).2.1

theorem issued_nodup (h : Life s) : s.issued.Nodup := h.issued_ids_nodup.of_map

theorem ids_nodup (h : Life s) : (s.places.map Job.jid).Nodup :=
  (h.placed.map Job.jid).nodup_iff.mpr h.issued_ids_nodup

theorem readyQ_ids_nodup (h : Life s) : (s.readyQ.map Job.jid).Nodup := by
  have := h.ids_nodup
  simp only [State.places, List.append_assoc, List.map_append] at this
  exact (List.nodup_append.mp this).1

theorem readyQ_nodup (h : Life s) : s.readyQ.Nodup := h.readyQ_ids_nodup.of_map

theorem launched_ids_nodup (h : Life s) : (s.launched.map Job.jid).Nodup := by
  have hsub : s.launched.Sublist s.places := by
    simp only [State.launched, State.places, State.runningJobs, List.append_assoc]
    exact ((((List.sublist_append_right _ _).trans (List.sublist_append_right _ _)).trans
      (List.sublist_append_right _ _)).trans (List.sublist_append_right _ _))
  exact h.ids_nodup.sublist (hsub.map _)

/-- An id of the run queue or the dispatcher is not started. -/
theorem not_started (h : Life s) {j : Job} (hj : j ∈ s.runQJobs ++ s.dispatcher.toList.map Prod.fst) :
    j.jid ∉ s.launched.map Job.jid := by
  have hsub : (s.runQJobs ++ s.dispatcher.toList.map Prod.fst ++ s.launched).Sublist s.places := by
    simp only [State.launched, State.places, State.runningJobs, List.append_assoc]
    exact (List.sublist_append_right _ _).trans (List.sublist_append_right _ _)
  have hnd := h.ids_nodup.sublist (hsub.map _)
  rw [List.map_append] at hnd
  exact fun hm => (List.nodup_append.mp hnd).2.2 _ (List.mem_map_of_mem hj) _ hm rfl

end Life

/-- Others' returns to the pool do not change what is selected. -/
theorem Selects.push {pc : SchedPc} {readyQ : List Job} {pool : List Resource} (h : Selects pc readyQ pool)
    (x : List Resource) : Selects pc readyQ (pool ++ x) := by
  cases pc with
  | managing p =>
    have hp : p.Sat (fun _ a _ => a.jobList.Subperm readyQ) pool := h
    exact hp.env x
  | _ => exact h

/-- Outside managed mode the pool does not matter. -/
theorem Selects.of_todo {pc : SchedPc} {readyQ : List Job} {pool : List Resource} (hp : pc.locksReadyQ = false)
    (h : (pc.todo.map Prod.fst).Subperm readyQ) : Selects pc readyQ pool := by
  cases pc with
  | managing p => cases hp
  | _ => exact h

theorem Selects.todo {pc : SchedPc} {readyQ : List Job} {pool : List Resource} (h : Selects pc readyQ pool)
    (hp : pc.locksReadyQ = false) : (pc.todo.map Prod.fst).Subperm readyQ := by
  cases pc with
  | managing p => cases hp
  | _ => exact h

theorem life_init (cfg : Config) : Life (State.init cfg) where
  pos := le_refl 1
  placed := .refl _
  fresh := List.nodup_nil
  drawn := fun i => by
    constructor
    · intro hi; cases hi
    · rintro ⟨h1, h2⟩
      have : i < 1 := h2
      omega
  selects := List.nil_subperm
  launched := .refl _
  answered := .refl _
  stored := fun p hp => by cases hp
  handed := fun t ht => by cases ht
  finishing := fun j hj => by cases hj
  finished := fun i hi => by cases hi
  copied := fun c hc => by cases hc

/-! ## Handlers -/

variable {s t : State}

theorem drawId_life (request : Msg) (h : Life s) : Life (drawId request s) :=
  { h with
    pos := Nat.le_succ_of_le h.pos
    fresh := by
      refine List.nodup_cons.mpr ⟨fun hm => ?_, h.fresh⟩
      have : s.nextJid < s.nextJid := ((h.drawn s.nextJid).mp hm).2
      omega
    drawn := fun i => by
      have hpos := h.pos
      show i ∈ s.nextJid :: (s.entering ++ s.issued).map Job.jid ↔ 1 ≤ i ∧ i < s.nextJid + 1
      rw [List.mem_cons, h.drawn i]
      omega }

theorem enqueue_life {i : Nat} (h : Life s) (hs : enqueue i s = some t) : Life t := by
  obtain ⟨j, hj, hpc, rfl⟩ := enqueue_cases hs
  obtain ⟨hlt, rfl⟩ := List.getElem?_eq_some_iff.mp hj
  -- the job only moves from the handler to the queue
  have hperm : (s.entering.eraseIdx i ++ (s.issued ++ [s.entering[i]])).Perm (s.entering ++ s.issued) := by
    refine List.perm_iff_count.mpr fun k => ?_
    have := (List.getElem_cons_eraseIdx_perm hlt).count_eq k
    simp only [List.count_append, List.count_cons, List.count_nil] at this ⊢
    omega
  have hids := hperm.map Job.jid
  refine { h with placed := ?_, fresh := hids.nodup_iff.mpr h.fresh, drawn := ?_, selects := ?_ }
  · refine List.perm_iff_count.mpr fun k => ?_
    have := h.placed.count_eq k
    simp only [State.places, State.runQJobs, State.runningJobs, List.cons_append, List.count_append,
      List.count_cons, List.count_nil] at this ⊢
    omega
  · exact fun k => (hids.mem_iff).trans (h.drawn k)
  · exact .of_todo hpc ((h.selects.todo hpc).trans (List.sublist_cons_self _ _).subperm)

theorem copyResponse_life {i : Nat} (h : Life s) (hs : copyResponse i s = some t) : Life t := by
  obtain ⟨j, -, hfin, rfl⟩ := copyResponse_cases hs
  -- a finished job is completed, so it was answered
  have hans : j.jid ∈ s.received.map Prod.fst := by
    refine (h.answered.mem_iff).mpr ?_
    rw [State.answered, List.map_append]
    exact List.mem_append_right _ (h.finished _ hfin)
  obtain ⟨⟨k, m⟩, hm, hk⟩ := List.mem_map.mp hans
  refine { h with copied := fun c hc => ?_ }
  rcases List.mem_cons.mp hc with rfl | hc
  · obtain rfl : k = j.jid := hk
    exact ⟨m, h.stored _ hm, hm⟩
  · exact h.copied c hc

/-! ## The scheduler thread -/

/-- A step of `schedLoop` that leaves the jobs where they are and knows what it selects. -/
theorem Life.reselect (h : Life s) {pc : SchedPc} (hpc : pc.transfer = s.pc.transfer) {resPool : List Resource}
    {resourceId provisionedResources : Nat} {erasedEnd : Bool} (hsel : Selects pc s.readyQ resPool) :
    Life { s with pc, resPool, resourceId, provisionedResources, erasedEnd } :=
  { h with
    placed := by
      have := h.placed
      unfold State.places at this ⊢
      rw [hpc]
      exact this
    selects := hsel }

/-- Managed mode is started with a job in the window and a resource in the pool. -/
theorem Life.sat_managedMode (h : Life s) (fp : Arith) (sort : StdSort Job) (hq : s.readyQ.length > 0)
    (hp : s.resPool.length > 0) :
    (managedMode fp sort strat s.readyQ window).Sat
      (fun x a q => q.Perm (s.resPool ++ x) ∧ Candidate s.readyQ window (s.resPool ++ x) a) s.resPool :=
  Hydrogen.sat_managedMode fp sort h.readyQ_nodup (List.length_pos_iff.mp hq) (by decide) strat s.resPool
    (List.length_pos_iff.mp hp)

theorem schedLoop_life {cfg : Config} (h : Life s) (hs : schedLoop cfg s = some t) : Life t := by
  have hsel := h.selects
  cases schedLoop_cases hs with
  | start hpc hq hp =>
    refine h.reselect (by rw [hpc]; rfl) ?_
    exact (h.sat_managedMode cfg.fp cfg.sort hq hp).mono fun x a q ha =>
      ha.2.2.trans (List.take_sublist _ _).subperm
  | choose hpc =>
    rw [hpc] at hsel
    exact h.reselect (by rw [hpc]; rfl) (hsel [])
  | @operate p _ _ hpc hstep =>
    rw [hpc] at hsel
    have hp : p.Sat (fun _ a _ => a.jobList.Subperm s.readyQ) s.resPool := hsel
    exact h.reselect (by rw [hpc]; rfl) (hp.step hstep)
  | adjust hpc _ hu =>
    rw [hpc] at hsel
    rw [updateResourcePool_frame hu]
    exact h.reselect (by rw [hpc]; rfl) hsel
  | giveUp hpc => exact h.reselect (by rw [hpc]; rfl) List.nil_subperm
  | rest hpc => exact h.reselect (by rw [hpc]; rfl) List.nil_subperm
  | @remove p todo hpc =>
    rw [hpc] at hsel
    have hmem : p.1 ∈ s.readyQ := hsel.subset List.mem_cons_self
    have hperm := perm_cons_eraseP_key Job.jid hmem h.readyQ_ids_nodup
    refine { h with placed := List.perm_iff_count.mpr fun k => ?_, selects := ?_ }
    · have h1 := h.placed.count_eq k
      have h2 := hperm.count_eq k
      simp only [State.places, State.runQJobs, State.runningJobs, removeJobFromReadyQ, hpc, SchedPc.transfer,
        List.count_append, List.count_cons, List.map_cons, List.map_nil, List.count_nil] at h1 h2 ⊢
      omega
    · exact (List.subperm_cons p.1).mp (hsel.trans hperm.subperm)
  | claim hpc =>
    rw [hpc] at hsel
    exact h.reselect (by rw [hpc]; rfl) hsel
  | add hpc =>
    rw [hpc] at hsel
    refine { h with placed := List.perm_iff_count.mpr fun k => ?_, selects := hsel }
    have h1 := h.placed.count_eq k
    simp only [State.places, State.runQJobs, State.runningJobs, hpc, SchedPc.transfer, List.count_append,
      List.count_cons, List.map_cons, List.map_nil, List.count_nil] at h1 ⊢
    omega

/-! ## The dispatcher and the threads it starts -/

/-- A job in the dispatcher's hands has not been started. -/
theorem Life.not_skipped (h : Life s) {p : JobResPair} (hd : s.dispatcher = some p) : p.1.jid ∉ s.started := by
  intro hstarted
  refine h.not_started ?_ ((h.launched.mem_iff).mp hstarted)
  rw [hd]
  exact List.mem_append_right _ (List.mem_singleton.mpr rfl)

theorem dispatcherLoop_life (h : Life s) (hs : dispatcherLoop s = some t) : Life t := by
  cases dispatcherLoop_cases hs with
  | pop hd hq =>
    refine { h with placed := List.perm_iff_count.mpr fun k => ?_ }
    have h1 := h.placed.count_eq k
    simp only [State.places, State.runQJobs, State.runningJobs, hd, hq, List.count_append, List.count_cons,
      List.map_cons, List.map_nil, List.count_nil, Option.toList] at h1 ⊢
    omega
  | skip hd hstarted => exact absurd hstarted (h.not_skipped hd)
  | @start p hd =>
    refine { h with
      placed := List.perm_iff_count.mpr fun k => ?_
      launched := h.launched.cons p.1.jid
      handed := fun t ht hrun => ?_ }
    · have h1 := h.placed.count_eq k
      simp only [State.places, State.runQJobs, State.runningJobs, hd, List.flatMap_cons, Thread.running,
        List.count_append, List.count_cons, List.map_cons, List.map_nil, List.count_nil, Option.toList] at h1 ⊢
      omega
    · rcases List.mem_cons.mp ht with rfl | ht
      · cases hrun
      · exact h.handed t ht hrun

theorem answered_sublist (t : Thread) : t.answered.Sublist t.running := by
  unfold Thread.answered Thread.running
  cases t.phase with
  | calling => exact List.nil_sublist _
  | returning todo => exact .refl _
  | finished => exact .refl _

theorem threads_answered_sublist : ∀ ts : List Thread,
    (ts.flatMap Thread.answered).Sublist (ts.flatMap Thread.running)
  | [] => .refl _
  | t :: ts => (answered_sublist t).append (threads_answered_sublist ts)

/-- No response was received for a job whose thread waits for one. -/
theorem Life.not_answered (h : Life s) {i : Nat} {th : Thread} (hth : s.threads[i]? = some th)
    (hph : th.phase = .calling) : th.job.jid ∉ s.received.map Prod.fst := by
  have hjob : th.running = [th.job] := by rw [Thread.running, hph]
  have hnone : th.answered = [] := by rw [Thread.answered, hph]
  have hrun := flatMap_thread Thread.running hth
  have hans := flatMap_thread Thread.answered hth
  rw [hjob] at hrun
  rw [hnone] at hans
  have hsub : (th.job :: s.answered).Subperm s.launched := by
    have h1 := (threads_answered_sublist (s.threads.eraseIdx i)).subperm
    refine List.subperm_ext_iff.mpr fun k _ => ?_
    have h2 := List.subperm_iff_count.mp h1 k
    have h3 := hrun.count_eq k
    have h4 := hans.count_eq k
    simp only [State.answered, State.launched, List.count_append, List.count_cons, List.count_nil] at h3 h4 ⊢
    omega
  have hnd := nodup_map_of_subperm Job.jid hsub h.launched_ids_nodup
  rw [List.map_cons] at hnd
  exact fun hm => (List.nodup_cons.mp hnd).1 (h.answered.mem_iff.mp hm)

/-- A thread that has handed its job on has nothing left in the run queue to remove. -/
theorem Life.removeJobFromRunQ_eq (h : Life s) {th : Thread} (hth : th ∈ s.threads) (hph : th.phase = .finished) :
    removeJobFromRunQ th.job.jid s.runQ = s.runQ := by
  have hjob : th.job ∈ s.finishedQ ++ s.completed := h.handed th hth (by rw [Thread.running, hph])
  refine List.eraseP_of_forall_not fun p hp he => ?_
  have hrun : p.1 ∈ s.runQJobs ++ s.dispatcher.toList.map Prod.fst :=
    List.mem_append_left _ (List.mem_map_of_mem hp)
  refine h.not_started hrun (List.mem_map.mpr ⟨th.job, ?_, (by simpa using he : p.1.jid = th.job.jid).symm⟩)
  rw [State.launched, List.append_assoc]
  exact List.mem_append_right _ hjob

/-- The threads and the finished queue have the jobs they had. -/
theorem Life.rethread (h : Life s) {threads : List Thread} {finishedQ : List Job} {resPool : List Resource}
    (hrun : (threads.flatMap Thread.running ++ finishedQ).Perm (s.threads.flatMap Thread.running ++ s.finishedQ))
    (hans : (threads.flatMap Thread.answered ++ finishedQ).Perm (s.threads.flatMap Thread.answered ++ s.finishedQ))
    (hhanded : ∀ u ∈ threads, u.running = [] → u.job ∈ finishedQ ++ s.completed)
    (hsel : Selects s.pc s.readyQ resPool) : Life { s with threads, finishedQ, resPool } := by
  refine { h with
    placed := ?_
    launched := h.launched.trans ((hrun.append_right s.completed).map Job.jid).symm
    answered := h.answered.trans ((hans.append_right s.completed).map Job.jid).symm
    handed := hhanded
    selects := hsel }
  refine List.perm_iff_count.mpr fun k => ?_
  have h1 := h.placed.count_eq k
  have h2 := hrun.count_eq k
  simp only [State.places, State.runQJobs, State.runningJobs, List.count_append] at h1 h2 ⊢
  omega

/-- A thread that still runs its job is not among those that handed theirs on. -/
theorem Life.handed_cons (h : Life s) {i : Nat} {th : Thread} (hth : th.running = [th.job]) :
    ∀ u ∈ th :: s.threads.eraseIdx i, u.running = [] → u.job ∈ s.finishedQ ++ s.completed := by
  intro u hu hr
  rcases List.mem_cons.mp hu with rfl | hu
  · rw [hth] at hr
    cases hr
  · exact h.handed u (List.mem_of_mem_eraseIdx hu) hr

/-- A thread gets the reply to its job. -/
theorem Life.answer (h : Life s) {i : Nat} {th : Thread} (hth : s.threads[i]? = some th) (hph : th.phase = .calling)
    (rsp : Msg) : Life { s with
      threads := { th with phase := .returning th.res } :: s.threads.eraseIdx i
      rsp := fun jid => if jid = th.job.jid then some rsp else s.rsp jid
      received := (th.job.jid, rsp) :: s.received } := by
  have hrun := flatMap_thread Thread.running hth
  have hans := flatMap_thread Thread.answered hth
  have hfresh := h.not_answered hth hph
  have hjob : th.running = [th.job] := by rw [Thread.running, hph]
  have hnone : th.answered = [] := by rw [Thread.answered, hph]
  rw [hjob] at hrun
  rw [hnone] at hans
  refine { h with
    placed := ?_, launched := ?_, answered := ?_, stored := fun p hp => ?_, handed := h.handed_cons rfl,
    copied := fun c hc => ?_ }
  · refine List.perm_iff_count.mpr fun k => ?_
    have h1 := h.placed.count_eq k
    have h2 := hrun.count_eq k
    simp only [State.places, State.runQJobs, State.runningJobs, List.flatMap_cons, Thread.running,
      List.count_append] at h1 h2 ⊢
    omega
  · exact h.launched.trans (((hrun.append_right _).append_right _).map _)
  · refine (h.answered.cons th.job.jid).trans ?_
    exact ((((hans.append_right _).append_right _).map Job.jid).cons th.job.jid)
  · rcases List.mem_cons.mp hp with rfl | hp
    · simp
    · have hne : p.1 ≠ th.job.jid := fun he => hfresh (he ▸ List.mem_map_of_mem hp)
      simpa [hne] using h.stored p hp
  · obtain ⟨m, h1, h2⟩ := h.copied c hc
    exact ⟨m, h1, List.mem_cons_of_mem _ h2⟩

theorem runJob_life {i : Nat} {rsp : Msg} (h : Life s) (hs : runJob i rsp s = some t) : Life t := by
  obtain ⟨th, hth, hstep⟩ := runJob_cases hs
  have hothers : ∀ u ∈ s.threads.eraseIdx i, u.running = [] → u.job ∈ s.finishedQ ++ s.completed :=
    fun u hu => h.handed u (List.mem_of_mem_eraseIdx hu)
  have hrun := flatMap_thread Thread.running hth
  have hans := flatMap_thread Thread.answered hth
  cases hstep with
  | answer rsp hph _ => exact h.answer hth hph rsp
  | @giveBack r todo hph =>
    have hjob : th.running = [th.job] := by rw [Thread.running, hph]
    have hone : th.answered = [th.job] := by rw [Thread.answered, hph]
    rw [hjob] at hrun
    rw [hone] at hans
    exact h.rethread (hrun.symm.append_right _) (hans.symm.append_right _) (h.handed_cons rfl) (h.selects.push [r])
  | finish hph =>
    have hjob : th.running = [th.job] := by rw [Thread.running, hph]
    have hone : th.answered = [th.job] := by rw [Thread.answered, hph]
    rw [hjob] at hrun
    rw [hone] at hans
    -- the job moves from the thread to the queue
    have hmove : ∀ (l l' : List Job), l'.Perm ([th.job] ++ l) →
        (([] ++ l) ++ th.job :: s.finishedQ).Perm (l' ++ s.finishedQ) := by
      intro l l' hl
      exact List.perm_middle.trans (hl.symm.append_right s.finishedQ)
    refine h.rethread (hmove _ _ hrun) (hmove _ _ hans) (fun u hu hr => ?_) h.selects
    rcases List.mem_cons.mp hu with rfl | hu
    · exact List.mem_cons_self
    · exact List.mem_cons_of_mem _ (hothers u hu hr)
  | leave hph =>
    have hjob : th.running = [] := by rw [Thread.running, hph]
    have hnone : th.answered = [] := by rw [Thread.answered, hph]
    rw [hjob] at hrun
    rw [hnone] at hans
    rw [h.removeJobFromRunQ_eq (List.mem_of_getElem? hth) hph]
    exact h.rethread (hrun.symm.append_right _) (hans.symm.append_right _) hothers h.selects

theorem finishedLoop_life (h : Life s) (hs : finishedLoop s = some t) : Life t := by
  cases finishedLoop_cases hs with
  | @pop j finishedQ _ hq =>
    have hmove : ∀ l : List Job, (l ++ finishedQ ++ j :: s.completed).Perm (l ++ s.finishedQ ++ s.completed) := by
      intro l
      rw [hq]
      simpa using (@List.perm_middle _ j finishedQ s.completed).append_left l
    refine { h with
      placed := (hmove _).trans h.placed
      launched := h.launched.trans ((hmove _).symm.map _)
      answered := h.answered.trans ((hmove _).symm.map _)
      handed := fun u hu hr => ?_
      finishing := fun k hk => ?_
      finished := fun i hi => List.mem_cons_of_mem _ (h.finished i hi) }
    · exact (hmove []).mem_iff.mpr (h.handed u hu hr)
    · cases hk
      exact List.mem_cons_self
  | @flag j hj =>
    refine { h with finishing := fun k hk => (by cases hk), finished := fun i hi => ?_ }
    rcases List.mem_cons.mp hi with rfl | hi
    · exact List.mem_map_of_mem (h.finishing j hj)
    · exact h.finished i hi

/-! ## Whole runs -/

/-- **One step** of any thread keeps the invariant. -/
theorem step_life {cfg : Config} {a : Act} (h : Life s) (hs : s.step cfg a = some t) : Life t := by
  cases a with
  | drawId request =>
    obtain rfl := Option.some.inj hs
    exact drawId_life request h
  | enqueue i => exact enqueue_life h hs
  | sched => exact schedLoop_life h hs
  | dispatch => exact dispatcherLoop_life h hs
  | run i rsp => exact runJob_life h hs
  | finish => exact finishedLoop_life h hs
  | copy i => exact copyResponse_life h hs

/-- **Every run** keeps it. -/
theorem reachable_life {cfg : Config} (h : (system cfg).Reachable s) : Life s :=
  h.invariant (I := Life) (life_init cfg) fun _ _ _ hl hst => step_life hl hst

/-- Where a job that was issued can be. -/
inductive Place where
  | readyQ
  | transfer
  | runQ
  | running
  | finishedQ
  | completed
  deriving DecidableEq

/-- The jobs at a place. -/
def State.at (s : State) : Place → List Job
  | .readyQ => s.readyQ
  | .transfer => s.pc.transfer.map Prod.fst
  | .runQ => s.runQJobs
  | .running => s.runningJobs
  | .finishedQ => s.finishedQ
  | .completed => s.completed

/-- All places, in the order a job takes. -/
def Place.all : List Place := [.readyQ, .transfer, .runQ, .running, .finishedQ, .completed]

theorem Place.mem_all (p : Place) : p ∈ Place.all := by
  cases p <;> decide

theorem State.places_eq (s : State) : s.places = Place.all.flatMap s.at := by
  simp [State.places, Place.all, State.at]

namespace Life

/-- A job that was issued is at some place. -/
theorem exists_place (h : Life s) {j : Job} (hj : j ∈ s.issued) : ∃ p, j ∈ s.at p := by
  have hm := h.placed.mem_iff.mpr hj
  rw [State.places_eq] at hm
  obtain ⟨p, -, hp⟩ := List.mem_flatMap.mp hm
  exact ⟨p, hp⟩

theorem at_nodup (h : Life s) : (∀ p, ((s.at p).map Job.jid).Nodup) ∧
    ∀ p p', p ≠ p' → ((s.at p).map Job.jid).Disjoint ((s.at p').map Job.jid) := by
  have hnd := h.ids_nodup
  rw [State.places_eq, List.map_flatMap] at hnd
  obtain ⟨h1, h2⟩ := List.nodup_flatMap.mp hnd
  have hsymm : Std.Symm (Function.onFun List.Disjoint fun p => (s.at p).map Job.jid) := ⟨fun _ _ hd => hd.symm⟩
  exact ⟨fun p => h1 p p.mem_all, fun p p' hne => h2.forall p.mem_all p'.mem_all hne⟩

theorem started_nodup (h : Life s) : s.started.Nodup := h.launched.nodup_iff.mpr h.launched_ids_nodup

theorem received_nodup (h : Life s) : (s.received.map Prod.fst).Nodup := by
  have hsub : s.answered.Sublist s.launched :=
    ((threads_answered_sublist s.threads).append_right _).append_right _
  exact h.answered.nodup_iff.mpr (h.launched_ids_nodup.sublist (hsub.map _))

end Life

/-- An id that was drawn belongs to a job that was issued or to a handler about to push it; a job that was issued is
once at one place and at no other; no job is started, and none is answered, twice; what a handler copied is the one
response received for its job. -/
structure ExactlyOnce (s : State) : Prop where
  drawn : ∀ i, 1 ≤ i → i < s.nextJid → i ∈ s.issued.map Job.jid ∨ i ∈ s.entering.map Job.jid
  placed : ∀ j ∈ s.issued, ∃ p, ((s.at p).map Job.jid).count j.jid = 1 ∧
    ∀ p', p' ≠ p → j.jid ∉ (s.at p').map Job.jid
  started : s.started.Nodup
  received : (s.received.map Prod.fst).Nodup
  copied : ∀ c ∈ s.copied, ∃ m, c.2 = some m ∧ ∀ m', (c.1, m') ∈ s.received ↔ m' = m

/-- **Exactly once**, in every state of every run. -/
theorem job_exactly_once (cfg : Config) (s : State) (h : (system cfg).Reachable s) : ExactlyOnce s := by
  have hl := reachable_life h
  refine ⟨fun i h1 h2 => ?_, fun j hj => ?_, hl.started_nodup, hl.received_nodup, fun c hc => ?_⟩
  · have := (hl.drawn i).mpr ⟨h1, h2⟩
    rw [List.map_append, List.mem_append] at this
    exact this.symm
  · obtain ⟨p, hp⟩ := hl.exists_place hj
    obtain ⟨hnd, hdis⟩ := hl.at_nodup
    have hid := List.mem_map_of_mem (f := Job.jid) hp
    exact ⟨p, List.count_eq_one_of_mem (hnd p) hid, fun p' hne hm => hdis p' p hne hm hid⟩
  · obtain ⟨m, hm, hrec⟩ := hl.copied c hc
    refine ⟨m, hm, fun m' => ⟨fun h' => ?_, fun he => he ▸ hrec⟩⟩
    exact congrArg Prod.snd (List.inj_on_of_nodup_map hl.received_nodup h' hrec rfl)

/-- One job from its request to the response, while a second is with its handler. -/
theorem job_exactly_once_served : ∃ s, (system localConfig).Reachable s ∧
    s.copied = [(1, some { msgEmpty with msgId := MSG_RESULT })] ∧ s.nextJid = 3 ∧ ExactlyOnce s := by
  obtain ⟨s, hr, hs⟩ := Machine.exists_reachableIf (system localConfig) (fun _ _ => True)
    (serve (targetRequest 100 200) 24 ++ [.dispatch, .dispatch] ++
      List.replicate 4 (.run 0 { msgEmpty with msgId := MSG_RESULT }) ++
      [.drawId (targetRequest 100 200), .finish, .finish, .copy 0])
    (fun s => (s.copied, s.nextJid)) ([(1, some { msgEmpty with msgId := MSG_RESULT })], 3) (by decide +kernel)
  exact ⟨s, hr, congrArg Prod.fst hs, congrArg Prod.snd hs, job_exactly_once _ s hr⟩

end Hydrogen
