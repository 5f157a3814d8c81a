import Hydrogen.Lib.Quiesce
import Hydrogen.Scheduler.BestScore
import Hydrogen.Scheduler.Workers

/-!
# Starvation

Handlers push at the front of the ready queue, and the algorithms read it from the front. With one resource in the pool
they serve the job at the front or none (`single_grants`), so a job that is not alone in the queue when a round starts
stays there. One other client is enough: it sends its requests one after the other, each when the reply to the one before
has come (`Successive`), and all of them are served while the first job waits (`starvation`).
-/

namespace Hydrogen

open StdAlgorithm

/-! ## One resource -/

theorem fcfsGrants_nil {maxOf minOf : Job → Nat} : ∀ js : List Job, (fcfsGrants maxOf minOf js []).1 = []
  | [] => rfl
  | j :: js => by simp [fcfsGrants, taken]

section Single

variable (fp : Arith) (sort : StdSort Job) {j : Job} {js : List Job} {r : Resource} {window : Nat}
  (hnd : (j :: js).Nodup) (hbuilt : ∀ i ∈ j :: js, i.Built) (hw : 1 ≤ window)

/-- The FCFS loops serve the job at the front, or none. -/
theorem single_fcfs {maxOf minOf : Job → Nat} (hw : 1 ≤ window) (hmax : 1 ≤ maxOf j) {a : Allocations}
    {p' : List Resource} (h : (fcfsLoop maxOf minOf ((j :: js).take window) .empty).run [r] = .done a p') :
    a.jobs = [] ∨ a.jobs = [(j, [r])] := by
  rw [run_fcfsLoop, List.take_cons (by omega)] at h
  cases h
  show [] ++ (fcfsGrants maxOf minOf (j :: js.take (window - 1)) [r]).1 = [] ∨
    [] ++ (fcfsGrants maxOf minOf (j :: js.take (window - 1)) [r]).1 = [(j, [r])]
  rw [List.nil_append, fcfsGrants]
  by_cases hmin : minOf j ≤ [r].length
  · have htaken : taken (maxOf j) (minOf j) [r] = [r] := by
      rw [taken, if_pos hmin, List.reverse_singleton, List.take_of_length_le hmax]
    have hleft : left (maxOf j) (minOf j) [r] = [] := by
      rw [left, if_pos hmin, List.length_singleton, Nat.sub_eq_zero_of_le hmax, List.take_zero]
    have hone : [r].length > 0 := Nat.one_pos
    refine .inr ?_
    rw [htaken, hleft, if_pos hone]
    dsimp only
    rw [fcfsGrants_nil]
  · have htaken : taken (maxOf j) (minOf j) [r] = [] := by rw [taken, if_neg hmin]
    refine .inl ?_
    rw [htaken, if_neg (by decide)]

/-- The window loops ask for more than there is. -/
theorem single_greedy {better : Job → Job → Bool} {demand : Job → Nat} {n : Nat} {live : List Job}
    (hdemand : ∀ i ∈ live, 1 ≤ demand i) {a : Allocations} {p' : List Resource}
    (h : (greedy better demand n live .empty).run [r] = .done a p') : a.jobs = [] := by
  rw [run_greedy] at h
  cases h
  show [] ++ (greedyGrants better demand n live [r]).1 = []
  rw [List.nil_append]
  cases n with
  | zero => rfl
  | succ n =>
    unfold greedyGrants
    split
    · rfl
    · rename_i i hi
      have hone := hdemand i (List.mem_of_getElem? hi)
      rw [if_neg (Nat.not_lt.mpr hone : ¬demand i < [r].length)]

include hnd hbuilt hw

/-- **One resource** is for the job at the front, or none of them, whatever the algorithm. -/
theorem single_grants {alg : Alg} (halg : alg ∈ algVec fp sort) {a : Allocations} {p' : List Resource}
    (h : (alg (j :: js) window).run [r] = .done a p') : a.jobs = [] ∨ a.jobs = [(j, [r])] := by
  have hb := hbuilt j List.mem_cons_self
  have hlive : ∀ lt, ∀ i ∈ sort.sort lt ((j :: js).take window), i ∈ j :: js := fun lt i hi =>
    List.mem_of_mem_take ((sort.perm lt _).mem_iff.mp hi)
  simp only [algVec, List.mem_cons, List.not_mem_nil, or_false] at halg
  rcases halg with rfl | rfl | rfl | rfl | rfl
  · exact single_fcfs hw (by rw [hb.max_eq]; decide) h
  · exact single_fcfs hw (by rw [hb.min_eq]) h
  · exact single_fcfs hw (by rw [hb.max_eq]; decide) h
  · rw [sjtf_eq_greedy sort hnd (List.cons_ne_nil _ _) hw] at h
    exact .inl (single_greedy (fun i hi => (hbuilt i (hlive _ i hi)).min_eq.ge) h)
  · rw [priority_eq_greedy sort hnd (List.cons_ne_nil _ _) hw] at h
    refine .inl (single_greedy (fun i hi => ?_) h)
    rw [(hbuilt i (hlive _ i hi)).max_eq]
    decide

/-- Managed mode gives it to the job at the front. -/
theorem managedMode_single (hpos : ∀ i ∈ j :: js, 0 < i.predictedTimeMillis)
    (hfit : fp.ScoresFit window (j :: js).length) :
    ∃ a, (managedMode fp sort .completionTime (j :: js) window).run [r] = .done a [r] ∧ a.jobs = [(j, [r])] := by
  have hne : j :: js ≠ [] := List.cons_ne_nil _ _
  have hq : [r] ≠ [] := List.cons_ne_nil _ _
  obtain ⟨a, q', hrun, ⟨hpool, -⟩, hserves⟩ := ((sat_managedMode fp sort hnd hne hw .completionTime [r] hq).and
    (sat_managedMode_serves fp sort hnd hne hw hbuilt hpos hfit hq)).run
  obtain rfl : q' = [r] := List.perm_singleton.mp hpool
  refine ⟨a, hrun, ?_⟩
  obtain ⟨as, q', htrials, -, hall⟩ := run_trials sort hnd hne hw (algVec fp sort) (fun _ h => h) [r] hq
  have hsel : ∃ c ∈ as, a = score fp .completionTime (j :: js).length c := by
    have hsome : as.map (score fp .completionTime (j :: js).length) ≠ [] := by
      intro hnil
      rw [List.map_eq_nil_iff.mp hnil] at hall
      cases hall
    obtain ⟨b, hb, hsel⟩ : ∃ b ∈ as.map (score fp .completionTime (j :: js).length),
        selectMaxScore fp (as.map (score fp .completionTime (j :: js).length)) = some b := selectMaxScore_mem hsome
    simp only [managedMode, Prog.run_bind, htrials, Outcome.bind_done, hsel, Prog.run_pure] at hrun
    cases hrun
    obtain ⟨c, hc, rfl⟩ := List.mem_map.mp hb
    exact ⟨c, hc, rfl⟩
  obtain ⟨c, hc, rfl⟩ := hsel
  obtain ⟨alg, halg, p, p', hp, hrun'⟩ := forall₂_mem_right hall hc
  obtain rfl : p = [r] := List.perm_singleton.mp hp
  rw [jobs_score]
  rcases single_grants fp sort hnd hbuilt hw halg hrun' with hnil | hfront
  · rw [noJobs_score, Allocations.noJobs, hnil] at hserves
    exact absurd hserves (by decide)
  · exact hfront

end Single

/-! ## Runs -/

variable {cfg : Config}

/-- A request comes only when every request but the first has had its reply. -/
def Successive (p : Pool) : Pool.PoolAct → Prop
  | .request _ => p.sched.entering = [] ∧ ∀ j ∈ p.sched.waiting, j.jid = 1
  | _ => True

/-- The server gets from one state to another, with such requests. -/
abbrev Leads (cfg : Config) : Pool → Pool → Prop := (pooled cfg).Continues Successive

theorem Leads.step {p q : Pool} (a : Pool.PoolAct) (hc : Successive p a) (h : p.step cfg a = some q) : Leads cfg p q :=
  .single ⟨a, hc, h⟩

theorem Leads.sched {s t : State} {k : Nat} (h : schedLoop cfg s = some t) : Leads cfg ⟨s, k⟩ ⟨t, k⟩ :=
  .step (.act .sched) trivial (by simp only [Pool.step, State.step, h, Option.map_some])

theorem Leads.dispatch {s t : State} {k : Nat} (h : dispatcherLoop s = some t) : Leads cfg ⟨s, k⟩ ⟨t, k⟩ :=
  .step (.act .dispatch) trivial (by simp only [Pool.step, State.step, h, Option.map_some])

theorem Leads.run {s t : State} {k i : Nat} {m : Msg} (h : runJob i m s = some t) : Leads cfg ⟨s, k⟩ ⟨t, k⟩ :=
  .step (.act (.run i m)) trivial (by simp only [Pool.step, State.step, h, Option.map_some])

theorem Leads.finish {s t : State} {k : Nat} (h : finishedLoop s = some t) : Leads cfg ⟨s, k⟩ ⟨t, k⟩ :=
  .step (.act .finish) trivial (by simp only [Pool.step, State.step, h, Option.map_some])

theorem Leads.reachable {p q : Pool} (h : Leads cfg p q) (hp : (pooled cfg).ReachableIf Successive p) :
    (pooled cfg).ReachableIf Successive q :=
  Machine.Continues.invariant (I := (pooled cfg).ReachableIf Successive) (fun _ _ _ hi hc hs => .step hi hc hs) h hp

/-- What a handler leaves that has pushed its job. -/
def State.pushed (s : State) (m : Msg) : State :=
  { s with
    readyQ := Job.ofRequest m s.nextJid :: s.readyQ
    waiting := Job.ofRequest m s.nextJid :: s.waiting
    nextJid := s.nextJid + 1
    issued := s.issued ++ [Job.ofRequest m s.nextJid] }

/-- A worker between two messages reads a request, and its handler pushes the job. -/
theorem leads_push {s : State} {k : Nat} {m : Msg} (hm : m.msgId = MSG_OPTION_PRICE ∨ m.msgId = MSG_MOVING_AVG)
    (he : s.entering = []) (hfirst : ∀ j ∈ s.waiting, j.jid = 1) (hpc : s.pc = .idle) :
    Leads cfg ⟨s, k + 1⟩ ⟨s.pushed m, k⟩ := by
  have hdraw : Pool.step cfg ⟨s, k + 1⟩ (.request m) = some ⟨drawId m s, k⟩ := by
    simp [Pool.step, hm]
  have hpush : Pool.step cfg ⟨drawId m s, k⟩ (.act (.enqueue 0)) = some ⟨s.pushed m, k⟩ := by
    simp [Pool.step, State.step, enqueue, drawId, State.pushed, SchedPc.locksReadyQ, he, hpc]
  have hone : Successive ⟨s, k + 1⟩ (.request m) := ⟨he, hfirst⟩
  exact (Leads.step _ hone hdraw).trans (Leads.step (.act (.enqueue 0)) trivial hpush)

/-- `schedLoop` runs managed mode, with nobody else at the pool. -/
theorem leads_managing {s : State} {k : Nat} {a : Allocations} {q' : List Resource} :
    ∀ {p : SchedProg Allocations} {q : List Resource}, p.run q = .done a q' →
      Leads cfg ⟨{ s with pc := .managing p, resPool := q }, k⟩ ⟨{ s with pc := .chosen a, resPool := q' }, k⟩
  | .ret b, q, h => by
    cases h
    exact .sched rfl
  | .fault e, q, h => by cases h
  | .size f, q, h => by
    have hnext : schedLoop cfg { s with pc := .managing (.size f), resPool := q } =
        some { s with pc := .managing (f q.length), resPool := q } := rfl
    exact (Leads.sched hnext).trans (leads_managing h)
  | .popBack f, q, h => by
    rw [Prog.run] at h
    split at h
    · cases h
    · rename_i r hr
      have hnext : schedLoop cfg { s with pc := .managing (.popBack f), resPool := q } =
          some { s with pc := .managing (f r), resPool := q.dropLast } := by
        simp only [schedLoop, Prog.step, hr, Option.map_some]
      exact (Leads.sched hnext).trans (leads_managing h)
  | .pushBack r p, q, h => by
    have hnext : schedLoop cfg { s with pc := .managing (.pushBack r p), resPool := q } =
        some { s with pc := .managing p, resPool := q ++ [r] } := rfl
    exact (Leads.sched hnext).trans (leads_managing h)

/-- A round of `schedLoop` that serves the job at the front, with nobody else at the pool. -/
theorem leads_round {s : State} {k : Nat} {j : Job} {rq : List Job} {r : Resource} {sc : Int} (hpc : s.pc = .idle)
    (hq : s.readyQ = j :: rq) (hpool : s.resPool = [r])
    (hrun : (managedMode cfg.fp cfg.sort strat (j :: rq) window).run [r] = .done ⟨[(j, [r])], sc⟩ [r])
    (hcalm : (⟨[(j, [r])], sc⟩ : Allocations).getJLOMetric cfg.fp = .fin 0) :
    Leads cfg ⟨s, k⟩ ⟨{ s with readyQ := rq, pc := .idle, resPool := [], runQ := (j, [r]) :: s.runQ }, k⟩ := by
  have hready : s.readyQ.length > 0 ∧ s.resPool.length > 0 := by simp [hq, hpool]
  have hserved : (⟨[(j, [r])], sc⟩ : Allocations).noJobs > 0 := by simp [Allocations.noJobs]
  have hsame : ∀ t : State, updateResourcePool cfg ⟨[(j, [r])], sc⟩ t = some t := by
    intro t
    rw [updateResourcePool, hcalm]
    rfl
  have hstart : schedLoop cfg s =
      some { s with pc := .managing (managedMode cfg.fp cfg.sort strat (j :: rq) window), resPool := [r] } := by
    rw [← hq, ← hpool]
    simp only [schedLoop, hpc, if_pos hready]
  have hadjust : schedLoop cfg { s with pc := .chosen ⟨[(j, [r])], sc⟩, resPool := [r] } =
      some { s with pc := .servicing [(j, [r])], resPool := [r] } := by
    simp only [schedLoop, if_pos hserved, hsame, Option.map_some]
  have hremove : schedLoop cfg { s with pc := .servicing [(j, [r])], resPool := [r] } =
      some { s with readyQ := rq, pc := .claiming (j, [r]) [], resPool := [r] } := by
    simp [schedLoop, hq, removeJobFromReadyQ]
  have hclaim : schedLoop cfg { s with readyQ := rq, pc := .claiming (j, [r]) [], resPool := [r] } =
      some { s with readyQ := rq, pc := .adding (j, [r]) [], resPool := [] } := by
    simp [schedLoop, claimResources]
  have hadd : schedLoop cfg { s with readyQ := rq, pc := .adding (j, [r]) [], resPool := [] } =
      some { s with readyQ := rq, pc := .servicing [], resPool := [], runQ := (j, [r]) :: s.runQ } := rfl
  refine (Leads.sched hstart).trans ((leads_managing hrun).trans ((Leads.sched hadjust).trans ?_))
  refine (Leads.sched hremove).trans ((Leads.sched hclaim).trans ((Leads.sched hadd).trans ?_))
  exact Leads.step (.act .sched) trivial rfl

/-- What a job that was served leaves. -/
def State.after (s : State) (j : Job) (r : Resource) (m : Msg) (waiting : List Job) : State :=
  { s with
    resPool := s.resPool ++ [r]
    runQ := []
    started := j.jid :: s.started
    finished := j.jid :: s.finished
    rsp := fun jid => if jid = j.jid then some m else s.rsp jid
    waiting
    completed := j :: s.completed
    received := (j.jid, m) :: s.received
    copied := (j.jid, some m) :: s.copied }

/-- The only job in the run queue is dispatched, run and answered, and its handler replies. -/
theorem leads_reply {s : State} {k : Nat} {j : Job} {r : Resource} {waiting : List Job} (m : Msg)
    (hq : s.runQ = [(j, [r])]) (hd : s.dispatcher = none) (hth : s.threads = []) (hfq : s.finishedQ = [])
    (hfin : s.finishing = none) (hw : s.waiting = j :: waiting) (hfresh : j.jid ∉ s.started) :
    Leads cfg ⟨s, k⟩ ⟨s.after j r m waiting, k + 1⟩ := by
  -- the state while the job has a thread
  let running (ph : RunPhase) (resPool : List Resource) (finishedQ : List Job) : State := { s with
    resPool, runQ := [], started := j.jid :: s.started, threads := [⟨j, [r], ph⟩], finishedQ
    rsp := fun jid => if jid = j.jid then some m else s.rsp jid, received := (j.jid, m) :: s.received }
  have hpop : dispatcherLoop s = some { s with dispatcher := some (j, [r]), runQ := [] } := by
    simp only [dispatcherLoop, hd, hq]
  have hstart : dispatcherLoop { s with dispatcher := some (j, [r]), runQ := [] } = some { s with
      runQ := [], started := j.jid :: s.started, threads := [⟨j, [r], .calling⟩] } := by
    simp only [dispatcherLoop, if_neg hfresh, hth, hd]
  have hanswer : runJob 0 m { s with runQ := [], started := j.jid :: s.started, threads := [⟨j, [r], .calling⟩] } =
      some (running (.returning [r]) s.resPool s.finishedQ) := rfl
  have hback : runJob 0 m (running (.returning [r]) s.resPool s.finishedQ) =
      some (running (.returning []) (s.resPool ++ [r]) s.finishedQ) := rfl
  have hhand : runJob 0 m (running (.returning []) (s.resPool ++ [r]) s.finishedQ) =
      some (running .finished (s.resPool ++ [r]) [j]) := by
    simp [running, runJob, hfq]
  -- the state when the thread is gone
  let gone (finishing : Option Job) (finishedQ completed : List Job) : State := { s with
    resPool := s.resPool ++ [r], runQ := [], started := j.jid :: s.started, threads := [], finishing, finishedQ
    rsp := fun jid => if jid = j.jid then some m else s.rsp jid, completed, received := (j.jid, m) :: s.received }
  have hleave : runJob 0 m (running .finished (s.resPool ++ [r]) [j]) = some (gone none [j] s.completed) := by
    simp [running, gone, runJob, removeJobFromRunQ, hfin]
  have htake : finishedLoop (gone none [j] s.completed) = some (gone (some j) [] (j :: s.completed)) := rfl
  have hflag : finishedLoop (gone (some j) [] (j :: s.completed)) =
      some { gone none [] (j :: s.completed) with finished := j.jid :: s.finished } := rfl
  have hcopy : copyResponse 0 { gone none [] (j :: s.completed) with finished := j.jid :: s.finished } =
      some (s.after j r m waiting) := by
    simp [gone, copyResponse, State.after, hw, hth, hfq, hfin]
  have hreply : Pool.step cfg ⟨{ gone none [] (j :: s.completed) with finished := j.jid :: s.finished }, k⟩ (.reply 0) =
      some ⟨s.after j r m waiting, k + 1⟩ := by
    rw [Pool.step, hcopy, Option.map_some]
  refine (Leads.dispatch hpop).trans ((Leads.dispatch hstart).trans ((Leads.run hanswer).trans ?_))
  refine (Leads.run hback).trans ((Leads.run hhand).trans ((Leads.run hleave).trans ?_))
  exact (Leads.finish htake).trans ((Leads.finish hflag).trans (Leads.step (.reply 0) trivial hreply))

/-! ## Overtaking -/

/-- A request whose job meets its target exactly. -/
def punctual : Msg := targetRequest 1000 1000

theorem punctual_times (id : Nat) : (Job.ofRequest punctual id).predictedTimeMillis = 1 ∧
    (Job.ofRequest punctual id).targetExecutionTimeMillis = 1 := by
  have hsecond : (((1000 : BitVec 32).toInt : ℚ)) / 1000 = 1 := by decide +kernel
  exact ⟨hsecond, hsecond⟩

/-- The elasticity manager leaves the pool alone. -/
theorem punctual_metric (fp : Arith) (id : Nat) (r : Resource) (score : Int) :
    (⟨[(Job.ofRequest punctual id, [r])], score⟩ : Allocations).getJLOMetric fp = .fin 0 := by
  have hone : fp.double 1 = .fin 1 := by simpa using fp.double_natCast (n := 1) (by decide)
  have hshare : fp.divd (.fin 1) (.fin 1) = .fin 1 := by
    rw [Arith.divd, show (ExtRat.fin 1).div (.fin 1) = .fin 1 by decide +kernel]
    exact hone
  have hslack : fp.subd (.fin 1) (.fin 1) = .fin 0 := by
    rw [Arith.subd, show (ExtRat.fin 1).sub (.fin 1) = .fin 0 by decide +kernel]
    exact fp.double_zero
  have hsum : fp.addd (.fin 0) (.fin 0) = .fin 0 := by
    rw [Arith.addd, show (ExtRat.fin 0).add (.fin 0) = .fin 0 by decide +kernel]
    exact fp.double_zero
  have hjlo : (Job.ofRequest punctual id).getJlo fp [r].length = .fin 0 := by
    rw [Job.getJlo, (punctual_times id).1, (punctual_times id).2, List.length_singleton, Nat.cast_one, hone, hshare,
      hslack]
  simp only [Allocations.getJLOMetric, List.foldl_cons, List.foldl_nil, hjlo]
  rw [hsum]
  decide

/-- The first job is in the ready queue and one resource in the pool; the `n` jobs after it are done with. -/
structure Lull (cfg : Config) (n : Nat) (s : State) : Prop where
  entering : s.entering = []
  readyQ : s.readyQ = [Job.ofRequest punctual 1]
  pc : s.pc = .idle
  resPool : s.resPool = [⟨1, cfg.dispatcherPortNumber, cfg.dispatcherHostname, "DFE"⟩]
  runQ : s.runQ = []
  dispatcher : s.dispatcher = none
  started : ∀ i ∈ s.started, 1 < i ∧ i < n + 2
  threads : s.threads = []
  finishedQ : s.finishedQ = []
  finishing : s.finishing = none
  waiting : s.waiting = [Job.ofRequest punctual 1]
  nextJid : s.nextJid = n + 2
  copied : s.copied.map Prod.fst = (List.range' 2 n).reverse

/-- Jobs of two ids, for the algorithms. -/
theorem punctual_pair {i : Nat} (hi : i ≠ 1) : [Job.ofRequest punctual i, Job.ofRequest punctual 1].Nodup ∧
    ∀ j ∈ [Job.ofRequest punctual i, Job.ofRequest punctual 1], j.Built ∧ 0 < j.predictedTimeMillis := by
  have hne : Job.ofRequest punctual i ≠ Job.ofRequest punctual 1 := fun he => hi (congrArg Job.jid he)
  refine ⟨by simpa using hne, fun j hj => ?_⟩
  have hform : ∃ id, j = Job.ofRequest punctual id := by
    simp only [List.mem_cons, List.not_mem_nil, or_false] at hj
    rcases hj with rfl | rfl <;> exact ⟨_, rfl⟩
  obtain ⟨id, rfl⟩ := hform
  refine ⟨⟨_, _, rfl⟩, ?_⟩
  rw [(punctual_times id).1]
  decide

/-- **One more job overtakes**: a request that comes in a lull is served, and the lull is back. -/
theorem Lull.overtaken {n : Nat} {s : State} (h : Lull cfg n s) :
    ∃ t, Leads cfg ⟨s, 1⟩ ⟨t, 1⟩ ∧ Lull cfg (n + 1) t := by
  let j := Job.ofRequest punctual (n + 2)
  let r : Resource := ⟨1, cfg.dispatcherPortNumber, cfg.dispatcherHostname, "DFE"⟩
  have hfirst : ∀ i ∈ s.waiting, i.jid = 1 := by
    intro i hi
    rw [h.waiting] at hi
    obtain rfl := List.mem_singleton.mp hi
    rfl
  have hpushed : Leads cfg ⟨s, 1⟩ ⟨s.pushed punctual, 0⟩ := leads_push (.inl rfl) h.entering hfirst h.pc
  have hready : (s.pushed punctual).readyQ = [j, Job.ofRequest punctual 1] := by
    simp only [State.pushed, h.readyQ, h.nextJid, j]
  have hwaiting : (s.pushed punctual).waiting = [j, Job.ofRequest punctual 1] := by
    simp only [State.pushed, h.waiting, h.nextJid, j]
  have hfresh : j.jid ∉ s.started := fun hm => absurd (h.started _ hm).2 (Nat.lt_irrefl _)
  obtain ⟨hnd, hjobs⟩ := punctual_pair (i := n + 2) (by omega)
  obtain ⟨⟨jobs, sc⟩, hrun, hserved⟩ := managedMode_single cfg.fp cfg.sort (r := r) hnd
    (fun i hi => (hjobs i hi).1) (by decide : 1 ≤ window) (fun i hi => (hjobs i hi).2)
    (cfg.fp.scoresFit (by decide) (by simp [window]))
  obtain rfl : jobs = [(j, [r])] := hserved
  let granted : State := { s.pushed punctual with
    readyQ := [Job.ofRequest punctual 1], pc := .idle, resPool := [], runQ := (j, [r]) :: (s.pushed punctual).runQ }
  have hround : Leads cfg ⟨s.pushed punctual, 0⟩ ⟨granted, 0⟩ :=
    leads_round h.pc hready h.resPool hrun (punctual_metric _ _ r sc)
  have hreply : Leads cfg ⟨granted, 0⟩ ⟨granted.after j r punctual [Job.ofRequest punctual 1], 1⟩ :=
    leads_reply punctual (congrArg ((j, [r]) :: ·) h.runQ) h.dispatcher h.threads h.finishedQ h.finishing hwaiting hfresh
  refine ⟨_, hpushed.trans (hround.trans hreply), ?_⟩
  exact {
    entering := h.entering
    readyQ := rfl
    pc := rfl
    resPool := rfl
    runQ := rfl
    dispatcher := h.dispatcher
    started := by
      intro i hi
      rcases List.mem_cons.mp hi with rfl | hi
      · exact ⟨Nat.succ_lt_succ (Nat.zero_lt_succ n), Nat.lt_succ_self _⟩
      · exact ⟨(h.started i hi).1, Nat.lt_succ_of_lt (h.started i hi).2⟩
    threads := h.threads
    finishedQ := h.finishedQ
    finishing := h.finishing
    waiting := rfl
    nextJid := congrArg (· + 1) h.nextJid
    copied := by
      show j.jid :: s.copied.map Prod.fst = _
      rw [h.copied, List.range'_concat, List.reverse_append, List.reverse_singleton]
      simp [j, Job.ofRequest, Nat.add_comm] }

/-- The first job is pushed, and a second client has a worker. -/
theorem lull_init (cfg : Config) : ∃ s, (pooled cfg).ReachableIf Successive ⟨s, 1⟩ ∧ Lull cfg 0 s := by
  have htake : Leads cfg ⟨State.init cfg, 0⟩ ⟨State.init cfg, 2⟩ :=
    (Leads.step .take trivial rfl : Leads cfg ⟨State.init cfg, 0⟩ ⟨State.init cfg, 1⟩).trans
      (Leads.step .take trivial rfl)
  have hpush : Leads cfg ⟨State.init cfg, 2⟩ ⟨(State.init cfg).pushed punctual, 1⟩ :=
    leads_push (.inl rfl) rfl (fun j hj => by cases hj) rfl
  refine ⟨(State.init cfg).pushed punctual, Leads.reachable (htake.trans hpush) .init, ?_⟩
  constructor <;> first | rfl | exact fun i hi => absurd hi List.not_mem_nil

/-- A lull after any number of jobs. -/
theorem lull_reachable (cfg : Config) (n : Nat) : ∃ s, (pooled cfg).ReachableIf Successive ⟨s, 1⟩ ∧ Lull cfg n s := by
  induction n with
  | zero => exact lull_init cfg
  | succ n ih =>
    obtain ⟨s, hr, h⟩ := ih
    obtain ⟨t, hst, ht⟩ := h.overtaken
    exact ⟨t, hst.reachable hr, ht⟩

/-- **Starvation**: for every number, there is a run behind the server in which so many jobs, each requested when the one
before had its reply, were served while the job that came first is still in the ready queue. -/
theorem starvation (cfg : Config) (n : Nat) : ∃ p, (pooled cfg).ReachableIf Successive p ∧
    p.sched.readyQ.map Job.jid = [1] ∧ 1 ∉ p.sched.started ∧ p.sched.unfinished.length = 1 ∧
      p.sched.copied.map Prod.fst = (List.range' 2 n).reverse := by
  obtain ⟨s, hr, h⟩ := lull_reachable cfg n
  refine ⟨⟨s, 1⟩, hr, by rw [h.readyQ]; rfl, ?_, ?_, h.copied⟩
  · exact fun hm => absurd (h.started 1 hm).1 (Nat.lt_irrefl 1)
  · simp [State.unfinished, State.runQJobs, State.runningJobs, SchedPc.transfer, h.readyQ, h.pc, h.runQ, h.dispatcher,
      h.threads, h.finishedQ]

end Hydrogen
