import Hydrogen.Lib.Traced
import Hydrogen.Scheduler.System

/-!
# Running a job

`runJob` in full, with the failures of the steps it makes outside the scheduler: the connection, an interruption, the
two writes, the allocation of the buffer and the reads. Exceptions leave it without a handler, and the branch for a
failed allocation returns the resources and goes on with a null pointer. So the resources are given back and the job is
handed on if and only if nothing fails (`runJob_clean_iff`). The resources are never returned twice
(`runJob_returns_once`), and what a run without failure does to the scheduler are the steps of its thread in `system`
(`system_runJob`).
-/

namespace Hydrogen

namespace RunJob

/-! ## The code -/

/-- How `runJob` ends. -/
inductive Ending where
  /-- `boost::thread_interrupted` -/
  | interrupted
  /-- an exception of the socket -/
  | threw
  /-- a null pointer is followed, or the front of an empty list is taken -/
  | crashed
  deriving DecidableEq

/-- What `runJob` does to the scheduler. -/
inductive Effect where
  | setRsp (rsp : Msg)
  | addResource (r : Resource)
  | pushFinished
  | removeJobFromRunQ
  deriving DecidableEq

/-- The outcomes of the steps outside the scheduler. -/
structure External where
  /-- `Client::start` has connected; a failure is only logged -/
  connect : Bool
  /-- the thread is interrupted before it sends -/
  interrupted : Bool
  /-- the request is written to a socket that is connected -/
  send : Bool
  /-- the buffer is there -/
  calloc : Bool
  /-- the message in the buffer after each read, or none if the read failed -/
  read : Nat → Option Msg
  /-- `MSG_DONE` is written to a socket that is connected -/
  done : Bool

/-- What a part of `runJob` comes to. -/
abbrev Prog := Traced Effect Ending

namespace External

open Traced

variable (x : External)

/-- `boost::this_thread::interruption_point()`. -/
def interruptionPoint : Prog Unit := if x.interrupted then leave .interrupted else pure ()

/-- `c.send(req)`; a socket that is not connected cannot be written to. -/
def sendRequest : Prog Unit := if x.connect && x.send then pure () else leave .threw

/-- `c.stop()`. -/
def stop : Prog Unit := if x.connect && x.done then pure () else leave .threw

end External

open Traced

/-- `returnResources`, of a list that may be null. -/
def returnResources : Option (List Resource) → Prog Unit
  | none => leave .crashed
  | some res => emit (res.map .addResource)

/-- The allocation of the buffer: whether there is one, and the resource list. If there is none the resources are
returned, and the function goes on. -/
def allocateBuffer (x : External) (resourceList : List Resource) : Prog (Bool × Option (List Resource)) :=
  if x.calloc then pure (true, some resourceList)
  else do
    x.stop
    returnResources (some resourceList)
    pure (false, none)

/-- `do c.read(buff, sizeBytes); while (rsp->msgId != MSG_RESULT)`, from the `k`-th read on. -/
def readReply (x : External) (buff : Bool) : Nat → Nat → Prog Msg
  | 0, _ => ⟨[], .outOfFuel⟩
  | fuel + 1, k =>
    match x.read k with
    | none => leave .threw
    | some rsp =>
      if buff then (if rsp.msgId = MSG_RESULT then pure rsp else readReply x buff fuel (k + 1))
      else leave .crashed

/-- `Scheduler::runJob`. -/
def runJob (x : External) (fuel : Nat) (p : JobResPair) : Prog Unit :=
  match p.2 with
  | [] => leave .crashed
  | _ :: _ => do
    x.interruptionPoint
    x.sendRequest
    let (buff, resourceList) ← allocateBuffer x p.2
    let rsp ← readReply x buff fuel 0
    x.stop
    emit [.setRsp rsp]
    returnResources resourceList
    emit [.pushFinished]
    emit [.removeJobFromRunQ]

/-! ## What is handed back -/

/-- The resources returned. -/
def returned (es : List Effect) : List Resource :=
  es.filterMap fun
    | .addResource r => some r
    | _ => none

/-- How often the job was pushed on the finished queue. -/
def timesFinished (es : List Effect) : Nat := es.count .pushFinished

/-- **Each resource is returned once, and the job is handed on once.** -/
def Clean (p : JobResPair) (es : List Effect) : Prop := (returned es).Perm p.2 ∧ timesFinished es = 1

@[simp] theorem returned_addResource (res : List Resource) : returned (res.map .addResource) = res := by
  simp [returned, List.filterMap_map]

@[simp] theorem timesFinished_addResource (res : List Resource) : timesFinished (res.map .addResource) = 0 :=
  List.count_eq_zero.mpr (by simp)

/-! ## The reads -/

/-- From the `k`-th read on the reads succeed until one of them brings the result. -/
inductive External.RepliesFrom (x : External) : Nat → Msg → Prop where
  | now {k : Nat} {rsp : Msg} : x.read k = some rsp → rsp.msgId = MSG_RESULT → RepliesFrom x k rsp
  | later {k : Nat} {m rsp : Msg} : x.read k = some m → m.msgId ≠ MSG_RESULT → RepliesFrom x (k + 1) rsp →
      RepliesFrom x k rsp

section Reads

variable {x : External}

/-- The reads into a buffer bring the result, fail, or are not at their end yet; nothing else is touched. -/
theorem readReply_cases : ∀ fuel k : Nat,
    (∃ rsp, readReply x true fuel k = ⟨[], .value rsp⟩ ∧ x.RepliesFrom k rsp) ∨
      (readReply x true fuel k = ⟨[], .left .threw⟩ ∧ ¬∃ rsp, x.RepliesFrom k rsp) ∨
      readReply x true fuel k = ⟨[], .outOfFuel⟩
  | 0, _ => .inr (.inr rfl)
  | fuel + 1, k => by
    rw [readReply]
    cases hread : x.read k with
    | none =>
      refine .inr (.inl ⟨rfl, ?_⟩)
      rintro ⟨rsp, hreply⟩
      cases hreply with
      | now hk _ => cases hread.symm.trans hk
      | later hk _ _ => cases hread.symm.trans hk
    | some m =>
      dsimp only
      by_cases hm : m.msgId = MSG_RESULT
      · rw [if_pos rfl, if_pos hm]
        exact .inl ⟨m, rfl, .now hread hm⟩
      · rw [if_pos rfl, if_neg hm]
        rcases readReply_cases fuel (k + 1) with ⟨rsp, hrun, hreply⟩ | ⟨hrun, hnone⟩ | hrun
        · exact .inl ⟨rsp, hrun, .later hread hm hreply⟩
        · refine .inr (.inl ⟨hrun, ?_⟩)
          rintro ⟨rsp, hreply⟩
          cases hreply with
          | now hk hid =>
            cases hread.symm.trans hk
            exact hm hid
          | later _ _ hlater => exact hnone ⟨rsp, hlater⟩
        · exact .inr (.inr hrun)

/-- Enough reads bring the result. -/
theorem readReply_ends {k : Nat} {rsp : Msg} (h : x.RepliesFrom k rsp) :
    ∃ fuel, readReply x true fuel k = ⟨[], .value rsp⟩ := by
  induction h with
  | now hread hid => exact ⟨1, by rw [readReply, hread]; dsimp only; rw [if_pos rfl, if_pos hid]; rfl⟩
  | later hread hid _ ih =>
    obtain ⟨fuel, hrun⟩ := ih
    exact ⟨fuel + 1, by rw [readReply, hread]; dsimp only; rw [if_pos rfl, if_neg hid, hrun]⟩

/-- Without a buffer the first read fails, or the null pointer is followed. -/
theorem readReply_null (fuel k : Nat) : ∃ o, readReply x false fuel k = ⟨[], o⟩ ∧ ∀ rsp, o ≠ .value rsp := by
  cases fuel with
  | zero => exact ⟨_, rfl, fun _ h => by cases h⟩
  | succ fuel =>
    rw [readReply]
    cases x.read k with
    | none => exact ⟨_, rfl, fun _ h => by cases h⟩
    | some m => exact ⟨_, rfl, fun _ h => by cases h⟩

end Reads

/-! ## Clean runs -/

/-- Nothing fails. -/
structure External.Succeeds (x : External) (p : JobResPair) : Prop where
  resources : p.2 ≠ []
  connect : x.connect = true
  notInterrupted : x.interrupted = false
  send : x.send = true
  calloc : x.calloc = true
  reply : ∃ rsp, x.RepliesFrom 0 rsp
  done : x.done = true

/-- What a run without failure does. -/
def runEffects (p : JobResPair) (rsp : Msg) : List Effect :=
  .setRsp rsp :: (p.2.map .addResource ++ [.pushFinished, .removeJobFromRunQ])

section Clean

variable {x : External} {p : JobResPair}

/-- Up to the reads, if nothing fails there. -/
theorem runJob_sent (hres : p.2 ≠ []) (hconnect : x.connect = true) (hint : x.interrupted = false)
    (hsend : x.send = true) (fuel : Nat) : runJob x fuel p = (do
      let (buff, resourceList) ← allocateBuffer x p.2
      let rsp ← readReply x buff fuel 0
      x.stop
      emit [.setRsp rsp]
      returnResources resourceList
      emit [.pushFinished]
      emit [.removeJobFromRunQ]) := by
  unfold runJob
  split
  · rename_i hnil
    exact absurd hnil hres
  · rename_i hcons
    rw [External.interruptionPoint, hint, External.sendRequest, hconnect, hsend]
    rfl

theorem stop_of_done (hconnect : x.connect = true) (hdone : x.done = true) : x.stop = ⟨[], .value ()⟩ := by
  rw [External.stop, hconnect, hdone]
  rfl

theorem stop_of_not_done (hdone : x.done = false) : x.stop = ⟨[], .left .threw⟩ := by
  rw [External.stop, hdone, Bool.and_false]
  rfl

/-- The run before the reads, if something fails there: nothing is handed back. -/
theorem runJob_not_sent (h : ¬(p.2 ≠ [] ∧ x.connect = true ∧ x.interrupted = false ∧ x.send = true)) (fuel : Nat) :
    ∃ e, runJob x fuel p = ⟨[], .left e⟩ := by
  unfold runJob
  split
  · exact ⟨_, rfl⟩
  · rename_i hcons
    cases hint : x.interrupted with
    | true =>
      rw [External.interruptionPoint, hint]
      exact ⟨_, rfl⟩
    | false =>
      have hsend : (x.connect && x.send) = false := by
        rw [Bool.and_eq_false_iff]
        by_contra hboth
        push Not at hboth
        exact h ⟨by rw [hcons]; exact List.cons_ne_nil _ _, by simpa using hboth.1, hint, by simpa using hboth.2⟩
      rw [External.interruptionPoint, hint, External.sendRequest, hsend]
      exact ⟨_, rfl⟩

/-- Without a buffer the resources are returned, if the connection can be closed, and the run does not get further. -/
theorem runJob_null (hres : p.2 ≠ []) (hconnect : x.connect = true) (hint : x.interrupted = false)
    (hsend : x.send = true) (hcalloc : x.calloc = false) (fuel : Nat) :
    (runJob x fuel p).effects = [] ∨ (runJob x fuel p).effects = p.2.map .addResource := by
  rw [runJob_sent hres hconnect hint hsend]
  cases hdone : x.done with
  | false =>
    rw [allocateBuffer, hcalloc, stop_of_not_done hdone]
    exact .inl rfl
  | true =>
    have halloc : allocateBuffer x p.2 = ⟨p.2.map .addResource, .value (false, none)⟩ := by
      rw [allocateBuffer, hcalloc, stop_of_done hconnect hdone]
      simp [returnResources, emit]
    obtain ⟨o, hread, ho⟩ := readReply_null (x := x) fuel 0
    rw [halloc, value_bind]
    dsimp only
    rw [hread]
    cases o with
    | value rsp => exact absurd rfl (ho rsp)
    | left e => exact .inr (List.append_nil _)
    | outOfFuel => exact .inr (List.append_nil _)

/-- With a buffer it depends on the reads. -/
theorem runJob_buffer (hres : p.2 ≠ []) (hconnect : x.connect = true) (hint : x.interrupted = false)
    (hsend : x.send = true) (hcalloc : x.calloc = true) (fuel : Nat) : runJob x fuel p = (do
      let rsp ← readReply x true fuel 0
      x.stop
      ⟨runEffects p rsp, .value ()⟩) := by
  have hback : ∀ rsp, (do
      emit [Effect.setRsp rsp]
      returnResources (some p.2)
      emit [.pushFinished]
      emit [.removeJobFromRunQ] : Prog Unit) = ⟨runEffects p rsp, .value ()⟩ := by
    intro rsp
    simp [emit, returnResources, runEffects]
  rw [runJob_sent hres hconnect hint hsend, allocateBuffer, hcalloc, if_pos rfl, pure_eq, value_bind]
  simp only [hback]
  rfl

/-- **A run** does all it should, or fails and at most returns the resources. -/
theorem runJob_cases (x : External) (p : JobResPair) (fuel : Nat) :
    (∃ rsp, x.Succeeds p ∧ runJob x fuel p = ⟨runEffects p rsp, .value ()⟩) ∨
      ((runJob x fuel p).outcome = .outOfFuel ∨ ¬x.Succeeds p) ∧
        ((runJob x fuel p).effects = [] ∨ (runJob x fuel p).effects = p.2.map .addResource) := by
  by_cases hsent : p.2 ≠ [] ∧ x.connect = true ∧ x.interrupted = false ∧ x.send = true
  · obtain ⟨hres, hconnect, hint, hsend⟩ := hsent
    cases hcalloc : x.calloc with
    | false =>
      refine .inr ⟨.inr fun h => ?_, runJob_null hres hconnect hint hsend hcalloc fuel⟩
      cases hcalloc.symm.trans h.calloc
    | true =>
      rw [runJob_buffer hres hconnect hint hsend hcalloc]
      rcases readReply_cases (x := x) fuel 0 with ⟨rsp, hrun, hreply⟩ | ⟨hrun, hnone⟩ | hrun
      · cases hdone : x.done with
        | false =>
          rw [hrun, value_bind, stop_of_not_done hdone]
          refine .inr ⟨.inr fun h => ?_, .inl rfl⟩
          cases hdone.symm.trans h.done
        | true =>
          rw [hrun, value_bind, stop_of_done hconnect hdone]
          exact .inl ⟨rsp, ⟨hres, hconnect, hint, hsend, hcalloc, ⟨rsp, hreply⟩, hdone⟩, rfl⟩
      · rw [hrun, left_bind]
        exact .inr ⟨.inr fun h => hnone h.reply, .inl rfl⟩
      · rw [hrun, outOfFuel_bind]
        exact .inr ⟨.inl rfl, .inl rfl⟩
  · obtain ⟨e, hrun⟩ := runJob_not_sent hsent fuel
    rw [hrun]
    exact .inr ⟨.inr fun h => hsent ⟨h.resources, h.connect, h.notInterrupted, h.send⟩, .inl rfl⟩

theorem returned_runEffects (rsp : Msg) : returned (runEffects p rsp) = p.2 := by
  have happ : returned (runEffects p rsp) = returned (p.2.map .addResource) ++ [] := by
    rw [returned, runEffects, List.filterMap_cons_none rfl, List.filterMap_append]
    rfl
  rw [happ, returned_addResource, List.append_nil]

theorem clean_runEffects (rsp : Msg) : Clean p (runEffects p rsp) := by
  have hcount := timesFinished_addResource p.2
  unfold timesFinished at hcount
  refine ⟨List.Perm.of_eq (returned_runEffects rsp), ?_⟩
  simp [timesFinished, runEffects, hcount]

/-- **`runJob` cleans up** after itself if and only if nothing fails: in a run that has ended every resource has been
returned once and the job has been pushed once on the finished queue exactly if the pair has a resource, the connection
is made, the thread is not interrupted, both writes succeed, the buffer is there and the reads bring a result. Such a
run does end. -/
theorem runJob_clean_iff (x : External) (p : JobResPair) :
    (∀ fuel, (runJob x fuel p).outcome ≠ .outOfFuel → (Clean p (runJob x fuel p).effects ↔ x.Succeeds p)) ∧
      (x.Succeeds p → ∃ fuel, (runJob x fuel p).outcome = .value ()) := by
  constructor
  · intro fuel hended
    rcases runJob_cases x p fuel with ⟨rsp, hsucc, hrun⟩ | ⟨hfail, heffects⟩
    · rw [hrun]
      exact iff_of_true (clean_runEffects rsp) hsucc
    · refine iff_of_false (fun hclean => ?_) (hfail.resolve_left hended)
      have honce := hclean.2
      rcases heffects with hnil | hback
      · rw [hnil] at honce
        cases honce
      · rw [hback, timesFinished_addResource] at honce
        cases honce
  · intro h
    obtain ⟨rsp, hreply⟩ := h.reply
    obtain ⟨fuel, hread⟩ := readReply_ends hreply
    refine ⟨fuel, ?_⟩
    rw [runJob_buffer h.resources h.connect h.notInterrupted h.send h.calloc, hread, value_bind,
      stop_of_done h.connect h.done]
    rfl

/-- **No resource is returned twice.** -/
theorem runJob_returns_once (x : External) (p : JobResPair) (fuel : Nat) :
    returned (runJob x fuel p).effects = [] ∨ returned (runJob x fuel p).effects = p.2 := by
  rcases runJob_cases x p fuel with ⟨rsp, -, hrun⟩ | ⟨-, hnil | hback⟩
  · rw [hrun]
    exact .inr (returned_runEffects rsp)
  · rw [hnil]
    exact .inl rfl
  · rw [hback]
    exact .inr (returned_addResource p.2)

end Clean

/-- A job and its resource. -/
def onePair : JobResPair := (Job.ofRequest msgEmpty 1, [⟨1, 8111, "localhost", "DFE"⟩])

/-- Everything succeeds; the first read brings the result. -/
def noFailure : External := ⟨true, false, true, true, fun _ => some { msgEmpty with msgId := MSG_RESULT }, true⟩

theorem noFailure_clean : Clean onePair (runJob noFailure 1 onePair).effects :=
  ((runJob_clean_iff noFailure onePair).1 1 (by decide)).mpr
    { resources := by decide
      connect := rfl
      notInterrupted := rfl
      send := rfl
      calloc := rfl
      reply := ⟨_, .now rfl rfl⟩
      done := rfl }

/-- There is no memory for the buffer: the resource is returned, but nobody is told that the job is over. -/
theorem noBuffer_not_clean : ¬∀ (x : External) (p : JobResPair) (fuel : Nat), p.2 ≠ [] →
    (runJob x fuel p).outcome ≠ .outOfFuel → Clean p (runJob x fuel p).effects := by
  intro h
  have hclean := h { noFailure with calloc := false, read := fun _ => none } onePair 1 (by decide) (by decide)
  exact absurd hclean.2 (by decide)

/-! ## The thread in the system -/

/-- An effect on the scheduler. -/
def Effect.apply (p : JobResPair) (s : State) : Effect → State
  | setRsp rsp => { s with
      rsp := fun jid => if jid = p.1.jid then some rsp else s.rsp jid
      received := (p.1.jid, rsp) :: s.received }
  | addResource r => { s with resPool := s.resPool ++ [r] }
  | pushFinished => { s with finishedQ := p.1 :: s.finishedQ }
  | removeJobFromRunQ => { s with runQ := Hydrogen.removeJobFromRunQ p.1.jid s.runQ }

/-- Where the threads are does not matter to it. -/
theorem foldl_apply_threads (p : JobResPair) (threads : List Thread) : ∀ (es : List Effect) (s : State),
    es.foldl (Effect.apply p) { s with threads } = { es.foldl (Effect.apply p) s with threads }
  | [], _ => rfl
  | e :: es, s => by
    have hone : Effect.apply p { s with threads } e = { Effect.apply p s e with threads } := by cases e <;> rfl
    rw [List.foldl_cons, hone, foldl_apply_threads p threads es, List.foldl_cons]

section System

variable {cfg : Config}

theorem exec_run {s t : State} {i : Nat} {rsp : Msg} (h : Hydrogen.runJob i rsp s = some t) (acts : List Act) :
    (system cfg).exec (fun _ _ => True) s (.run i rsp :: acts) = (system cfg).exec (fun _ _ => True) t acts := by
  rw [Machine.exec, if_pos trivial]
  show (Hydrogen.runJob i rsp s).bind _ = _
  rw [h]
  rfl

/-- A thread that returns its resources comes to its end. -/
theorem system_returning (rsp : Msg) (th : Thread) (others : List Thread) : ∀ (todo : List Resource) (s : State),
    s.threads = { th with phase := .returning todo } :: others →
    (system cfg).exec (fun _ _ => True) s (List.replicate (todo.length + 2) (.run 0 rsp)) =
      some { (todo.map Effect.addResource ++ [Effect.pushFinished, Effect.removeJobFromRunQ]).foldl
        (Effect.apply (th.job, th.res)) s with threads := others }
  | [], s, hs => by
    have hpush : Hydrogen.runJob 0 rsp s = some { s with
        threads := { th with phase := .finished } :: others
        finishedQ := th.job :: s.finishedQ } := by
      simp [Hydrogen.runJob, hs]
    rw [List.length_nil, List.replicate_succ, exec_run hpush, List.replicate_one, exec_run rfl]
    rfl
  | r :: todo, s, hs => by
    have hback : Hydrogen.runJob 0 rsp s = some { s with
        threads := { th with phase := .returning todo } :: others
        resPool := s.resPool ++ [r] } := by
      simp [Hydrogen.runJob, hs]
    rw [List.length_cons, Nat.succ_add, List.replicate_succ, exec_run hback, system_returning rsp th others todo _ rfl,
      foldl_apply_threads _ _ _ { s with resPool := s.resPool ++ [r] }]
    rfl

/-- **A run without failure is what its thread does in the system.** -/
theorem system_runJob {s : State} {i : Nat} {th : Thread} (hi : s.threads[i]? = some th) (hc : th.phase = .calling)
    (hres : th.res ≠ []) (rsp : Msg) : ∃ acts, (system cfg).exec (fun _ _ => True) s acts =
      some { (runEffects (th.job, th.res) rsp).foldl (Effect.apply (th.job, th.res)) s with
        threads := s.threads.eraseIdx i } := by
  have hanswer : Hydrogen.runJob i rsp s = some { s with
      threads := { th with phase := .returning th.res } :: s.threads.eraseIdx i
      rsp := fun jid => if jid = th.job.jid then some rsp else s.rsp jid
      received := (th.job.jid, rsp) :: s.received } := by
    simp [Hydrogen.runJob, hi, hc, hres]
  refine ⟨.run i rsp :: List.replicate (th.res.length + 2) (.run 0 rsp), ?_⟩
  rw [exec_run hanswer, system_returning rsp th _ th.res _ rfl, foldl_apply_threads _ _ _ { s with
    rsp := fun jid => if jid = th.job.jid then some rsp else s.rsp jid
    received := (th.job.jid, rsp) :: s.received }]
  rfl

end System

end RunJob

end Hydrogen
