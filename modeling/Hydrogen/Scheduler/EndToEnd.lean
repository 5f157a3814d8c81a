import Hydrogen.Executor.Hop
import Hydrogen.Scheduler.Service

/-!
# From the client to the kernel and back

The scheduler of `System`, with the bytes that its threads exchange. Clients send calls; a `runJob` thread connects to
the address of the first of its resources and reads the reply to its request. Every resource has the address of the
dispatcher (`reachable_addressed`), so what a thread reads is what the dispatcher computed for the job of that thread,
and what a handler copies is for its own client. However the threads interleave and the network cuts replies, a client
reads the result of the kernel on its own request (`own_result`); a moving average on the CPU is the average of the
client's own numbers (`own_average`).
-/

namespace Hydrogen

open Exec

/-! ## Addresses -/

variable {cfg : Config} {s t : State}

/-- The resource is at the dispatcher of the scheduler. -/
def Resource.At (cfg : Config) (r : Resource) : Prop :=
  r.port = cfg.dispatcherPortNumber ∧ r.url = cfg.dispatcherHostname

/-- The resources chosen, held or given to a thread. -/
def State.assigned (s : State) : List Resource :=
  s.pc.unclaimed ++ s.held ++ s.threads.flatMap Thread.res

/-- Every resource is at the dispatcher, the ones the pool stands for too. -/
structure Addressed (cfg : Config) (s : State) (c : List Resource) : Prop where
  pool : PoolIs s.pc s.resPool c
  free : ∀ r ∈ c, r.At cfg
  assigned : ∀ r ∈ s.assigned, r.At cfg

variable {c : List Resource}

theorem addressed_init (cfg : Config) : Addressed cfg (State.init cfg) (State.init cfg).resPool where
  pool := .refl _
  free := by
    intro r hr
    obtain rfl := List.mem_singleton.mp hr
    exact ⟨rfl, rfl⟩
  assigned := fun r hr => by cases hr

/-- A step that assigns only what was assigned or free. -/
theorem Addressed.keeping (h : Addressed cfg s c) (hpool : PoolIs t.pc t.resPool c)
    (hassigned : ∀ r ∈ t.assigned, r ∈ s.assigned ∨ r ∈ c) : Addressed cfg t c :=
  ⟨hpool, h.free, fun r hr => (hassigned r hr).elim (h.assigned r) (h.free r)⟩

theorem Addressed.same (h : Addressed cfg s c) (hpc : t.pc = s.pc) (hpool : t.resPool = s.resPool)
    (hassigned : t.assigned ⊆ s.assigned) : Addressed cfg t c :=
  h.keeping (by rw [hpc, hpool]; exact h.pool) fun _ hr => .inl (hassigned hr)

theorem claimResources_subset : ∀ (rs pool : List Resource) {r : Resource}, r ∈ (claimResources rs pool).1 → r ∈ pool
  | [], _, _, h => h
  | x :: rs, pool, r, h => by
    unfold claimResources at h
    split at h
    · exact List.mem_of_mem_eraseP (claimResources_subset rs _ h)
    · exact claimResources_subset rs pool h

/-- The elasticity step adds a resource at the dispatcher, or takes one. -/
theorem updateResourcePool_at {a : Allocations} (h : ∀ r ∈ s.resPool, r.At cfg)
    (hu : updateResourcePool cfg a s = some t) : ∀ r ∈ t.resPool, r.At cfg := by
  unfold updateResourcePool deprovisionResource at hu
  intro r hr
  split at hu
  · cases hu
    rcases List.mem_append.mp hr with hr | hr
    · exact h r hr
    · obtain rfl := List.mem_singleton.mp hr
      exact ⟨rfl, rfl⟩
  · split at hu
    · split at hu
      · split at hu
        · cases hu
        · cases hu
          exact h r (List.mem_of_mem_dropLast hr)
      · cases hu
        exact h r hr
    · cases hu
      exact h r hr

/-- A step of `schedLoop` moves resources between the pool, what it has chosen and the run queue. -/
theorem schedLoop_addressed (hl : Life s) (h : Addressed cfg s c) (hs : schedLoop cfg s = some t) :
    ∃ c', Addressed cfg t c' := by
  have hpool := h.pool
  cases schedLoop_cases hs with
  | start hpc hq hp =>
    rw [hpc] at hpool
    have hperm : s.resPool.Perm c := hpool
    have hstart : (managedMode cfg.fp cfg.sort strat s.readyQ window).Sat
        (fun x a q => q.Perm (c ++ x) ∧ a.resources.Subperm (c ++ x)) s.resPool :=
      (hl.sat_managedMode cfg.fp cfg.sort hq hp).mono fun x a q ha =>
        ⟨ha.1.trans (hperm.append_right x), ha.2.1.trans (hperm.append_right x).subperm⟩
    refine ⟨c, h.keeping hstart fun r hr => .inl ?_⟩
    simpa [State.assigned, State.held, hpc, SchedPc.unclaimed, SchedPc.claimed] using hr
  | choose hpc =>
    rw [hpc] at hpool
    obtain ⟨hperm, hsub⟩ := hpool []
    rw [List.append_nil, List.append_nil] at hperm
    rw [List.append_nil] at hsub
    refine ⟨c, h.keeping hperm fun r hr => ?_⟩
    have hchosen : r ∈ SchedPc.unclaimed (.chosen _) → r ∈ c := fun hm => hsub.subset hm
    simp only [State.assigned, State.held, hpc, SchedPc.claimed, List.mem_append] at hr ⊢
    tauto
  | @operate p _ _ hpc hstep =>
    rw [hpc] at hpool
    have hp : p.Sat (fun x a q => q.Perm (c ++ x) ∧ a.resources.Subperm (c ++ x)) s.resPool := hpool
    refine ⟨c, h.keeping (hp.step hstep) fun r hr => .inl ?_⟩
    simpa [State.assigned, State.held, hpc, SchedPc.unclaimed, SchedPc.claimed] using hr
  | @adjust a u hpc hjobs hu =>
    rw [hpc] at hpool
    have hperm : s.resPool.Perm c := hpool
    refine ⟨u.resPool, .refl _, updateResourcePool_at (fun r hr => h.free r (hperm.subset hr)) hu, fun r hr => ?_⟩
    refine h.assigned r ?_
    rw [updateResourcePool_frame hu] at hr
    simpa [State.assigned, State.held, hpc, SchedPc.unclaimed, SchedPc.claimed, Allocations.resources] using hr
  | giveUp hpc =>
    rw [hpc] at hpool
    refine ⟨c, h.keeping hpool fun r hr => .inl ?_⟩
    simp only [State.assigned, State.held, hpc, SchedPc.unclaimed, SchedPc.claimed, List.mem_append] at hr ⊢
    tauto
  | rest hpc =>
    rw [hpc] at hpool
    refine ⟨c, h.keeping hpool fun r hr => .inl ?_⟩
    simpa [State.assigned, State.held, hpc, SchedPc.unclaimed, SchedPc.claimed] using hr
  | remove hpc =>
    rw [hpc] at hpool
    refine ⟨c, h.keeping hpool fun r hr => .inl ?_⟩
    simpa [State.assigned, State.held, hpc, SchedPc.unclaimed, SchedPc.claimed] using hr
  | @claim p todo hpc =>
    rw [hpc] at hpool
    have hperm : s.resPool.Perm c := hpool
    refine ⟨(claimResources p.2 s.resPool).1, .refl _, fun r hr => ?_, fun r hr => h.assigned r ?_⟩
    · exact h.free r (hperm.subset (claimResources_subset _ _ hr))
    · simp only [State.assigned, State.held, hpc, SchedPc.unclaimed, SchedPc.claimed, List.mem_append] at hr ⊢
      tauto
  | add hpc =>
    rw [hpc] at hpool
    refine ⟨c, h.keeping hpool fun r hr => .inl ?_⟩
    simp only [State.assigned, State.held, hpc, SchedPc.unclaimed, SchedPc.claimed, List.flatMap_cons,
      List.mem_append] at hr ⊢
    tauto

/-- A pair from the run queue goes to a thread. -/
theorem dispatcherLoop_addressed (h : Addressed cfg s c) (hs : dispatcherLoop s = some t) : Addressed cfg t c := by
  cases dispatcherLoop_cases hs with
  | pop hd hq =>
    refine h.same rfl rfl fun r hr => ?_
    simp only [State.assigned, State.held, hd, hq, Option.toList, List.flatMap_cons, List.flatMap_nil,
      List.mem_append] at hr ⊢
    tauto
  | skip hd _ =>
    refine h.same rfl rfl fun r hr => ?_
    simp only [State.assigned, State.held, hd, Option.toList, List.flatMap_cons, List.flatMap_nil,
      List.mem_append] at hr ⊢
    tauto
  | start hd =>
    refine h.same rfl rfl fun r hr => ?_
    simp only [State.assigned, State.held, hd, Option.toList, List.flatMap_cons, List.flatMap_nil, Thread.held,
      List.mem_append] at hr ⊢
    tauto

/-- A thread returns what it was given. -/
theorem runJob_addressed {i : Nat} {rsp : Msg} (h : Addressed cfg s c) (hs : runJob i rsp s = some t) :
    ∃ c', Addressed cfg t c' := by
  obtain ⟨th, hth, hstep⟩ := runJob_cases hs
  have hheld := flatMap_thread Thread.held hth
  have hres := flatMap_thread Thread.res hth
  cases hstep with
  | answer rsp hph _ =>
    refine ⟨c, h.same rfl rfl fun r hr => ?_⟩
    simp only [State.assigned, State.held, List.flatMap_cons, List.mem_append, hheld.mem_iff, hres.mem_iff,
      Thread.held] at hr ⊢
    tauto
  | @giveBack x todo hph =>
    refine ⟨c ++ [x], h.pool.push [x], fun r hr => ?_, fun r hr => h.assigned r ?_⟩
    · rcases List.mem_append.mp hr with hr | hr
      · exact h.free r hr
      · obtain rfl := List.mem_singleton.mp hr
        refine h.assigned r ?_
        simp [State.assigned, State.held, hheld.mem_iff, Thread.held, hph]
    · simp only [State.assigned, State.held, List.flatMap_cons, List.mem_append, hheld.mem_iff, hres.mem_iff,
        Thread.held, hph, List.mem_cons] at hr ⊢
      tauto
  | finish hph =>
    refine ⟨c, h.same rfl rfl fun r hr => ?_⟩
    simp only [State.assigned, State.held, List.flatMap_cons, List.mem_append, hheld.mem_iff, hres.mem_iff,
      Thread.held, List.not_mem_nil] at hr ⊢
    tauto
  | leave hph =>
    refine ⟨c, h.same rfl rfl fun r hr => ?_⟩
    have hrunQ : r ∈ (removeJobFromRunQ th.job.jid s.runQ).flatMap Prod.snd → r ∈ s.runQ.flatMap Prod.snd := by
      intro hm
      obtain ⟨p, hp, hr⟩ := List.mem_flatMap.mp hm
      exact List.mem_flatMap.mpr ⟨p, List.mem_of_mem_eraseP hp, hr⟩
    simp only [State.assigned, State.held, List.mem_append, hheld.mem_iff, hres.mem_iff] at hr ⊢
    tauto

theorem step_addressed {a : Act} (hl : Life s) (h : Addressed cfg s c) (hs : s.step cfg a = some t) :
    ∃ c', Addressed cfg t c' := by
  cases a with
  | drawId request =>
    obtain rfl := Option.some.inj hs
    exact ⟨c, h.same rfl rfl fun _ hr => hr⟩
  | enqueue i =>
    obtain ⟨j, -, -, rfl⟩ := enqueue_cases hs
    exact ⟨c, h.same rfl rfl fun _ hr => hr⟩
  | sched => exact schedLoop_addressed hl h hs
  | dispatch => exact ⟨c, dispatcherLoop_addressed h hs⟩
  | run i rsp => exact runJob_addressed h hs
  | finish =>
    cases finishedLoop_cases hs with
    | _ => exact ⟨c, h.same rfl rfl fun _ hr => hr⟩
  | copy i =>
    obtain ⟨j, -, -, rfl⟩ := copyResponse_cases hs
    exact ⟨c, h.same rfl rfl fun _ hr => hr⟩

/-- **Every resource is at the dispatcher**, in every run. -/
theorem reachable_addressed (h : (system cfg).Reachable s) : ∃ c, Addressed cfg s c := by
  have hinv : Life s ∧ ∃ c, Addressed cfg s c := by
    refine h.invariant (I := fun s => Life s ∧ ∃ c, Addressed cfg s c) ⟨life_init cfg, _, addressed_init cfg⟩ ?_
    rintro s a t ⟨hl, c, hc⟩ hst
    exact ⟨step_life hl hst, step_addressed hl hc hst⟩
  exact hinv.2

/-! ## What threads read -/

/-- Clients send calls, and a thread reads what the server at the address of its first resource replies. -/
def Connected (net : Network) (s : State) : Act → Prop
  | .drawId request => ∃ (c : Call) (st : Stamp), request = c.msg.stamp st
  | .run i rsp => ∀ th ∈ s.threads[i]?, th.phase = .calling → ∃ r ∈ th.res.head?, ∃ reads bs rest,
      runJobExchange (net r.port r.url) (packedRids th.res) reads th.job.req = done (bs, rest) ∧ rsp = Msg.ofBytes bs
  | _ => True

/-- A response is received by a thread that waits for it. -/
theorem step_received {a : Act} (hs : s.step cfg a = some t) : ∀ p ∈ t.received, p ∈ s.received ∨
    ∃ i rsp th, a = .run i rsp ∧ s.threads[i]? = some th ∧ th.phase = .calling ∧ p = (th.job.jid, rsp) := by
  intro p hp
  cases a with
  | run i rsp =>
    obtain ⟨th, hth, hstep⟩ := runJob_cases hs
    cases hstep with
    | answer rsp' hph hres =>
      rcases List.mem_cons.mp hp with rfl | hp
      · have hreply : rsp' = rsp := by
          have hs : runJob i rsp s = some _ := hs
          simp only [runJob, hth, hph, if_neg hres] at hs
          have hreceived := congrArg State.received (Option.some.inj hs)
          exact (congrArg Prod.snd (List.cons.inj hreceived).1).symm
        rw [hreply]
        exact .inr ⟨i, rsp, th, rfl, hth, hph, rfl⟩
      · exact .inl hp
    | _ => exact .inl hp
  | drawId request =>
    obtain rfl := Option.some.inj hs
    exact .inl hp
  | enqueue i =>
    obtain ⟨j, -, -, rfl⟩ := enqueue_cases hs
    exact .inl hp
  | sched =>
    cases schedLoop_cases hs with
    | adjust _ _ hu =>
      rw [updateResourcePool_frame hu] at hp
      exact .inl hp
    | _ => exact .inl hp
  | dispatch =>
    cases dispatcherLoop_cases hs with
    | _ => exact .inl hp
  | finish =>
    cases finishedLoop_cases hs with
    | _ => exact .inl hp
  | copy i =>
    obtain ⟨j, -, -, rfl⟩ := copyResponse_cases hs
    exact .inl hp

/-- What the dispatcher replies to a call has the result of the kernel. -/
theorem kernelResult_data {k : Kernels} {fuel : Nat} {response : Msg} (c : Call) (st : Stamp) (rids : BitVec 8)
    (h : dispatcherHandleRequest k fuel { c.msg.stamp st with rids } = done response) :
    kernelResult k fuel { c.msg.stamp st with rids } = done response.data := by
  cases c with
  | movingAverage r =>
    obtain ⟨u, hunpack, h⟩ := bind_eq_done.mp (h : unpack { r.msg.stamp st with rids } >>= _ = _)
    obtain ⟨out, hrun, h⟩ := bind_eq_done.mp h
    cases h
    exact bind_eq_done.mpr ⟨u, hunpack, bind_eq_done.mpr ⟨out, hrun, rfl⟩⟩
  | optionPricing r =>
    obtain ⟨response', hrun, hans, -⟩ := dispatcher_answer (.optionPricing r) st rids
      (rfl : kernelResult k fuel { r.msg.stamp st with rids } = done _)
    cases h.symm.trans hrun
    rw [hans.data]
    rfl

/-- The response received for a job is the kernel's result on the request of that job, with its resources. -/
def Computed (k : Kernels) (fuel : Nat) (s : State) (p : Nat × Msg) : Prop :=
  ∃ j ∈ s.issued, j.jid = p.1 ∧ ∃ res result, (rids res).Nodup ∧
    kernelResult k fuel { j.req with rids := packedRids res } = done result ∧ Answer result p.2

/-- Jobs are for calls, and what was received was computed for them. -/
structure Computes (k : Kernels) (fuel : Nat) (s : State) : Prop where
  calls : ∀ j ∈ s.entering ++ s.issued, ∃ (c : Call) (st : Stamp), j.req = c.msg.stamp st
  received : ∀ p ∈ s.received, Computed k fuel s p

theorem computes_init (k : Kernels) (fuel : Nat) (cfg : Config) : Computes k fuel (State.init cfg) :=
  ⟨fun j hj => (by cases hj), fun p hp => (by cases hp)⟩

section Runs

variable {net : Network} {k : Kernels} {fuel : Nat}

theorem step_calls {a : Act} (h : ∀ j ∈ s.entering ++ s.issued, ∃ (c : Call) (st : Stamp), j.req = c.msg.stamp st)
    (ha : Connected net s a) (hs : s.step cfg a = some t) :
    ∀ j ∈ t.entering ++ t.issued, ∃ (c : Call) (st : Stamp), j.req = c.msg.stamp st := by
  intro j hj
  rcases step_jobs hs j hj with hj | ⟨request, rfl, rfl⟩
  · exact h j hj
  · exact ha

variable (hserve : (net cfg.dispatcherPortNumber cfg.dispatcherHostname).serve = dispatcherServe k fuel)
include hserve

/-- A thread reads the result of the kernel. -/
theorem exchange_computes {r : Resource} (hr : r.At cfg) {c : Call} {st : Stamp} {rids : BitVec 8} {reads : Nat}
    {bs : List UInt8} {rest : List Chunk}
    (h : runJobExchange (net r.port r.url) rids reads (c.msg.stamp st) = done (bs, rest)) :
    ∃ result, kernelResult k fuel { c.msg.stamp st with rids } = done result ∧ Answer result (Msg.ofBytes bs) := by
  have hlink : (net r.port r.url).serve = dispatcherServe k fuel := by rw [hr.1, hr.2, hserve]
  obtain ⟨⟨response, hrun⟩, hreads⟩ := runJobExchange_done hlink h
  obtain ⟨result, hans, hlen⟩ := dispatcher_replied c st rids hrun
  obtain ⟨n, rfl⟩ := Nat.exists_eq_succ_of_ne_zero hreads
  have hreply : (net r.port r.url).serve { c.msg.stamp st with rids } = done (some response) := by
    rw [hlink, dispatcherServe, hrun]
    rfl
  cases h.symm.trans (runJobExchange_answer hans hlen hreply n)
  refine ⟨result, ?_, by rw [Msg.ofBytes_toBytes]; exact hans⟩
  rw [kernelResult_data c st rids hrun, hans.data]

/-- **One step** keeps it: only a thread that reads a reply adds to what was received. -/
theorem step_computes {a : Act} (hr : (system cfg).Reachable s) (h : Computes k fuel s) (ha : Connected net s a)
    (hs : s.step cfg a = some t) : Computes k fuel t := by
  have hl := reachable_life hr
  refine ⟨step_calls h.calls ha hs, fun p hp => ?_⟩
  have hissued : s.issued ⊆ t.issued := by
    rcases step_readyQ hs with ⟨-, he⟩ | ⟨j, -, he⟩ | ⟨i, -, he⟩
    · rw [he]; exact List.Subset.refl _
    · rw [he]; exact List.subset_append_left _ _
    · rw [he]; exact List.Subset.refl _
  rcases step_received hs p hp with hp | ⟨i, rsp, th, rfl, hth, hph, rfl⟩
  · obtain ⟨j, hj, hrest⟩ := h.received p hp
    exact ⟨j, hissued hj, hrest⟩
  · have hmem : th ∈ s.threads := List.mem_of_getElem? hth
    have hjob : th.job ∈ s.issued := by
      refine hl.launched_subset ?_
      simp only [State.launched, List.mem_append, List.mem_flatMap]
      refine .inl (.inl ⟨th, hmem, ?_⟩)
      rw [Thread.running, hph]
      exact List.mem_singleton.mpr rfl
    obtain ⟨c, hat⟩ := reachable_addressed hr
    obtain ⟨c', hdistinct⟩ := reachable_distinct hr
    obtain ⟨r, hfirst, reads, bs, rest, hread, rfl⟩ := ha th hth hph
    have hat : r.At cfg := by
      refine hat.assigned r (List.mem_append_right _ (List.mem_flatMap.mpr ⟨th, hmem, ?_⟩))
      exact List.mem_of_mem_head? hfirst
    obtain ⟨call, st, hreq⟩ := h.calls th.job (List.mem_append_right _ hjob)
    rw [hreq] at hread
    obtain ⟨result, hresult, hans⟩ := exchange_computes hserve hat hread
    exact ⟨th.job, hissued hjob, rfl, th.res, result, (hdistinct.threads th hmem).1, by rw [hreq]; exact hresult, hans⟩

/-- **Whole runs**: what was received was computed for the job. -/
theorem reachable_computes (h : (system cfg).ReachableIf (Connected net) s) :
    (system cfg).Reachable s ∧ Computes k fuel s := by
  refine h.invariant (I := fun s => (system cfg).Reachable s ∧ Computes k fuel s) ⟨.init, computes_init k fuel cfg⟩ ?_
  rintro s a t ⟨hr, hc⟩ ha hst
  exact ⟨.step hr trivial hst, step_computes hserve hr hc ha hst⟩

end Runs

/-! ## What clients read -/

/-- The client of the call reads `result`: `handle_request` makes a reply of the response `m` to the job, and in whatever
chunks it arrives the client has the result in `out`. -/
def Reads (c : Call) (st : Stamp) (m : Msg) (result : List UInt8) : Prop :=
  ∀ meanWaitTime, ∃ reply,
    schedulerHandleRequest (fun _ => done (m.toBytes, [])) meanWaitTime (c.msg.stamp st) = done (some reply) ∧
    writeMsg reply = done reply.toBytes ∧
    ∀ cs out, cs.flatten = reply.toBytes → out.length = c.outBytes → getResult out c.sizeBytes cs = done (result, [])

section Clients

variable {net : Network} {k : Kernels} {fuel : Nat}

/-- The result of the kernel is read, however it is cut. -/
theorem reads_of_answer {c : Call} {st : Stamp} {rids : BitVec 8} {result : List UInt8} {m : Msg}
    (hkernel : kernelResult k fuel { c.msg.stamp st with rids } = done result) (hans : Answer result m) :
    Reads c st m result := by
  obtain ⟨-, -, -, hlen⟩ := dispatcher_answer c st rids hkernel
  intro meanWaitTime
  obtain ⟨reply, hreply, hans'⟩ := @schedulerHandleRequest_answer _ _ (fun _ => done (m.toBytes, [])) c st hans hlen rfl
    meanWaitTime
  refine ⟨reply, hreply, writeMsg_answer hans', fun cs out hcs hout => ?_⟩
  exact getResult_answer hans' (by rw [c.toNat_sizeBytes, hlen]) (by rw [hlen]; exact c.outBytes_lt) hcs
    (hout.trans hlen.symm)

/-- What a handler copies was computed for its job. -/
theorem copied_computed (hserve : (net cfg.dispatcherPortNumber cfg.dispatcherHostname).serve = dispatcherServe k fuel)
    (h : (system cfg).ReachableIf (Connected net) s) {j : Job} (hj : j ∈ s.issued) {o : Option Msg}
    (ho : (j.jid, o) ∈ s.copied) : ∃ m res result, o = some m ∧ (rids res).Nodup ∧
      kernelResult k fuel { j.req with rids := packedRids res } = done result ∧ Answer result m := by
  obtain ⟨hr, hcomputes⟩ := reachable_computes hserve h
  have hl := reachable_life hr
  obtain ⟨m, rfl, hm⟩ := hl.copied_received ho
  obtain ⟨i, hi, hid, res, result, hnd, hkernel, hans⟩ := hcomputes.received _ hm
  obtain rfl : i = j := List.inj_on_of_nodup_map hl.issued_ids_nodup hi hj hid
  exact ⟨m, res, result, rfl, hnd, hkernel, hans⟩

end Clients

/-- **Every client reads its own result**: in every run in which clients send calls and threads talk to the dispatcher,
what a handler copies for the job of a call is the result of the kernel on that call, on resources with different ids,
and the client of the call reads it. -/
theorem own_result (cfg : Config) (net : Network) (k : Kernels) (fuel : Nat)
    (hserve : (net cfg.dispatcherPortNumber cfg.dispatcherHostname).serve = dispatcherServe k fuel) (s : State)
    (h : (system cfg).ReachableIf (Connected net) s) (j : Job) (hj : j ∈ s.issued) (c : Call) (st : Stamp)
    (hreq : j.req = c.msg.stamp st) (o : Option Msg) (ho : (j.jid, o) ∈ s.copied) :
    ∃ m res result, o = some m ∧ (rids res).Nodup ∧
      kernelResult k fuel { c.msg.stamp st with rids := packedRids res } = done result ∧ Reads c st m result := by
  obtain ⟨m, res, result, rfl, hnd, hkernel, hans⟩ := copied_computed hserve h hj ho
  rw [hreq] at hkernel
  exact ⟨m, res, result, rfl, hnd, hkernel, reads_of_answer hkernel hans⟩

/-- **Through an executor too**: a moving average that an executor forwards to the scheduler is answered with the result
of the kernel on what was forwarded, and passes the executor to its client, whatever other clients and executors do. -/
theorem own_result_executor (cfg : Config) (net : Network) (k : Kernels) (fuel : Nat)
    (hserve : (net cfg.dispatcherPortNumber cfg.dispatcherHostname).serve = dispatcherServe k fuel) (s : State)
    (h : (system cfg).ReachableIf (Connected net) s) (e : Executor) (r : MovingAvg) (st : Stamp)
    (hid : st.clientId = atoi e.cid) (d : Executor.Route) (hroute : e.route (r.msg.stamp st) = some d) (j : Job)
    (hj : j ∈ s.issued) (hreq : j.req = d.request) (o : Option Msg) (ho : (j.jid, o) ∈ s.copied) :
    ∃ m res result, o = some m ∧ (rids res).Nodup ∧
      kernelResult k fuel { d.request with rids := packedRids res } = done result ∧
      ∀ meanWaitTime, ∃ reply,
        schedulerHandleRequest (fun _ => done (m.toBytes, [])) meanWaitTime d.request = done (some reply) ∧
        reply.data = result ∧ ∀ front : Network, (front d.port d.url).serve d.request = done (some reply) →
          e.Transparent front (.movingAverage r) st reply := by
  obtain ⟨m, res, result, rfl, hnd, hkernel, hans⟩ := copied_computed hserve h hj ho
  obtain ⟨st', hst⟩ := Executor.route_stamp (c := .movingAverage r) hroute
  rw [hreq] at hkernel
  refine ⟨m, res, result, rfl, hnd, hkernel, fun meanWaitTime => ?_⟩
  rw [hst] at hkernel
  obtain ⟨-, -, -, hlen⟩ := dispatcher_answer (.movingAverage r) st' _ hkernel
  obtain ⟨reply, hreply, hans'⟩ := @schedulerHandleRequest_answer _ _ (fun _ => done (m.toBytes, []))
    (.movingAverage r) st' hans hlen rfl meanWaitTime
  refine ⟨reply, by rw [hst]; exact hreply, hans'.data, fun front hfront => ?_⟩
  exact Executor.movingAvg_transparent hid hroute hans' hlen hfront

/-- A client of `localConfig` that knows how long its three numbers take. -/
def threeStamp : Stamp := ⟨1, 0, 0, 0, 1000, 1000⟩

/-- What the dispatcher replies to it. -/
def threeResponse : Msg := movingAvgResponse cpuOnly threePoints.msg [0, 2, 0]

/-- That client is the only one, and gets the first resource. -/
def OneClient (s : State) : Act → Prop
  | .drawId request => request = threePoints.msg.stamp threeStamp
  | .run _ rsp => rsp = threeResponse ∧
      s.threads.map (fun th => (th.job.req, th.res)) = [(threePoints.msg.stamp threeStamp, [firstResource])]
  | _ => True

instance (s : State) : (a : Act) → Decidable (OneClient s a)
  | .drawId _ => inferInstanceAs (Decidable (_ = _))
  | .run _ _ => inferInstanceAs (Decidable (_ ∧ _))
  | .enqueue _ | .sched | .dispatch | .finish | .copy _ => .isTrue trivial

theorem connected_oneClient {s : State} {a : Act} (h : OneClient s a) : Connected Executor.cpuNetwork s a := by
  cases a with
  | drawId request => exact ⟨.movingAverage threePoints, threeStamp, h⟩
  | run i rsp =>
    intro th hth _
    have hmem := List.mem_map_of_mem (f := fun th => (th.job.req, th.res)) (List.mem_of_getElem? hth)
    rw [h.2] at hmem
    obtain ⟨hreq, hres⟩ := Prod.mk.inj (List.mem_singleton.mp hmem)
    rw [hreq, hres, h.1]
    refine ⟨firstResource, rfl, 1, threeResponse.toBytes, [], ?_, (Msg.ofBytes_toBytes _).symm⟩
    decide +kernel
  | _ => trivial

/-- The run of its call. -/
def threeRun : List Act :=
  serve (threePoints.msg.stamp threeStamp) 24 ++ [.dispatch, .dispatch] ++ List.replicate 4 (.run 0 threeResponse) ++
    [.finish, .finish, .copy 0]

theorem exists_threeRun : ∃ s, (system localConfig).ReachableIf (Connected Executor.cpuNetwork) s ∧
    s.issued = [Job.ofRequest (threePoints.msg.stamp threeStamp) 1] ∧ s.copied = [(1, some threeResponse)] := by
  obtain ⟨s, hr, hs⟩ := Machine.exists_reachableIf (system localConfig) OneClient threeRun
    (fun s => (s.issued, s.copied)) ([Job.ofRequest (threePoints.msg.stamp threeStamp) 1], [(1, some threeResponse)])
    (by decide +kernel)
  exact ⟨s, hr.mono fun _ _ => connected_oneClient, congrArg Prod.fst hs, congrArg Prod.snd hs⟩

theorem own_result_three : ∃ s, (system localConfig).ReachableIf (Connected Executor.cpuNetwork) s ∧
    ∃ m res result, some threeResponse = some m ∧ (rids res).Nodup ∧
      kernelResult cpuOnly 4 { (Call.movingAverage threePoints).msg.stamp threeStamp with rids := packedRids res } =
        done result ∧ Reads (.movingAverage threePoints) threeStamp m result := by
  obtain ⟨s, hr, hissued, hcopied⟩ := exists_threeRun
  have hj : Job.ofRequest (threePoints.msg.stamp threeStamp) 1 ∈ s.issued := by simp [hissued]
  have ho : (1, some threeResponse) ∈ s.copied := by simp [hcopied]
  exact ⟨s, hr, own_result localConfig Executor.cpuNetwork cpuOnly 4 rfl s hr _ hj (.movingAverage threePoints)
    threeStamp rfl _ ho⟩

/-- The same request, forwarded by an executor that finds the shared devices faster. -/
theorem own_result_executor_three : ∃ s, (system localConfig).ReachableIf (Connected Executor.cpuNetwork) s ∧
    ∃ m res result, some threeResponse = some m ∧ (rids res).Nodup ∧
      kernelResult cpuOnly 4 { threePoints.msg.stamp threeStamp with rids := packedRids res } = done result ∧
      ∀ meanWaitTime, ∃ reply, schedulerHandleRequest (fun _ => done (m.toBytes, [])) meanWaitTime
          (threePoints.msg.stamp threeStamp) = done (some reply) ∧
        reply.data = result ∧
        ∀ front : Network, (front 8111 "localhost").serve (threePoints.msg.stamp threeStamp) = done (some reply) →
          (Executor.main "1" 8111 "localhost" (Task.mavTask 1 1000)).Transparent front (.movingAverage threePoints)
            ⟨1, 0, 0, 0, 0, 1000⟩ reply := by
  obtain ⟨s, hr, hissued, hcopied⟩ := exists_threeRun
  have hj : Job.ofRequest (threePoints.msg.stamp threeStamp) 1 ∈ s.issued := by simp [hissued]
  have ho : (1, some threeResponse) ∈ s.copied := by simp [hcopied]
  exact ⟨s, hr, own_result_executor localConfig Executor.cpuNetwork cpuOnly 4 rfl s hr
    (Executor.main "1" 8111 "localhost" (Task.mavTask 1 1000)) threePoints ⟨1, 0, 0, 0, 0, 1000⟩ (by decide +kernel)
    ⟨8111, "localhost", threePoints.msg.stamp threeStamp⟩ (by decide +kernel) _ hj rfl _ ho⟩

/-! ## Averages -/

/-- The width below 128 is the size the CPU kernel is called with. -/
theorem width_char {w : BitVec 64} (h : w.toNat < 128) :
    ((UInt8.ofNat w.toNat).toBitVec.signExtend 32).signExtend 64 = w := by
  have hchar : (UInt8.ofNat w.toNat).toBitVec.toInt = w.toNat := by
    rw [toInt_char, if_pos (by omega)]
    omega
  refine BitVec.eq_of_toNat_eq ?_
  rw [toNat_signExtend_char, hchar, if_pos (by omega), Int.toNat_natCast]

theorem movingAverage_cpu {k : Kernels} {fuel : Nat} {request : Msg} (u : Unpacked)
    (hcpu : ¬(request.resourceType = DFE ∧ k.useDfe = true)) : movingAverage k fuel request u =
      movingAverageCpu fuel u.n (u.firstParam.signExtend 64) u.dataIn (callocInts u.n) := if_neg hcpu

/-- The CPU kernel on a request whose width it can read. -/
theorem kernelResult_cpu {k : Kernels} {fuel : Nat} {r : MovingAvg} {st : Stamp} {rids : BitVec 8} {result : List UInt8}
    (hcpu : ¬(st.resourceType = DFE ∧ k.useDfe = true)) (hpos : 1 ≤ r.width.toNat)
    (hle : r.width.toNat ≤ r.dataIn.length) (hwidth : r.width.toNat < 128)
    (h : kernelResult k fuel { r.msg.stamp st with rids } = done result) :
    result = intBytes ((windowEntries r.dataIn r.width).rotateRight 1) := by
  have hfits := r.fits
  have hn : r.msg.dataSize.toNat = r.dataIn.length := r.toNat_dataSize
  have hdata : intsAt r.msg.dataSize.toNat r.msg.data = r.dataIn := by
    rw [hn, r.data_msg]
    exact intsAt_intBytes r.dataIn _
  have hunpack : unpack { r.msg.stamp st with rids } = done ⟨r.msg.dataSize, intsAt r.msg.dataSize.toNat r.msg.data,
      (UInt8.ofNat r.width.toNat).toBitVec.signExtend 32⟩ :=
    unpack_eq (by show r.msg.data.length < 2 ^ 64; rw [r.length_data]; omega) r.firstByte
  have hcalloc : (callocInts r.msg.dataSize).length = r.dataIn.length := by
    rw [callocInts, if_pos (by omega), List.length_replicate, hn]
  obtain ⟨u, hu, h⟩ := bind_eq_done.mp (h : unpack { r.msg.stamp st with rids } >>= _ = _)
  obtain ⟨out, hrun, h⟩ := bind_eq_done.mp h
  cases h
  cases hu.symm.trans hunpack
  rw [movingAverage_cpu _ hcpu, width_char hwidth, hdata] at hrun
  -- the loops return the same with more fuel
  have hmore := movingAverageCpu_mono (Nat.le_add_right fuel (r.dataIn.length + 1)) hrun
  rw [movingAverageCpu_eq hn hcalloc hpos (by omega) (by omega)] at hmore
  cases hmore
  rfl

/-- **Every client reads its own average**: in every such run, when the requests for moving averages that go to the CPU
have widths from 1 to 127 and no more than their numbers, the sums fit in an `int` and the unsigned division is exact,
the client reads the averages of the numbers it sent, rotated right by one. -/
theorem own_average (cfg : Config) (net : Network) (k : Kernels) (fuel : Nat)
    (hserve : (net cfg.dispatcherPortNumber cfg.dispatcherHostname).serve = dispatcherServe k fuel) (s : State)
    (h : (system cfg).ReachableIf (Connected net) s) (j : Job) (hj : j ∈ s.issued) (r : MovingAvg) (st : Stamp)
    (hreq : j.req = r.msg.stamp st) (hcpu : ¬(st.resourceType = DFE ∧ k.useDfe = true)) (hpos : 1 ≤ r.width.toNat)
    (hle : r.width.toNat ≤ r.dataIn.length) (hwidth : r.width.toNat < 128) (hfit : SumsFit r.dataIn r.width.toNat)
    (hexact : ∀ i, i + r.width.toNat ≤ r.dataIn.length → WordDiv.Exact r.width.toNat (intSum r.dataIn i r.width.toNat))
    (o : Option Msg) (ho : (j.jid, o) ∈ s.copied) :
    ∃ m result, o = some m ∧ Reads (.movingAverage r) st m result ∧
      (intsAt r.dataIn.length result).map BitVec.toInt = (averages r.dataIn r.width.toNat).rotateRight 1 := by
  have hfits := r.fits
  obtain ⟨m, res, result, rfl, -, hkernel, hans⟩ := copied_computed hserve h hj ho
  rw [hreq] at hkernel
  have hreads : Reads (.movingAverage r) st m result := reads_of_answer hkernel hans
  have hresult := kernelResult_cpu hcpu hpos hle hwidth hkernel
  refine ⟨m, result, rfl, hreads, ?_⟩
  have hlen : ((windowEntries r.dataIn r.width).rotateRight 1).length = r.dataIn.length := by
    rw [← length_windowEntries hpos hle]
    simp [rotateRight_one]
  have hints : intsAt r.dataIn.length result = (windowEntries r.dataIn r.width).rotateRight 1 := by
    rw [hresult, ← hlen]
    have hback := intsAt_intBytes ((windowEntries r.dataIn r.width).rotateRight 1) []
    rwa [List.append_nil] at hback
  rw [hints, map_rotateRight_one, (windowEntries_eq_iff hfit (by omega) hpos hle).mpr hexact]

theorem own_average_three : ∃ s, (system localConfig).ReachableIf (Connected Executor.cpuNetwork) s ∧
    ∃ m result, some threeResponse = some m ∧ Reads (.movingAverage threePoints) threeStamp m result ∧
      (intsAt 3 result).map BitVec.toInt = (averages [1, 2, 3] 3).rotateRight 1 := by
  obtain ⟨s, hr, hissued, hcopied⟩ := exists_threeRun
  have hfit : SumsFit threePoints.dataIn threePoints.width.toNat := by
    intro i k hi hk
    have hi : i + 3 ≤ 3 := hi
    have hk : k ≤ 3 := hk
    obtain rfl : i = 0 := by omega
    obtain rfl | rfl | rfl | rfl : k = 0 ∨ k = 1 ∨ k = 2 ∨ k = 3 := by omega
    all_goals decide
  have hexact : ∀ i, i + threePoints.width.toNat ≤ threePoints.dataIn.length →
      WordDiv.Exact threePoints.width.toNat (intSum threePoints.dataIn i threePoints.width.toNat) := by
    intro i hi
    have hi : i + 3 ≤ 3 := hi
    obtain rfl : i = 0 := by omega
    decide
  have hj : Job.ofRequest (threePoints.msg.stamp threeStamp) 1 ∈ s.issued := by simp [hissued]
  have ho : (1, some threeResponse) ∈ s.copied := by simp [hcopied]
  exact ⟨s, hr, own_average localConfig Executor.cpuNetwork cpuOnly 4 rfl s hr _ hj threePoints threeStamp rfl
    (by decide) (by decide) (by decide) (by decide) hfit hexact _ ho⟩

end Hydrogen
