import Hydrogen.Dispatcher.Server

/-!
# The payload on its way through the scheduler

A client's request reaches a dispatcher with the bits of the job's resources in it; the dispatcher's reply is read by
`runJob`, copied by `concurrentHandler` into the reply of `handle_request` and read by the client. The size of the reply
is computed anew at each of these places; they agree for every call of the client API (`payload_transparent`).
-/

namespace Hydrogen

open Exec

/-! ## The code -/

/-- `int sizeBytes = sizeof(msg_t) + req->expDataSizeBytes` of `runJob`, as it is passed to `read`. -/
def runJobSize (req : Msg) : BitVec 64 :=
  ((BitVec.ofNat 64 sizeofMsg + req.expDataSizeBytes).setWidth 32).signExtend 64

/-- The exchange of `runJob` with the dispatcher of its resources: the reply, and what is left in the socket. -/
def runJobExchange (dispatcher : Link) (packedRids : BitVec 8) (reads : Nat) (req : Msg) :
    Exec (List UInt8 × List Chunk) := do
  let req := { req with rids := packedRids }
  let cs ← dispatcher.send req
  readResult (runJobSize req) reads cs

/-- `(msg_t *)calloc(sizeBytes, 1)`. -/
def callocMsg (sizeBytes : BitVec 64) : Msg := Msg.ofBytes (List.replicate sizeBytes.toNat 0)

/-- `concurrentHandler`: it waits for the job and copies of its reply into the response. -/
def concurrentHandler (job : Msg → Exec (List UInt8 × List Chunk)) (request response : Msg) : Exec Msg := do
  let buff ← job request
  let rsp := Msg.ofBytes buff.1
  let data ← memcpy response.data rsp.data rsp.dataBytes
  pure { response with
    msgId := rsp.msgId
    dataSize := rsp.dataSize
    paramsSize := 0
    totalBytes := rsp.totalBytes
    dataBytes := rsp.dataBytes
    data := data }

/-- `Scheduler::handle_request`; `NULL` for `MSG_TERM`. -/
def schedulerHandleRequest (job : Msg → Exec (List UInt8 × List Chunk)) (meanWaitTime : BitVec 32) (request : Msg) :
    Exec (Option Msg) := do
  let sizeBytes := BitVec.ofNat 64 sizeofMsg + request.expDataSizeBytes
  if request.msgId = MSG_TERM then pure none
  else if request.msgId = MSG_OPTION_PRICE then
    let response ← concurrentHandler job request (callocMsg sizeBytes)
    pure (some response)
  else if request.msgId = MSG_MOVING_AVG then
    let response ← concurrentHandler job request (callocMsg sizeBytes)
    pure (some { response with avgWt := meanWaitTime })
  else pure (some msgAck)

/-! ## The sizes -/

section Sizes

variable (c : Call) (s : Stamp) (rids : BitVec 8)

theorem toNat_replySize : (BitVec.ofNat 64 sizeofMsg + c.msg.expDataSizeBytes).toNat = sizeofMsg + c.outBytes := by
  rw [toNat_sizeofMsg_add (by rw [c.toNat_expDataSizeBytes]; exact c.outBytes_lt), c.toNat_expDataSizeBytes]

theorem toNat_runJobSize : (runJobSize { c.msg.stamp s with rids }).toNat = sizeofMsg + c.outBytes := by
  show (((BitVec.ofNat 64 sizeofMsg + c.msg.expDataSizeBytes).setWidth 32).signExtend 64).toNat = _
  rw [toInt_sizeofMsg_add (by rw [c.toNat_expDataSizeBytes]; exact c.outBytes_lt), c.toNat_expDataSizeBytes]

theorem length_callocMsg :
    (callocMsg (BitVec.ofNat 64 sizeofMsg + c.msg.expDataSizeBytes)).data.length = c.outBytes := by
  show ((List.replicate (BitVec.ofNat 64 sizeofMsg + c.msg.expDataSizeBytes).toNat 0).drop sizeofMsg).length = _
  rw [List.length_drop, List.length_replicate, toNat_replySize, Nat.add_sub_cancel_left]

end Sizes

/-! ## The two copies of a reply -/

section Copies

variable {result : List UInt8} {rsp : Msg}

/-- The job reads the answer of its dispatcher, all of it and no more. -/
theorem runJobExchange_answer {dispatcher : Link} {c : Call} {s : Stamp} {rids : BitVec 8} (h : Answer result rsp)
    (hlen : result.length = c.outBytes) (hserve : dispatcher.serve { c.msg.stamp s with rids } = done (some rsp))
    (reads : Nat) : runJobExchange dispatcher rids (reads + 1) (c.msg.stamp s) = done (rsp.toBytes, []) := by
  obtain ⟨cs, hsend, hcs⟩ := @send_answer _ _ h dispatcher { c.msg.stamp s with rids } c.toNat_totalBytes hserve
  unfold runJobExchange
  dsimp only
  rw [hsend, done_bind]
  exact readResult_answer h (by rw [toNat_runJobSize, hlen]) hcs reads

/-- The copy of an answer is an answer. -/
theorem concurrentHandler_answer {job : Msg → Exec (List UInt8 × List Chunk)} {request response : Msg}
    (h : Answer result rsp) (hjob : job request = done (rsp.toBytes, [])) (hlen : response.data.length = result.length) :
    ∃ r, concurrentHandler job request response = done r ∧ ∀ w, Answer result { r with avgWt := w } := by
  have hcopy : memcpy response.data rsp.data rsp.dataBytes = done result := by
    rw [h.data]
    exact memcpy_all h.dataBytes hlen
  unfold concurrentHandler
  rw [hjob, done_bind]
  dsimp only
  rw [Msg.ofBytes_toBytes, hcopy, done_bind]
  exact ⟨_, rfl, fun w => ⟨h.msgId, rfl, h.dataBytes, h.totalBytes⟩⟩

/-- **The scheduler answers a call** whose job was answered. -/
theorem schedulerHandleRequest_answer {job : Msg → Exec (List UInt8 × List Chunk)} {c : Call} {s : Stamp}
    (h : Answer result rsp) (hlen : result.length = c.outBytes) (hjob : job (c.msg.stamp s) = done (rsp.toBytes, []))
    (meanWaitTime : BitVec 32) :
    ∃ reply, schedulerHandleRequest job meanWaitTime (c.msg.stamp s) = done (some reply) ∧ Answer result reply := by
  obtain ⟨r, hr, hans⟩ := concurrentHandler_answer h hjob ((length_callocMsg c).trans hlen.symm)
  cases c with
  | movingAverage r' =>
    refine ⟨{ r with avgWt := meanWaitTime }, ?_, hans meanWaitTime⟩
    exact congrArg (· >>= fun response => pure (some { response with avgWt := meanWaitTime })) hr
  | optionPricing r' =>
    refine ⟨r, ?_, hans r.avgWt⟩
    exact congrArg (· >>= fun response => pure (some response)) hr

end Copies

/-! ## Servers -/

/-- A server that answers calls: a dispatcher, or a scheduler in front of one. -/
inductive Serves : (Msg → Exec (Option Msg)) → Prop
  | dispatcher (k : Kernels) (fuel : Nat) : Serves (dispatcherServe k fuel)
  | scheduler (link : Link) (k : Kernels) (fuel : Nat) (hlink : link.serve = dispatcherServe k fuel) (rids : BitVec 8)
      (reads : Nat) (meanWaitTime : BitVec 32) :
      Serves (schedulerHandleRequest (runJobExchange link rids reads) meanWaitTime)

/-- The dispatcher replies to whoever has read a reply. -/
theorem runJobExchange_done {link : Link} {k : Kernels} {fuel : Nat} (hlink : link.serve = dispatcherServe k fuel)
    {c : Call} {s : Stamp} {rids : BitVec 8} {reads : Nat} {r : List UInt8 × List Chunk}
    (h : runJobExchange link rids reads (c.msg.stamp s) = done r) :
    (∃ response, dispatcherHandleRequest k fuel { c.msg.stamp s with rids } = done response) ∧ reads ≠ 0 := by
  obtain ⟨cs, hsend, hread⟩ := bind_eq_done.mp h
  have htotal : writeMsg { c.msg.stamp s with rids } = done _ := writeMsg_eq c.toNat_totalBytes
  rw [Link.send, htotal, done_bind, Msg.ofBytes_toBytes, hlink] at hsend
  obtain ⟨reply, hserve, -⟩ := bind_eq_done.mp hsend
  obtain ⟨response, hrun, -⟩ := bind_eq_done.mp hserve
  refine ⟨⟨response, hrun⟩, ?_⟩
  rintro rfl
  cases hread

/-- The job has been done for a call the scheduler replies to. -/
theorem schedulerHandleRequest_done {job : Msg → Exec (List UInt8 × List Chunk)} {meanWaitTime : BitVec 32} {c : Call}
    {s : Stamp} {reply : Option Msg} (h : schedulerHandleRequest job meanWaitTime (c.msg.stamp s) = done reply) :
    ∃ r, job (c.msg.stamp s) = done r := by
  cases c with
  | movingAverage r =>
    obtain ⟨response, hresponse, -⟩ := bind_eq_done.mp (h : concurrentHandler job _ _ >>= _ = _)
    obtain ⟨buff, hjob, -⟩ := bind_eq_done.mp hresponse
    exact ⟨buff, hjob⟩
  | optionPricing r =>
    obtain ⟨response, hresponse, -⟩ := bind_eq_done.mp (h : concurrentHandler job _ _ >>= _ = _)
    obtain ⟨buff, hjob, -⟩ := bind_eq_done.mp hresponse
    exact ⟨buff, hjob⟩

/-- **Whatever a server replies to a call is an answer** of the size the client expects. -/
theorem Serves.answer {serve : Msg → Exec (Option Msg)} (h : Serves serve) (c : Call) (s : Stamp) {reply : Msg}
    (hreply : serve (c.msg.stamp s) = done (some reply)) :
    ∃ result, Answer result reply ∧ result.length = c.outBytes := by
  cases h with
  | dispatcher k fuel =>
    obtain ⟨response, hrun, hsome⟩ := bind_eq_done.mp hreply
    cases hsome
    exact dispatcher_replied c s c.msg.rids hrun
  | scheduler link k fuel hlink rids reads meanWaitTime =>
    obtain ⟨r, hjob⟩ := schedulerHandleRequest_done hreply
    obtain ⟨⟨response, hrun⟩, hreads⟩ := runJobExchange_done hlink hjob
    obtain ⟨result, hans, hlen⟩ := dispatcher_replied c s rids hrun
    obtain ⟨n, rfl⟩ := Nat.exists_eq_succ_of_ne_zero hreads
    have hserve : link.serve { c.msg.stamp s with rids } = done (some response) := by
      rw [hlink, dispatcherServe, hrun]
      rfl
    obtain ⟨reply', hreply', hans'⟩ :=
      schedulerHandleRequest_answer hans hlen (runJobExchange_answer hans hlen hserve n) meanWaitTime
    cases hreply.symm.trans hreply'
    exact ⟨result, hans', hlen⟩

/-! ## The whole way -/

/-- A call comes back with the result: `runJob` reads what the dispatcher writes, all of it and no more, the response has
room for the copy, and the client reads what the scheduler writes, all of it and no more, and has the result in `out`. -/
def PayloadTransparent (k : Kernels) (fuel : Nat) (c : Call) (s : Stamp) (rids : BitVec 8) (meanWaitTime : BitVec 32)
    (result : List UInt8) : Prop :=
  ∃ response reply, dispatcherHandleRequest k fuel { c.msg.stamp s with rids } = done response ∧
    writeMsg response = done response.toBytes ∧
    (∀ dispatcher : Link, dispatcher.serve = dispatcherServe k fuel → ∀ reads,
      runJobExchange dispatcher rids (reads + 1) (c.msg.stamp s) = done (response.toBytes, []) ∧
      schedulerHandleRequest (runJobExchange dispatcher rids (reads + 1)) meanWaitTime (c.msg.stamp s) =
        done (some reply)) ∧
    writeMsg reply = done reply.toBytes ∧
    ∀ cs out, cs.flatten = reply.toBytes → out.length = c.outBytes → getResult out c.sizeBytes cs = done (result, [])

/-- **The payload is transparent**, for every call and every result of the dispatcher's kernel. -/
theorem payload_transparent (c : Call) (s : Stamp) (rids : BitVec 8) (meanWaitTime : BitVec 32) (k : Kernels)
    (fuel : Nat) (result : List UInt8) (h : kernelResult k fuel { c.msg.stamp s with rids } = done result) :
    PayloadTransparent k fuel c s rids meanWaitTime result := by
  obtain ⟨response, hrun, hans, hlen⟩ := dispatcher_answer c s rids h
  obtain ⟨reply, hreply, hans'⟩ :=
    @schedulerHandleRequest_answer _ _ (fun _ => done (response.toBytes, [])) c s hans hlen rfl meanWaitTime
  refine ⟨response, reply, hrun, writeMsg_answer hans, fun dispatcher hserve reads => ?_, writeMsg_answer hans',
    fun cs out hcs hout => ?_⟩
  · have hexchange := runJobExchange_answer hans hlen (by rw [hserve, dispatcherServe, hrun]; rfl) reads
    refine ⟨hexchange, ?_⟩
    rw [← hreply]
    unfold schedulerHandleRequest concurrentHandler
    rw [hexchange]
  · exact getResult_answer hans' (by rw [c.toNat_sizeBytes, hlen]) (by rw [hlen]; exact c.outBytes_lt) hcs
      (hout.trans hlen.symm)

/-- A client that sets its id only. -/
def Stamp.ofClient (clientId : BitVec 32) : Stamp := ⟨clientId, 0, 0, 0, 0, 0⟩

/-- Three numbers on the CPU: the one in the middle has an average. -/
theorem payload_transparent_three :
    PayloadTransparent cpuOnly 4 (.movingAverage threePoints) (.ofClient 1) 3 0 (intBytes [0, 2, 0]) :=
  payload_transparent _ _ _ _ _ _ _ (by decide +kernel)

end Hydrogen
