import Hydrogen.Common.Job
import Hydrogen.Executor.Task
import Hydrogen.Scheduler.Payload

/-!
# The executor

`Executor::handle_request` stands between a client and the servers. A moving average goes to the resource of the
implementation that was selected (`Resource::dispatch`), any other request to a fixed port; both wait for a reply of
`dataSize` `int`s. That is the size of the answer to a moving average. The answer to an option pricing is one `double`,
and `dataSize` is 0 there, so a call passes the executor unchanged if and only if it is a moving average
(`hop_transparent_iff`).
-/

namespace Hydrogen

open Exec

/-! ## The code -/

/-- `CPU`, the resource type. -/
def CPU : BitVec 32 := 1

/-- `msg_done`. -/
def msgDone : Msg := { msgEmpty with msgId := MSG_DONE }

/-- `atoi`; a number that is no `int` is taken modulo 2^32. -/
def atoi (s : String) : BitVec 32 :=
  let digits (cs : List Char) : BitVec 32 :=
    BitVec.ofNat 32 ((cs.takeWhile Char.isDigit).foldl (fun n c => 10 * n + (c.toNat - 48)) 0)
  match s.toList.dropWhile fun c => c = ' ' || 9 ≤ c.toNat && c.toNat ≤ 13 with
  | '-' :: cs => -digits cs
  | '+' :: cs => digits cs
  | cs => digits cs

/-- `double` to `int`: towards zero; the least `int` for what does not fit. -/
def doubleToInt (x : ℚ) : BitVec 32 :=
  let n := x.num.tdiv x.den
  if -2 ^ 31 ≤ n ∧ n < 2 ^ 31 then BitVec.ofInt 32 n else BitVec.intMin 32

/-- `int sizeBytes = sizeof(msg_t) + sizeof(int) * (m->dataSize)`, as it is passed to `read`. -/
def dispatchSize (m : Msg) : BitVec 64 :=
  ((BitVec.ofNat 64 sizeofMsg + 4 * m.dataSize).setWidth 32).signExtend 64

/-- `msg::print`: the `int`s that are read. -/
def Msg.print (m : Msg) : Exec (List (BitVec 32)) :=
  let n := (m.dataSize + m.paramsSize).toNat
  if 4 * m.dataSize.toNat ≤ m.data.length ∧ 4 * n ≤ m.data.length then done (intsAt (max m.dataSize.toNat n) m.data)
  else fault .outOfBounds

/-- The servers, by port and host. -/
abbrev Network := Nat → String → Link

/-- The request with the type of the resource. -/
def Resource.mark (r : Resource) (m : Msg) : Msg :=
  let m := if r.type = "SHARED_DFE" ∨ r.type = "DFE" then { m with resourceType := DFE } else m
  if r.type = "CPU" then { m with resourceType := CPU } else m

/-- `Resource::dispatch`: the reply, and what is left in the socket. -/
def Resource.dispatch (net : Network) (reads : Nat) (r : Resource) (m : Msg) : Exec (List UInt8 × List Chunk) := do
  let sizeBytes := dispatchSize m
  let cs ← (net r.port r.url).send (r.mark m)
  readResult sizeBytes reads cs

/-- `do { read; print } while (rsp->msgId != MSG_RESULT)`. -/
def proxyLoop (sizeBytes : BitVec 64) : Nat → List Chunk → Exec (List UInt8 × List Chunk)
  | 0, _ => outOfFuel
  | reads + 1, cs => do
    let r ← clientRead sizeBytes cs
    let _ ← (Msg.ofBytes r.1).print
    if msgIdOf r.1 = MSG_RESULT then pure r else proxyLoop sizeBytes reads r.2

/-- `Executor`. -/
structure Executor where
  availableRes : List Resource
  tasks : List Task
  avgWt : BitVec 64
  cid : String

namespace Executor

open Hydrogen.Task (mavTask)

/-- `FindTask`. -/
def findTask (e : Executor) (name : String) : Option Task := e.tasks.find? fun t => t.name = name

/-- `FindResource`. -/
def findResource (e : Executor) (type : String) : Option Resource := e.availableRes.find? fun r => r.type = type

/-- `runImp`. -/
def runImp (e : Executor) (net : Network) (reads : Nat) (imp : Implementation) (m : Msg) :
    Exec (List UInt8 × List Chunk) := do
  let r ← deref (e.findResource imp.type)
  r.dispatch net reads m

/-- What `handle_request` leaves: the executor, the buffer of the reply, and what is left in its socket. -/
structure Handled where
  executor : Executor
  rsp : Option (List UInt8)
  left : List Chunk

/-- `Executor::handle_request`. -/
def handleRequest (e : Executor) (net : Network) (reads : Nat) (request : Msg) : Exec Handled := do
  if request.clientId ≠ atoi e.cid then pure ⟨e, some msgAck.toBytes, []⟩
  else if request.msgId = MSG_CONTROL then pure ⟨e, none, []⟩
  else if request.msgId = MSG_DONE then pure ⟨e, some msgAck.toBytes, []⟩
  else if request.msgId = MSG_TERM then
    let _ ← writeMsg request
    pure ⟨e, some msgDone.toBytes, []⟩
  else if request.msgId = MSG_ACK ∨ request.msgId = MSG_MOVING_AVG then
    let t ← deref (e.findTask "MOVING_AVERAGE")
    let (imp, runtime) ← deref (t.selectImplementation request.dataSize e.avgWt)
    let (buff, left) ← e.runImp net reads imp { request with predictedTimeMillis := doubleToInt runtime }
    pure ⟨{ e with avgWt := (Msg.ofBytes buff).avgWt.signExtend 64 }, some buff, left⟩
  else
    let cs ← (net 8121 "localhost").send { request with predictedTimeMillis := 1 }
    let (buff, left) ← proxyLoop (dispatchSize request) reads cs
    pure ⟨e, some buff, left⟩

/-! ## Where a request goes -/

/-- A server and the request it is sent. -/
structure Route where
  port : Nat
  url : String
  request : Msg
  deriving DecidableEq

/-- The server a request is forwarded to. -/
def route (e : Executor) (request : Msg) : Option Route :=
  if request.msgId = MSG_ACK ∨ request.msgId = MSG_MOVING_AVG then do
    let t ← e.findTask "MOVING_AVERAGE"
    let (imp, runtime) ← t.selectImplementation request.dataSize e.avgWt
    let r ← e.findResource imp.type
    some ⟨r.port, r.url, r.mark { request with predictedTimeMillis := doubleToInt runtime }⟩
  else some ⟨8121, "localhost", { request with predictedTimeMillis := 1 }⟩

/-- The executor has the task, with models and no null pointers among them, and a resource for each implementation. -/
def Configured (e : Executor) : Prop :=
  ∃ t, e.findTask "MOVING_AVERAGE" = some t ∧ Task.live t.performanceModels ≠ [] ∧ none ∉ t.performanceModels ∧
    ∀ p, some p ∈ t.performanceModels → ∃ r, e.findResource p.imp.type = some r

/-- The reply to a call passes the executor: it reads as many bytes as the reply says it has and leaves none, they are
all in the buffer that it forwards, and the client has the data in `out`. -/
def Transparent (e : Executor) (net : Network) (c : Call) (s : Stamp) (reply : Msg) : Prop :=
  ∀ reads, ∃ e' buff bs, e.handleRequest net (reads + 1) (c.msg.stamp s) = done ⟨e', some buff, []⟩ ∧
    buff.length = reply.totalBytes.toNat ∧ writeMsg (Msg.ofBytes buff) = done bs ∧
    ∀ cs out, cs.flatten = bs → out.length = c.outBytes → getResult out c.sizeBytes cs = done (reply.data, [])

variable {e : Executor} {net : Network} {s : Stamp} {reads : Nat}

/-- A mark changes a field that a client sets. -/
theorem mark_stamp (r : Resource) (m : Msg) (s : Stamp) : ∃ s', r.mark (m.stamp s) = m.stamp s' := by
  unfold Resource.mark
  dsimp only
  split
  · refine ⟨{ s with resourceType := CPU }, ?_⟩
    split
    · rfl
    · rfl
  · split
    · exact ⟨{ s with resourceType := DFE }, rfl⟩
    · exact ⟨s, rfl⟩

/-- **A call is forwarded as it is**, but for fields that a client sets. -/
theorem route_stamp {c : Call} {d : Route} (h : e.route (c.msg.stamp s) = some d) :
    ∃ s', d.request = c.msg.stamp s' := by
  unfold route at h
  split at h
  · obtain ⟨t, -, h⟩ := Option.bind_eq_some_iff.mp h
    obtain ⟨⟨imp, runtime⟩, -, h⟩ := Option.bind_eq_some_iff.mp h
    obtain ⟨r, -, h⟩ := Option.bind_eq_some_iff.mp h
    cases h
    exact mark_stamp r c.msg { s with predictedTimeMillis := doubleToInt runtime }
  · cases h
    exact ⟨{ s with predictedTimeMillis := 1 }, rfl⟩

theorem exists_route (he : e.Configured) (request : Msg) : ∃ d, e.route request = some d := by
  obtain ⟨t, htask, hne, hnull, hres⟩ := he
  obtain ⟨p, runtime, hp, hsel⟩ := Task.selectImplementation_noNull t hne hnull request.dataSize e.avgWt
  obtain ⟨r, hr⟩ := hres p hp
  unfold route
  split
  · rw [htask, Option.bind_eq_bind, Option.bind_some, hsel, Option.bind_eq_bind, Option.bind_some]
    dsimp only
    rw [hr]
    exact ⟨_, rfl⟩
  · exact ⟨_, rfl⟩

/-! ## The two ways -/

/-- A moving average is read from the server it is forwarded to. -/
theorem handleRequest_movingAvg {request : Msg} {d : Route} (hid : request.clientId = atoi e.cid)
    (hmsg : request.msgId = MSG_MOVING_AVG) (h : e.route request = some d) {cs : List Chunk}
    (hsend : (net d.port d.url).send d.request = done cs) {buff : List UInt8} {left : List Chunk}
    (hread : readResult (dispatchSize request) reads cs = done (buff, left)) :
    e.handleRequest net reads request =
      done ⟨{ e with avgWt := (Msg.ofBytes buff).avgWt.signExtend 64 }, some buff, left⟩ := by
  unfold route at h
  rw [if_pos (.inr hmsg)] at h
  obtain ⟨t, ht, h⟩ := Option.bind_eq_some_iff.mp h
  obtain ⟨⟨imp, runtime⟩, hsel, h⟩ := Option.bind_eq_some_iff.mp h
  obtain ⟨r, hr, h⟩ := Option.bind_eq_some_iff.mp h
  cases h
  have hdispatch : e.runImp net reads imp { request with predictedTimeMillis := doubleToInt runtime } =
      done (buff, left) := by
    rw [runImp, hr, deref, done_bind, Resource.dispatch, hsend, done_bind]
    exact hread
  have hne {id : BitVec 32} (h : MSG_MOVING_AVG ≠ id) : ¬request.msgId = id := fun heq => h (hmsg.symm.trans heq)
  unfold handleRequest
  rw [if_neg (not_not.mpr hid), if_neg (hne (by decide)), if_neg (hne (by decide)), if_neg (hne (by decide)),
    if_pos (.inr hmsg), ht, deref, done_bind, hsel, deref, done_bind]
  dsimp only
  rw [hdispatch, done_bind]
  rfl

/-- A moving average asks for as many bytes as its answer has. -/
theorem toNat_dispatchSize (r : MovingAvg) : (dispatchSize r.msg).toNat = sizeofMsg + 4 * r.dataIn.length := by
  have hfits := r.fits
  have hsize := r.toNat_dataSize
  have hbytes : (4 * r.msg.dataSize).toNat = 4 * r.dataIn.length := by rw [toNat_nBytes (by omega), hsize]
  rw [dispatchSize, toInt_sizeofMsg_add (by omega), hbytes]

/-- **A moving average passes the executor.** -/
theorem movingAvg_transparent {r : MovingAvg} {reply : Msg} {result : List UInt8} (hid : s.clientId = atoi e.cid)
    {d : Route} (hroute : e.route (r.msg.stamp s) = some d) (hans : Answer result reply)
    (hlen : result.length = (Call.movingAverage r).outBytes)
    (hreply : (net d.port d.url).serve d.request = done (some reply)) :
    e.Transparent net (.movingAverage r) s reply := by
  obtain ⟨s', hs'⟩ := @route_stamp e s (.movingAverage r) d hroute
  have htotal : d.request.totalBytes.toNat = sizeofMsg + d.request.data.length := by
    rw [hs']
    exact r.toNat_totalBytes
  have hsize : (dispatchSize r.msg).toNat = sizeofMsg + result.length := by rw [toNat_dispatchSize, hlen, Call.outBytes]
  obtain ⟨cs, hsend, hcs⟩ := send_answer hans htotal hreply
  intro reads
  have hread : readResult (dispatchSize (r.msg.stamp s)) (reads + 1) cs = done (reply.toBytes, []) :=
    readResult_answer hans hsize hcs reads
  refine ⟨_, reply.toBytes, reply.toBytes, handleRequest_movingAvg hid rfl hroute hsend hread, ?_, ?_, ?_⟩
  · rw [length_answer hans, hans.totalBytes]
  · rw [Msg.ofBytes_toBytes]
    exact writeMsg_answer hans
  · intro cs out hflat hout
    rw [hans.data]
    exact getResult_answer hans (by rw [Call.toNat_sizeBytes, hlen]) (by rw [hlen]; exact Call.outBytes_lt _) hflat
      (hout.trans hlen.symm)

/-- The buffer of the proxy has the size it asks for. -/
theorem length_proxyLoop {sizeBytes : BitVec 64} : ∀ {reads : Nat} {cs : List Chunk} {r : List UInt8 × List Chunk},
    proxyLoop sizeBytes reads cs = done r → r.1.length = sizeBytes.toNat
  | 0, _, _, h => by cases h
  | reads + 1, cs, r, h => by
    obtain ⟨r', hread, h⟩ := bind_eq_done.mp h
    obtain ⟨_, -, h⟩ := bind_eq_done.mp h
    split at h
    · cases h
      exact length_clientRead hread
    · exact length_proxyLoop h

/-- **An option pricing is answered with a bare header**, whatever the reply. -/
theorem optionPricing_header {r : OptionPricing} (hid : s.clientId = atoi e.cid) {e' : Executor} {buff : List UInt8}
    {left : List Chunk} (h : e.handleRequest net reads (r.msg.stamp s) = done ⟨e', some buff, left⟩) :
    buff.length = sizeofMsg := by
  have hclient : ¬(r.msg.stamp s).clientId ≠ atoi e.cid := not_not.mpr hid
  unfold handleRequest at h
  rw [if_neg hclient] at h
  obtain ⟨cs, -, h⟩ := bind_eq_done.mp (h : (net 8121 "localhost").send _ >>= _ = _)
  obtain ⟨r', hloop, h⟩ := bind_eq_done.mp h
  cases h
  exact length_proxyLoop hloop

/-- **A call passes the executor** if and only if it is a moving average, whatever the server replies. -/
theorem hop_transparent_iff (e : Executor) (he : e.Configured) (net : Network) (c : Call) (s : Stamp)
    (hid : s.clientId = atoi e.cid) :
    ∃ d, e.route (c.msg.stamp s) = some d ∧ ∀ reply, Serves (net d.port d.url).serve →
      (net d.port d.url).serve d.request = done (some reply) →
      (e.Transparent net c s reply ↔ ∃ r, c = .movingAverage r) := by
  obtain ⟨d, hroute⟩ := exists_route he (c.msg.stamp s)
  refine ⟨d, hroute, fun reply hserves hreply => ?_⟩
  obtain ⟨s', hs'⟩ := route_stamp hroute
  obtain ⟨result, hans, hlen⟩ := hserves.answer c s' (hs' ▸ hreply)
  cases c with
  | movingAverage r => exact iff_of_true (movingAvg_transparent hid hroute hans hlen hreply) ⟨r, rfl⟩
  | optionPricing r =>
    refine iff_of_false (fun h => ?_) (by rintro ⟨r', h⟩; cases h)
    -- the buffer has no room for the `double` of the reply
    obtain ⟨e', buff, bs, hrun, hbuff, -⟩ := h 0
    rw [optionPricing_header hid hrun, hans.totalBytes, hlen] at hbuff
    cases hbuff

/-- The executor of `main`: the scheduler of the command line for the shared devices, and a CPU. -/
def main (clientId : String) (schedulerPort : Nat) (hostname : String) (t : Task) : Executor where
  availableRes := [⟨1, schedulerPort, hostname, "SHARED_DFE"⟩, ⟨2, 8122, "localhost", "CPU"⟩]
  tasks := [t]
  avgWt := 0
  cid := clientId

theorem configured_main (clientId : String) (schedulerPort : Nat) (hostname : String) (dfe cpu : ℚ) :
    (main clientId schedulerPort hostname (mavTask dfe cpu)).Configured := by
  refine ⟨mavTask dfe cpu, rfl, by simp [Task.live, mavTask], by simp [mavTask], fun p hp => ?_⟩
  simp only [mavTask, List.mem_cons, Option.some.injEq, List.not_mem_nil, or_false] at hp
  rcases hp with rfl | rfl
  · exact ⟨_, rfl⟩
  · exact ⟨_, rfl⟩

/-- A dispatcher with a CPU on every port, over a network that delivers at once. -/
def cpuNetwork : Network := fun _ _ => ⟨dispatcherServe cpuOnly 4, fun bs => [bs], fun _ => List.flatten_singleton⟩

theorem hop_transparent_three : ∃ d reply,
    (main "1" 8111 "localhost" (mavTask 5 1)).route (threePoints.msg.stamp (.ofClient 1)) = some d ∧
    (cpuNetwork d.port d.url).serve d.request = done (some reply) ∧
    (main "1" 8111 "localhost" (mavTask 5 1)).Transparent cpuNetwork
      (.movingAverage threePoints) (.ofClient 1) reply := by
  obtain ⟨d, hroute, h⟩ := hop_transparent_iff (main "1" 8111 "localhost" (mavTask 5 1)) (configured_main ..) cpuNetwork
    (.movingAverage threePoints) (.ofClient 1) (by decide +kernel)
  have hd : d = ⟨8122, "localhost", threePoints.msg.stamp ⟨1, 0, 0, 1, 1, 0⟩⟩ :=
    Option.some.inj (hroute.symm.trans (by decide +kernel))
  have hreply : dispatcherServe cpuOnly 4 (threePoints.msg.stamp ⟨1, 0, 0, 1, 1, 0⟩) =
      done (some (movingAvgResponse cpuOnly threePoints.msg [0, 2, 0])) := by
    decide +kernel
  subst hd
  exact ⟨_, _, hroute, hreply, (h _ (.dispatcher cpuOnly 4) hreply).mpr ⟨threePoints, rfl⟩⟩

/-- An option pricing does not pass. -/
theorem hop_not_transparent : ¬∀ (e : Executor), e.Configured → ∀ (net : Network) (c : Call) (s : Stamp),
    s.clientId = atoi e.cid → ∀ d, e.route (c.msg.stamp s) = some d → Serves (net d.port d.url).serve →
    ∀ reply, (net d.port d.url).serve d.request = done (some reply) → e.Transparent net c s reply := by
  intro h
  have hid : (Stamp.ofClient 1).clientId = atoi "1" := by decide +kernel
  have htrans := h (main "1" 8111 "localhost" (mavTask 5 1)) (configured_main ..) cpuNetwork
    (.optionPricing ⟨0, 0, 0, 0, 0, 0, 0⟩) (.ofClient 1) hid _ rfl (.dispatcher cpuOnly 4) (optionPriceResponse 0)
    (by decide +kernel)
  obtain ⟨e', buff, bs, hrun, hbuff, -⟩ := htrans 0
  rw [optionPricing_header hid hrun] at hbuff
  exact absurd hbuff (by decide)

end Executor

end Hydrogen
