import Hydrogen.Executor.Hop

/-!
# What the executor remembers

`avg_wt` is all that `Executor::handle_request` keeps from one request to the next: the waiting time in the reply to the
last moving average, which is added to the time the models predict for the shared devices. Schedulers report a waiting
time. Dispatchers do not know of any; so after a call on the CPU the executor takes the devices to be free, whatever the
scheduler has last said (`session_choices`). When the devices are faster but busy, the calls go to them and to the CPU
in turn (`session_alternates`).
-/

namespace Hydrogen

open Exec

/-! ## Sessions -/

namespace Executor

/-- Requests that are handled one after the other, each with the servers as they are then. -/
def handleAll (reads : Nat) : Executor → List (Network × Msg) → Exec (List Handled)
  | _, [] => pure []
  | e, (net, request) :: rest => do
    let h ← e.handleRequest net reads request
    let hs ← handleAll reads h.executor rest
    pure (h :: hs)

/-- Where the requests went, by the executor that each of them found. -/
def routes (e : Executor) (hs : List Handled) (requests : List (Network × Msg)) : List (Option (Nat × String)) :=
  List.zipWith (fun e r => (e.route r.2).map fun d => (d.port, d.url)) (e :: hs.map Handled.executor) requests

/-- A call, and the servers as it finds them: a dispatcher for the CPU, and a scheduler in front of one that reports
`wait`. Both reply. -/
structure Occasion (clientId : String) (schedulerPort : Nat) (hostname : String) where
  net : Network
  call : MovingAvg
  stamp : Stamp
  wait : BitVec 32
  own : stamp.clientId = atoi clientId
  cpu : ∃ k fuel, (net 8122 "localhost").serve = dispatcherServe k fuel
  devices : ∃ link k fuel rids reads, link.serve = dispatcherServe k fuel ∧
    (net schedulerPort hostname).serve = schedulerHandleRequest (runJobExchange link rids reads) wait
  cpu_replies : ∀ s, ∃ reply, (net 8122 "localhost").serve (call.msg.stamp s) = done (some reply)
  devices_reply : ∀ s, ∃ reply, (net schedulerPort hostname).serve (call.msg.stamp s) = done (some reply)

/-- The request. -/
def Occasion.request {clientId : String} {schedulerPort : Nat} {hostname : String}
    (o : Occasion clientId schedulerPort hostname) : Network × Msg := (o.net, o.call.msg.stamp o.stamp)

end Executor

/-! ## The choice between two models -/

/-- The task has a model of the shared devices, and then one of the CPU. -/
structure Task.TwoModels (t : Task) (dfe cpu : PerfModel ℚ) : Prop where
  name : t.name = "MOVING_AVERAGE"
  models : t.performanceModels = [some dfe, some cpu]
  dfe : dfe.imp.type = "SHARED_DFE"
  cpu : cpu.imp.type = "CPU"

/-- The devices are no slower than the CPU, waiting included. -/
def devicesFirst (dfe cpu : PerfModel ℚ) (dataSize wt : BitVec 64) : Bool :=
  decide (dfe.value dataSize.toNat + wt.toNat ≤ cpu.value dataSize.toNat)

/-- The choices of an executor that remembers the waiting time of the last reply: true for the devices. -/
def choices (dfe cpu : PerfModel ℚ) : BitVec 64 → List (BitVec 64 × BitVec 32) → List Bool
  | _, [] => []
  | wt, (dataSize, wait) :: rest =>
    let d := devicesFirst dfe cpu dataSize wt
    d :: choices dfe cpu (if d then wait.signExtend 64 else 0) rest

section Choices

variable {dfe cpu : PerfModel ℚ}

theorem choices_cons (wt : BitVec 64) (l : BitVec 64 × BitVec 32) (loads : List (BitVec 64 × BitVec 32)) :
    choices dfe cpu wt (l :: loads) = devicesFirst dfe cpu l.1 wt ::
      choices dfe cpu (if devicesFirst dfe cpu l.1 wt then l.2.signExtend 64 else 0) loads := rfl

/-- Calls for which the devices are faster when they are free, and slower than the CPU after any of the waiting times. -/
def Busy (dfe cpu : PerfModel ℚ) (loads : List (BitVec 64 × BitVec 32)) : Prop :=
  ∀ l ∈ loads, devicesFirst dfe cpu l.1 0 = true ∧ ∀ l' ∈ loads, devicesFirst dfe cpu l.1 (l'.2.signExtend 64) = false

/-- Every other one goes to the devices. -/
theorem choices_busy : ∀ {loads : List (BitVec 64 × BitVec 32)}, Busy dfe cpu loads →
    choices dfe cpu 0 loads = (List.range loads.length).map fun k => decide (k % 2 = 0)
  | [], _ => rfl
  | [l], h => by
    rw [choices_cons, (h l List.mem_cons_self).1]
    rfl
  | l :: l' :: loads, h => by
    have hrest : Busy dfe cpu loads := fun x hx =>
      ⟨(h x (by simp [hx])).1, fun y hy => (h x (by simp [hx])).2 y (by simp [hy])⟩
    have hfirst := (h l (by simp)).1
    have hsecond := (h l' (by simp)).2 l (by simp)
    rw [choices_cons, hfirst, if_pos rfl, choices_cons, hsecond, if_neg (by decide), choices_busy hrest,
      List.length_cons, List.length_cons, List.range_succ_eq_map, List.range_succ_eq_map, List.map_cons, List.map_cons,
      List.map_cons, List.map_map, List.map_map]
    refine congrArg (true :: false :: ·) (List.map_congr_left fun k _ => ?_)
    show decide (k % 2 = 0) = decide ((k + 1 + 1) % 2 = 0)
    rw [decide_eq_decide]
    omega

end Choices

namespace Task.TwoModels

variable {t : Task} {dfe cpu : PerfModel ℚ}

theorem cost_dfe (h : t.TwoModels dfe cpu) (dataSize wt : BitVec 64) :
    cost dataSize wt dfe = dfe.value dataSize.toNat + wt.toNat := by
  rw [cost, if_pos h.dfe]

theorem cost_cpu (h : t.TwoModels dfe cpu) (dataSize wt : BitVec 64) :
    cost dataSize wt cpu = cpu.value dataSize.toNat := by
  rw [cost, if_neg (by rw [h.cpu]; decide)]

/-- The devices are selected if they are no slower. -/
theorem select (h : t.TwoModels dfe cpu) (dataSize wt : BitVec 64) :
    t.selectImplementation dataSize wt =
      some (if devicesFirst dfe cpu dataSize wt then dfe.imp else cpu.imp, cpu.value dataSize.toNat) := by
  have hlast : (live t.performanceModels).getLast? = some cpu := by
    rw [h.models]
    rfl
  unfold devicesFirst
  rw [← h.cost_dfe, ← h.cost_cpu dataSize wt]
  split
  · rename_i hle
    have hfirst : FirstCheapest dataSize wt t.performanceModels [] dfe [some cpu] := by
      refine ⟨h.models, fun q hq => absurd hq List.not_mem_nil, fun q hq => ?_⟩
      cases List.mem_singleton.mp hq
      exact of_decide_eq_true hle
    rw [selectImplementation_eq t hfirst hlast, h.models]
    rfl
  · rename_i hlt
    have hfirst : FirstCheapest dataSize wt t.performanceModels [some dfe] cpu [] := by
      refine ⟨h.models, fun q hq => ?_, fun q hq => absurd hq List.not_mem_nil⟩
      cases List.mem_singleton.mp hq
      exact not_le.mp fun hle => hlt (decide_eq_true hle)
    rw [selectImplementation_eq t hfirst hlast, h.models]
    rfl

end Task.TwoModels

/-! ## One call -/

/-- A dispatcher reports no waiting time. -/
theorem dispatcherServe_avgWt {k : Kernels} {fuel : Nat} {r : MovingAvg} {s : Stamp} {reply : Msg}
    (h : dispatcherServe k fuel (r.msg.stamp s) = done (some reply)) : reply.avgWt = 0 := by
  obtain ⟨response, hrun, hsome⟩ := bind_eq_done.mp h
  cases hsome
  obtain ⟨u, -, hrun⟩ := bind_eq_done.mp (hrun : unpack (r.msg.stamp s) >>= _ = _)
  obtain ⟨out, -, hrun⟩ := bind_eq_done.mp hrun
  cases hrun
  rfl

/-- A scheduler reports its mean. -/
theorem schedulerHandleRequest_avgWt {job : Msg → Exec (List UInt8 × List Chunk)} {wait : BitVec 32} {r : MovingAvg}
    {s : Stamp} {reply : Msg} (h : schedulerHandleRequest job wait (r.msg.stamp s) = done (some reply)) :
    reply.avgWt = wait := by
  obtain ⟨response, -, hsome⟩ := bind_eq_done.mp (h : concurrentHandler job _ _ >>= _ = _)
  cases hsome
  rfl

namespace Executor

/-- A moving average that a server replies to leaves the waiting time that the server reports. -/
theorem handleRequest_server {e : Executor} {net : Network} {r : MovingAvg} {s : Stamp} {d : Route} {port : Nat}
    {url : String} {wait : BitVec 32} (hid : s.clientId = atoi e.cid) (hroute : e.route (r.msg.stamp s) = some d)
    (hserver : (d.port, d.url) = (port, url)) (hserves : Serves (net port url).serve)
    (hreplies : ∀ s, ∃ reply, (net port url).serve (r.msg.stamp s) = done (some reply))
    (hwait : ∀ s reply, (net port url).serve (r.msg.stamp s) = done (some reply) → reply.avgWt = wait) (reads : Nat) :
    ∃ h, e.handleRequest net (reads + 1) (r.msg.stamp s) = done h ∧
      h.executor = { e with avgWt := wait.signExtend 64 } := by
  obtain ⟨rfl, rfl⟩ := Prod.mk.inj hserver
  obtain ⟨s', hs'⟩ := @route_stamp e s (.movingAverage r) d hroute
  obtain ⟨reply, hreply⟩ := hreplies s'
  obtain ⟨result, hans, hlen⟩ := hserves.answer (.movingAverage r) s' hreply
  have htotal : d.request.totalBytes.toNat = sizeofMsg + d.request.data.length := by
    rw [hs']
    exact r.toNat_totalBytes
  have hsize : (dispatchSize r.msg).toNat = sizeofMsg + result.length := by
    rw [toNat_dispatchSize, hlen, Call.outBytes]
  obtain ⟨cs, hsend, hcs⟩ := send_answer hans htotal (hs' ▸ hreply)
  have hread : readResult (dispatchSize (r.msg.stamp s)) (reads + 1) cs = done (reply.toBytes, []) :=
    readResult_answer hans hsize hcs reads
  refine ⟨_, handleRequest_movingAvg hid rfl hroute hsend hread, ?_⟩
  rw [Msg.ofBytes_toBytes, hwait s' reply hreply]

section Session

variable {clientId : String} {schedulerPort : Nat} {hostname : String} {t : Task} {dfe cpu : PerfModel ℚ}

/-- The executor of `main`, with the waiting time it remembers. -/
def waiting (clientId : String) (schedulerPort : Nat) (hostname : String) (t : Task) (wt : BitVec 64) : Executor :=
  { main clientId schedulerPort hostname t with avgWt := wt }

/-- The server of a choice. -/
def server (schedulerPort : Nat) (hostname : String) (d : Bool) : Nat × String :=
  if d then (schedulerPort, hostname) else (8122, "localhost")

/-- A moving average goes to the server of the choice. -/
theorem route_choice (h : t.TwoModels dfe cpu) (wt : BitVec 64) (r : MovingAvg) (s : Stamp) :
    ∃ d, (waiting clientId schedulerPort hostname t wt).route (r.msg.stamp s) = some d ∧
      (d.port, d.url) = server schedulerPort hostname (devicesFirst dfe cpu r.msg.dataSize wt) := by
  have htask : (waiting clientId schedulerPort hostname t wt).findTask "MOVING_AVERAGE" = some t := by
    simp [findTask, waiting, main, h.name]
  have hselect : t.selectImplementation (r.msg.stamp s).dataSize
      (waiting clientId schedulerPort hostname t wt).avgWt = _ := h.select r.msg.dataSize wt
  unfold route
  rw [if_pos (.inr rfl), htask, Option.bind_eq_bind, Option.bind_some, hselect, Option.bind_eq_bind, Option.bind_some]
  dsimp only
  cases devicesFirst dfe cpu r.msg.dataSize wt with
  | true =>
    rw [if_pos rfl, h.dfe]
    exact ⟨_, rfl, rfl⟩
  | false =>
    rw [if_neg (by decide), h.cpu]
    exact ⟨_, rfl, rfl⟩

/-- **One call**: it is handled, where the models and the remembered waiting time say, and leaves the waiting time of the
scheduler, or none. -/
theorem Occasion.handled (h : t.TwoModels dfe cpu) (o : Occasion clientId schedulerPort hostname) (wt : BitVec 64)
    (reads : Nat) :
    ∃ hd, (waiting clientId schedulerPort hostname t wt).handleRequest o.net (reads + 1) (o.call.msg.stamp o.stamp) =
        done hd ∧
      hd.executor = waiting clientId schedulerPort hostname t
        (if devicesFirst dfe cpu o.call.msg.dataSize wt then o.wait.signExtend 64 else 0) := by
  obtain ⟨d, hroute, hserver⟩ := @route_choice clientId schedulerPort hostname t dfe cpu h wt o.call o.stamp
  cases hd : devicesFirst dfe cpu o.call.msg.dataSize wt with
  | true =>
    rw [hd] at hserver
    obtain ⟨link, k, fuel, rids, reads', hlink, hserve⟩ := o.devices
    refine handleRequest_server o.own hroute hserver ?_ o.devices_reply (fun s reply hreply => ?_) reads
    · rw [hserve]
      exact .scheduler link k fuel hlink rids reads' o.wait
    · rw [hserve] at hreply
      exact schedulerHandleRequest_avgWt hreply
  | false =>
    rw [hd] at hserver
    obtain ⟨k, fuel, hserve⟩ := o.cpu
    have hnone : ∀ s reply, (o.net 8122 "localhost").serve (o.call.msg.stamp s) = done (some reply) →
        reply.avgWt = 0 := by
      intro s reply hreply
      rw [hserve] at hreply
      exact dispatcherServe_avgWt hreply
    refine handleRequest_server o.own hroute hserver ?_ o.cpu_replies hnone reads
    rw [hserve]
    exact .dispatcher k fuel

/-! ## All calls -/

/-- What a call is chosen by: its size, and what the scheduler reports. -/
def Occasion.load (o : Occasion clientId schedulerPort hostname) : BitVec 64 × BitVec 32 := (o.call.msg.dataSize, o.wait)

/-- A session from any waiting time. -/
theorem handleAll_choices (h : t.TwoModels dfe cpu) (reads : Nat) :
    ∀ (calls : List (Occasion clientId schedulerPort hostname)) (wt : BitVec 64),
      ∃ hs, (waiting clientId schedulerPort hostname t wt).handleAll (reads + 1) (calls.map Occasion.request) = done hs ∧
        (waiting clientId schedulerPort hostname t wt).routes hs (calls.map Occasion.request) =
          (choices dfe cpu wt (calls.map Occasion.load)).map fun d => some (server schedulerPort hostname d)
  | [], wt => ⟨[], rfl, rfl⟩
  | o :: calls, wt => by
    obtain ⟨hd, hrun, he⟩ := o.handled h wt reads
    obtain ⟨hs, hruns, hroutes⟩ := handleAll_choices h reads calls
      (if devicesFirst dfe cpu o.call.msg.dataSize wt then o.wait.signExtend 64 else 0)
    obtain ⟨d, hroute, hserver⟩ := @route_choice clientId schedulerPort hostname t dfe cpu h wt o.call o.stamp
    rw [← he] at hruns hroutes
    refine ⟨hd :: hs, ?_, ?_⟩
    · rw [List.map_cons, handleAll, Occasion.request]
      dsimp only
      rw [hrun, done_bind, hruns, done_bind]
      rfl
    · rw [List.map_cons, List.map_cons, choices, Occasion.load]
      dsimp only
      rw [List.map_cons, ← hroutes, ← hserver]
      unfold routes
      rw [List.map_cons, List.zipWith_cons_cons, Occasion.request]
      dsimp only
      rw [hroute]
      rfl

/-- **The executor remembers the last call only**: every session of moving averages is handled, and the calls go where
the models say for the waiting time that the scheduler reported to the call before, or for none if that call went to the
CPU. -/
theorem session_choices (h : t.TwoModels dfe cpu) (calls : List (Occasion clientId schedulerPort hostname))
    (reads : Nat) :
    ∃ hs, (main clientId schedulerPort hostname t).handleAll (reads + 1) (calls.map Occasion.request) = done hs ∧
      (main clientId schedulerPort hostname t).routes hs (calls.map Occasion.request) =
        (choices dfe cpu 0 (calls.map Occasion.load)).map fun d => some (server schedulerPort hostname d) :=
  handleAll_choices h reads calls 0

/-- **The executor goes back and forth**: when the devices are faster than the CPU but busy, the calls of a session go to
the devices and to the CPU in turn. -/
theorem session_alternates (h : t.TwoModels dfe cpu) (calls : List (Occasion clientId schedulerPort hostname))
    (hbusy : Busy dfe cpu (calls.map Occasion.load)) (reads : Nat) :
    ∃ hs, (main clientId schedulerPort hostname t).handleAll (reads + 1) (calls.map Occasion.request) = done hs ∧
      (main clientId schedulerPort hostname t).routes hs (calls.map Occasion.request) =
        (List.range calls.length).map fun k => some (server schedulerPort hostname (decide (k % 2 = 0))) := by
  obtain ⟨hs, hrun, hroutes⟩ := @handleAll_choices clientId schedulerPort hostname t dfe cpu h reads calls 0
  rw [choices_busy hbusy, List.length_map, List.map_map] at hroutes
  exact ⟨hs, hrun, hroutes⟩

end Session

/-! ## A busy device -/

/-- A dispatcher without devices averages three numbers, whatever the fields that a client or a scheduler sets. -/
theorem cpuOnly_replies {m : Msg} (hid : m.msgId = MSG_MOVING_AVG) (hsize : m.dataSize = threePoints.msg.dataSize)
    (hdata : m.data = threePoints.msg.data) :
    dispatcherHandleRequest cpuOnly 4 m = done (movingAvgResponse cpuOnly m [0, 2, 0]) := by
  have hunpack := unpack_eq (by rw [hdata]; decide) (by rw [hsize, hdata]; exact threePoints.firstByte)
  have hkernel : movingAverageCpu 4 threePoints.msg.dataSize
      (((UInt8.ofNat threePoints.width.toNat).toBitVec.signExtend 32).signExtend 64)
      (intsAt threePoints.msg.dataSize.toNat threePoints.msg.data) (callocInts threePoints.msg.dataSize) =
      done [0, 2, 0] := by decide +kernel
  unfold dispatcherHandleRequest
  rw [if_pos hid, hunpack, done_bind, movingAverage, if_neg (by simp [cpuOnly]), hsize, hdata, hkernel, done_bind]
  rfl

/-- A connection that delivers at once. -/
def atOnce (serve : Msg → Exec (Option Msg)) : Link := ⟨serve, fun bs => [bs], fun _ => List.flatten_singleton⟩

/-- A dispatcher on port 8122, and elsewhere a scheduler in front of one that reports a wait of 100 ms. -/
def busyNetwork : Network := fun port _ =>
  if port = 8122 then atOnce (dispatcherServe cpuOnly 4)
  else atOnce (schedulerHandleRequest (runJobExchange (atOnce (dispatcherServe cpuOnly 4)) 1 1) 100)

theorem busyNetwork_replies (s : Stamp) :
    ∃ reply, (busyNetwork 8111 "localhost").serve (threePoints.msg.stamp s) = done (some reply) := by
  obtain ⟨result, hans, hlen⟩ := dispatcher_replied (.movingAverage threePoints) s 1 (cpuOnly_replies rfl rfl rfl)
  have hjob : runJobExchange (atOnce (dispatcherServe cpuOnly 4)) 1 1 (threePoints.msg.stamp s) = _ :=
    @runJobExchange_answer _ _ (atOnce (dispatcherServe cpuOnly 4)) (.movingAverage threePoints) s 1 hans hlen
      (bind_eq_done.mpr ⟨_, cpuOnly_replies rfl rfl rfl, rfl⟩) 0
  obtain ⟨reply, hreply, -⟩ := @schedulerHandleRequest_answer _ _ _ (.movingAverage threePoints) s hans hlen hjob 100
  exact ⟨reply, hreply⟩

/-- Three numbers to average, with that network. -/
def busyCall : Occasion "1" 8111 "localhost" where
  net := busyNetwork
  call := threePoints
  stamp := .ofClient 1
  wait := 100
  own := by decide +kernel
  cpu := ⟨cpuOnly, 4, rfl⟩
  devices := ⟨atOnce (dispatcherServe cpuOnly 4), cpuOnly, 4, 1, 1, rfl, rfl⟩
  cpu_replies := fun _ => ⟨_, bind_eq_done.mpr ⟨_, cpuOnly_replies rfl rfl rfl, rfl⟩⟩
  devices_reply := busyNetwork_replies

theorem twoModels_mav (dfe cpu : ℚ) :
    (Task.mavTask dfe cpu).TwoModels (Task.mavModel Task.mavDfe dfe 0) (Task.mavModel Task.mavCpu cpu 0) :=
  ⟨rfl, rfl, rfl, rfl⟩

theorem session_choices_three : ∃ hs,
    (main "1" 8111 "localhost" (Task.mavTask 1 5)).handleAll 1 ((List.replicate 3 busyCall).map Occasion.request) =
      done hs ∧
    (main "1" 8111 "localhost" (Task.mavTask 1 5)).routes hs ((List.replicate 3 busyCall).map Occasion.request) =
      (choices (Task.mavModel Task.mavDfe 1 0) (Task.mavModel Task.mavCpu 5 0) 0
        ((List.replicate 3 busyCall).map Occasion.load)).map fun d => some (server 8111 "localhost" d) :=
  session_choices (twoModels_mav 1 5) _ 0

theorem session_alternates_three : ∃ hs,
    (main "1" 8111 "localhost" (Task.mavTask 1 5)).handleAll 1 ((List.replicate 3 busyCall).map Occasion.request) =
      done hs ∧
    (main "1" 8111 "localhost" (Task.mavTask 1 5)).routes hs ((List.replicate 3 busyCall).map Occasion.request) =
      [some (8111, "localhost"), some (8122, "localhost"), some (8111, "localhost")] := by
  have hbusy : Busy (Task.mavModel Task.mavDfe 1 0) (Task.mavModel Task.mavCpu 5 0)
      ((List.replicate 3 busyCall).map Occasion.load) := by
    rw [List.map_replicate]
    intro l hl
    rw [List.eq_of_mem_replicate hl]
    refine ⟨by decide +kernel, fun l' hl' => ?_⟩
    rw [List.eq_of_mem_replicate hl']
    decide +kernel
  exact session_alternates (twoModels_mav 1 5) _ hbusy 0

end Executor

end Hydrogen
