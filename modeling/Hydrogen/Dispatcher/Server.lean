import Hydrogen.Net.Client
import Hydrogen.Dispatcher.MovingAverage

/-!
# The dispatcher

`DispatcherServer::handle_request`: it unpacks a request, runs a kernel and packs the result. The kernels on the
devices are not part of the source; they are a parameter, as is the time they take.

The width of a moving average is written as a `size_t` and read as one signed `char`, so a request is read as it was
meant if and only if its width is below 128 (`movingAvg_roundtrip_iff`), and the CPU kernel is safe if and only if the
`char` is between 1 and the number of elements (`movingAvg_safe_iff`). The seven arguments of an option price are read
back as they were written (`optionPricing_roundtrip`). What a kernel returns is answered with the sizes the
request asked for (`dispatcher_answer`).
-/

namespace Hydrogen

open Exec

/-- `DFE`, the resource type. -/
def DFE : BitVec 32 := 0

/-- What the dispatcher is linked with. -/
structure Kernels where
  /-- whether the device implementations are there -/
  useDfe : Bool
  /-- `MovingAverageDFE`: size, number of elements, data and the devices -/
  movingAverageDfe : BitVec 32 → BitVec 32 → List (BitVec 32) → List Nat → List (BitVec 32)
  /-- it fills an array of so many elements -/
  length_movingAverageDfe : ∀ size n data ids, (movingAverageDfe size n data ids).length = data.length
  /-- `optionPricing`, with the number of devices; the bits of a `double` -/
  optionPricing : BitVec 64 → BitVec 64 → BitVec 64 → BitVec 32 → BitVec 32 → BitVec 32 → BitVec 64 → Nat → BitVec 64
  /-- the milliseconds a kernel took -/
  millis : BitVec 32

/-! ## Moving averages -/

/-- What `handle_request` unpacks. -/
structure Unpacked where
  n : BitVec 64
  dataIn : List (BitVec 32)
  firstParam : BitVec 32

/-- The unpacking: `n`, a copy of `nBytes` bytes of the data, and the first parameter. -/
def unpack (request : Msg) : Exec Unpacked :=
  let n := request.dataSize
  let nBytes := 4 * n
  if nBytes.toNat ≤ request.data.length then
    match request.firstParam with
    | none => fault .outOfBounds
    | some p => pure ⟨n, intsAt (nBytes.toNat / 4) request.data, p⟩
  else fault .outOfBounds

/-- `calloc(n, sizeof(int))`, which fails when the product overflows. -/
def callocInts (n : BitVec 64) : List (BitVec 32) := if 4 * n.toNat < 2 ^ 64 then List.replicate n.toNat 0 else []

/-- The kernel that is run. -/
def movingAverage (k : Kernels) (fuel : Nat) (request : Msg) (u : Unpacked) : Exec (List (BitVec 32)) :=
  if request.resourceType = DFE ∧ k.useDfe = true then
    let ids := if (dfeIds request).length ≠ 0 then dfeIds request else [1, 2]
    pure (k.movingAverageDfe u.firstParam (u.n.setWidth 32) u.dataIn ids)
  else movingAverageCpu fuel u.n (u.firstParam.signExtend 64) u.dataIn (callocInts u.n)

/-- The response with the result of a moving average. -/
def movingAvgResponse (k : Kernels) (request : Msg) (out : List (BitVec 32)) : Msg :=
  let dataBytes : BitVec 32 := (request.dataSize * 4).setWidth 32
  let sizeBytes : BitVec 64 := BitVec.ofNat 64 sizeofMsg + dataBytes.signExtend 64
  { msgEmpty with
    msgId := MSG_RESULT
    dataSize := request.dataSize
    paramsSize := 0
    totalBytes := sizeBytes
    dataBytes := dataBytes.signExtend 64
    predictedTimeMillis := k.millis
    data := intBytes out }

/-! ## Option prices -/

/-- A field of the data. -/
def dataField (w : Nat) (k off : Nat) (request : Msg) : BitVec w := BitVec.ofNat w (LittleEndian.read k off request.data)

/-- The price of the option in the request. -/
def optionPrice (k : Kernels) (request : Msg) : BitVec 64 :=
  k.optionPricing (dataField 64 8 0 request) (dataField 64 8 8 request) (dataField 64 8 16 request)
    (dataField 32 4 24 request) (dataField 32 4 28 request) (dataField 32 4 32 request) (dataField 64 8 36 request)
    request.nDfes

/-- The response with the result of an option pricing. -/
def optionPriceResponse (res : BitVec 64) : Msg :=
  { msgEmpty with
    msgId := MSG_RESULT
    dataSize := 1
    paramsSize := 0
    totalBytes := BitVec.ofNat 64 (sizeofMsg + 8)
    dataBytes := 8
    data := LittleEndian.ofNat 8 res.toNat }

/-- `DispatcherServer::handle_request`. -/
def dispatcherHandleRequest (k : Kernels) (fuel : Nat) (request : Msg) : Exec Msg := do
  if request.msgId = MSG_MOVING_AVG then
    let u ← unpack request
    let out ← movingAverage k fuel request u
    pure (movingAvgResponse k request out)
  else if request.msgId = MSG_OPTION_PRICE then
    if 44 ≤ request.data.length then pure (optionPriceResponse (optionPrice k request)) else fault .outOfBounds
  else pure msgEmpty

/-- The dispatcher as a server. -/
def dispatcherServe (k : Kernels) (fuel : Nat) (request : Msg) : Exec (Option Msg) := do
  let response ← dispatcherHandleRequest k fuel request
  pure (some response)

/-- The bytes of the result of the kernel. -/
def kernelResult (k : Kernels) (fuel : Nat) (request : Msg) : Exec (List UInt8) := do
  if request.msgId = MSG_MOVING_AVG then
    let u ← unpack request
    let out ← movingAverage k fuel request u
    pure (intBytes out)
  else pure (LittleEndian.ofNat 8 (optionPrice k request).toNat)

/-! ## Unpacking -/

theorem toNat_nBytes {x : BitVec 64} (h : 4 * x.toNat < 2 ^ 64) : (4 * x).toNat = 4 * x.toNat := by
  rw [BitVec.toNat_mul]
  show 4 * x.toNat % 2 ^ 64 = _
  exact Nat.mod_eq_of_lt h

/-- A request whose `int`s and first parameter are there is unpacked. -/
theorem unpack_eq {request : Msg} {b : UInt8} (hlen : request.data.length < 2 ^ 64)
    (hb : request.data[4 * request.dataSize.toNat]? = some b) :
    unpack request = done ⟨request.dataSize, intsAt request.dataSize.toNat request.data, b.toBitVec.signExtend 32⟩ := by
  have hlt : 4 * request.dataSize.toNat < request.data.length := (List.getElem?_eq_some_iff.mp hb).1
  have hbytes : (4 * request.dataSize).toNat = 4 * request.dataSize.toNat := toNat_nBytes (by omega)
  have hparam : request.firstParam = some (b.toBitVec.signExtend 32) := by
    rw [Msg.firstParam, BitVec.mul_comm, hbytes, hb]
    rfl
  unfold unpack
  dsimp only
  rw [hbytes, if_pos (by omega), hparam, Nat.mul_div_cancel_left _ (by decide)]
  rfl

/-- The request is unpacked as it was meant. -/
def MovingAvg.RoundTrip (r : MovingAvg) : Prop :=
  ∃ u, unpack (Msg.ofBytes r.msg.toBytes) = done u ∧ u.n.toNat = r.dataIn.length ∧ u.dataIn = r.dataIn ∧
    u.firstParam.toInt = r.width.toNat

/-- The byte behind the `int`s is the lowest of the width. -/
theorem MovingAvg.firstByte (r : MovingAvg) :
    r.msg.data[4 * r.msg.dataSize.toNat]? = some (UInt8.ofNat r.width.toNat) := by
  rw [r.toNat_dataSize, r.data_msg, List.getElem?_append_right (by simp), length_intBytes, Nat.sub_self]
  rfl

/-- A byte as a signed `char`. -/
theorem toInt_char (w : Nat) :
    (UInt8.ofNat w).toBitVec.toInt = if w % 256 < 128 then (w % 256 : Int) else w % 256 - 256 := by
  have hnat : (UInt8.ofNat w).toBitVec.toNat = w % 256 := UInt8.toNat_ofNat'
  rw [BitVec.toInt_eq_toNat_cond, hnat]
  split <;> split <;> omega

/-- **A request for a moving average is read as it was meant** if and only if its width is below 128. -/
theorem movingAvg_roundtrip_iff (r : MovingAvg) (hw : r.width.toNat < 2 ^ 31) :
    r.RoundTrip ↔ r.width.toNat < 128 := by
  have hfits := r.fits
  have hunpack := unpack_eq (by rw [r.length_data]; omega) r.firstByte
  have hparam :
      ((UInt8.ofNat r.width.toNat).toBitVec.signExtend 32).toInt = (UInt8.ofNat r.width.toNat).toBitVec.toInt :=
    BitVec.toInt_signExtend_of_le (by decide)
  have hchar := toInt_char r.width.toNat
  unfold MovingAvg.RoundTrip
  rw [Msg.ofBytes_toBytes, hunpack]
  constructor
  · rintro ⟨u, hu, -, -, hwidth⟩
    cases hu
    rw [hparam, hchar] at hwidth
    split at hwidth <;> omega
  · intro hlt
    refine ⟨_, rfl, r.toNat_dataSize, ?_, ?_⟩
    · rw [r.toNat_dataSize, r.data_msg]
      exact intsAt_intBytes r.dataIn _
    · rw [hparam, hchar, if_pos (by omega)]
      omega

/-- Three numbers and a width of three. -/
def threePoints : MovingAvg := ⟨3, [1, 2, 3], by decide⟩

theorem movingAvg_roundtrip_three : threePoints.RoundTrip :=
  (movingAvg_roundtrip_iff threePoints (by decide)).mpr (by decide)

/-- A width of 200 is read as -56. -/
theorem movingAvg_width_lost : ¬∀ r : MovingAvg, r.width.toNat < 2 ^ 31 → r.RoundTrip := by
  intro h
  obtain ⟨u, hu, -, -, hwidth⟩ := h { threePoints with width := 200 } (by decide)
  have hknown := unpack_eq (by decide) (MovingAvg.firstByte { threePoints with width := 200 })
  rw [Msg.ofBytes_toBytes, hknown] at hu
  cases hu
  exact absurd hwidth (by decide)

/-! ## Safety -/

/-- `(size_t)request->firstParam()`. -/
theorem toNat_signExtend_char (b : UInt8) : ((b.toBitVec.signExtend 32).signExtend 64).toNat =
    if 0 ≤ b.toBitVec.toInt then b.toBitVec.toInt.toNat else (2 ^ 64 + b.toBitVec.toInt).toNat := by
  have h1 : ((b.toBitVec.signExtend 32).signExtend 64).toInt = b.toBitVec.toInt := by
    rw [BitVec.toInt_signExtend_of_le (by decide), BitVec.toInt_signExtend_of_le (by decide)]
  have hlt := ((b.toBitVec.signExtend 32).signExtend 64).isLt
  rw [BitVec.toInt_eq_toNat_cond] at h1
  split at h1 <;> split <;> omega

/-- On the CPU a request is unpacked, averaged and answered. -/
theorem handleRequest_cpu (k : Kernels) (fuel : Nat) (request : Sent) (hid : request.msg.msgId = MSG_MOVING_AVG)
    (hcpu : ¬(request.msg.resourceType = DFE ∧ k.useDfe = true)) (b : UInt8)
    (hb : request.msg.data[4 * request.msg.dataSize.toNat]? = some b) :
    dispatcherHandleRequest k fuel (Msg.ofBytes request.bytes) = (do
      let out ← movingAverageCpu fuel request.msg.dataSize ((b.toBitVec.signExtend 32).signExtend 64)
        (intsAt request.msg.dataSize.toNat request.msg.data) (List.replicate request.msg.dataSize.toNat 0)
      pure (movingAvgResponse k request.msg out)) := by
  have hfits := request.fits
  have hlt : 4 * request.msg.dataSize.toNat < request.msg.data.length := (List.getElem?_eq_some_iff.mp hb).1
  have hout : callocInts request.msg.dataSize = List.replicate request.msg.dataSize.toNat 0 := if_pos (by omega)
  rw [Sent.bytes, Msg.ofBytes_toBytes]
  unfold dispatcherHandleRequest
  rw [if_pos hid, unpack_eq (by omega) hb, done_bind, movingAverage, if_neg hcpu, hout]

/-- **A request for a moving average is safe on the CPU**: the dispatcher answers it, without a fault, if and only if the
`char` behind its `int`s is between 1 and their number. -/
theorem movingAvg_safe_iff (k : Kernels) (request : Sent) (hid : request.msg.msgId = MSG_MOVING_AVG)
    (hcpu : ¬(request.msg.resourceType = DFE ∧ k.useDfe = true)) (b : UInt8)
    (hb : request.msg.data[4 * request.msg.dataSize.toNat]? = some b) :
    (∃ fuel response, dispatcherHandleRequest k fuel (Msg.ofBytes request.bytes) = done response) ↔
      1 ≤ b.toBitVec.toInt ∧ b.toBitVec.toInt ≤ request.msg.dataSize.toNat := by
  have hsize := toNat_signExtend_char b
  have hlow := BitVec.le_toInt b.toBitVec
  constructor
  · rintro ⟨fuel, response, h⟩
    rw [handleRequest_cpu k fuel request hid hcpu b hb] at h
    obtain ⟨out, hrun, -⟩ := bind_eq_done.mp h
    by_contra hnot
    have hfits := request.fits
    have hlt : 4 * request.msg.dataSize.toNat < request.msg.data.length := (List.getElem?_eq_some_iff.mp hb).1
    refine movingAverageCpu_ne_done (by simp) (by simp) ?_ out hrun
    rw [hsize]
    split <;> omega
  · rintro ⟨h1, h2⟩
    rw [if_pos (by omega)] at hsize
    refine ⟨request.msg.dataSize.toNat + 1, ?_⟩
    rw [handleRequest_cpu k _ request hid hcpu b hb, movingAverageCpu_eq (by simp) (by simp) (by omega) (by omega)
      (Nat.lt_succ_self _), done_bind]
    exact ⟨_, rfl⟩

/-- Kernels for the CPU. -/
def cpuOnly : Kernels := ⟨false, fun _ _ data _ => data, fun _ _ _ _ => rfl, fun _ _ _ _ _ _ _ _ => 0, 0⟩

theorem movingAvg_safe_three :
    ∃ fuel response, dispatcherHandleRequest cpuOnly fuel (Msg.ofBytes threePoints.sent.bytes) = done response :=
  (movingAvg_safe_iff cpuOnly threePoints.sent rfl (by decide) 3 (by decide +kernel)).mpr
    ⟨by decide, by decide +kernel⟩

/-- A width of four with three numbers. -/
theorem movingAvg_unsafe_four : ¬∀ (k : Kernels) (request : Sent), request.msg.msgId = MSG_MOVING_AVG →
    ¬(request.msg.resourceType = DFE ∧ k.useDfe = true) →
    (∃ b, request.msg.data[4 * request.msg.dataSize.toNat]? = some b) →
    ∃ fuel response, dispatcherHandleRequest k fuel (Msg.ofBytes request.bytes) = done response := by
  intro h
  have hfour : ({ threePoints with width := 4 } : MovingAvg).sent.msg.data[4 * 3]? = some 4 := by decide +kernel
  obtain ⟨fuel, response, hrun⟩ :=
    h cpuOnly ({ threePoints with width := 4 } : MovingAvg).sent rfl (by decide) ⟨4, hfour⟩
  rw [handleRequest_cpu cpuOnly fuel _ rfl (by decide) 4 hfour] at hrun
  obtain ⟨out, hcpu, -⟩ := bind_eq_done.mp hrun
  exact movingAverageCpu_ne_done (by simp) (by simp) (by decide) out hcpu

/-! ## Reading an option back -/

/-- A field of the data, which must lie within the `dataBytes` bytes the message says it has. -/
def readField (w k off : Nat) (request : Msg) : Exec (BitVec w) :=
  if off + k ≤ request.dataBytes.toNat ∧ off + k ≤ request.data.length then done (dataField w k off request)
  else fault .outOfBounds

/-- The reads of `handle_request` for an option price, in their order. -/
def readOption (request : Msg) : Exec OptionPricing := do
  let strike ← readField 64 8 0 request
  let sigma ← readField 64 8 8 request
  let timestep ← readField 64 8 (2 * 8) request
  let numMaturity ← readField 32 4 (3 * 8) request
  let paraNode ← readField 32 4 (3 * 8 + 4) request
  let numPathGroup ← readField 32 4 (3 * 8 + 2 * 4) request
  let T ← readField 64 8 (3 * 8 + 3 * 4) request
  pure ⟨strike, sigma, timestep, numMaturity, paraNode, numPathGroup, T⟩

theorem readField_eq_done {w k off : Nat} {request : Msg} {x : BitVec w} (h : readField w k off request = done x) :
    off + k ≤ request.data.length ∧ dataField w k off request = x := by
  unfold readField at h
  split at h
  · rename_i hin
    cases h
    exact ⟨hin.2, rfl⟩
  · cases h

/-- The kernel is run on what was read. -/
theorem optionPrice_of_readOption {k : Kernels} {request : Msg} {r : OptionPricing} (h : readOption request = done r) :
    44 ≤ request.data.length ∧ optionPrice k request =
      k.optionPricing r.strike r.sigma r.timestep r.numMaturity r.paraNode r.numPathGroup r.T request.nDfes := by
  obtain ⟨strike, h1, h⟩ := bind_eq_done.mp h
  obtain ⟨sigma, h2, h⟩ := bind_eq_done.mp h
  obtain ⟨timestep, h3, h⟩ := bind_eq_done.mp h
  obtain ⟨numMaturity, h4, h⟩ := bind_eq_done.mp h
  obtain ⟨paraNode, h5, h⟩ := bind_eq_done.mp h
  obtain ⟨numPathGroup, h6, h⟩ := bind_eq_done.mp h
  obtain ⟨T, h7, h⟩ := bind_eq_done.mp h
  cases h
  refine ⟨(readField_eq_done h7).1, ?_⟩
  rw [← (readField_eq_done h1).2, ← (readField_eq_done h2).2, ← (readField_eq_done h3).2, ← (readField_eq_done h4).2,
    ← (readField_eq_done h5).2, ← (readField_eq_done h6).2, ← (readField_eq_done h7).2]
  rfl

/-- A field that was written behind some others is read back there. -/
theorem readField_encode {request : Msg} {w k off : Nat} (before after : List (Nat × Nat)) (x : BitVec w)
    (hdata : request.data = LittleEndian.encode (before ++ (k, x.toNat) :: after))
    (hbytes : request.dataBytes.toNat = request.data.length) (hoff : (before.map Prod.fst).sum = off)
    (hw : 2 ^ w = 256 ^ k) : readField w k off request = done x := by
  have hlen : off + k ≤ request.data.length := by
    rw [hdata, LittleEndian.length_encode, List.map_append, List.sum_append, List.map_cons, List.sum_cons, hoff]
    omega
  have hread := LittleEndian.read_encode before after k x.toNat []
  rw [List.append_nil, ← hdata, hoff, ← hw, Nat.mod_eq_of_lt x.isLt] at hread
  rw [readField, if_pos ⟨by omega, hlen⟩, dataField, hread, BitVec.ofNat_toNat, BitVec.setWidth_eq]

/-- The reads give back the arguments the message was built from. -/
theorem OptionPricing.readOption_msg (r : OptionPricing) : readOption r.msg = done r := by
  have hbytes : r.msg.dataBytes.toNat = r.msg.data.length := r.length_data.symm
  have hstrike : readField 64 8 0 r.msg = done r.strike := readField_encode [] _ r.strike rfl hbytes rfl rfl
  have hsigma : readField 64 8 8 r.msg = done r.sigma := readField_encode [(8, _)] _ r.sigma rfl hbytes rfl rfl
  have htimestep : readField 64 8 (2 * 8) r.msg = done r.timestep :=
    readField_encode [(8, _), (8, _)] _ r.timestep rfl hbytes rfl rfl
  have hnumMaturity : readField 32 4 (3 * 8) r.msg = done r.numMaturity :=
    readField_encode [(8, _), (8, _), (8, _)] _ r.numMaturity rfl hbytes rfl rfl
  have hparaNode : readField 32 4 (3 * 8 + 4) r.msg = done r.paraNode :=
    readField_encode [(8, _), (8, _), (8, _), (4, _)] _ r.paraNode rfl hbytes rfl rfl
  have hnumPathGroup : readField 32 4 (3 * 8 + 2 * 4) r.msg = done r.numPathGroup :=
    readField_encode [(8, _), (8, _), (8, _), (4, _), (4, _)] _ r.numPathGroup rfl hbytes rfl rfl
  have hT : readField 64 8 (3 * 8 + 3 * 4) r.msg = done r.T :=
    readField_encode [(8, _), (8, _), (8, _), (4, _), (4, _), (4, _)] _ r.T rfl hbytes rfl rfl
  rw [readOption, hstrike, done_bind, hsigma, done_bind, htimestep, done_bind, hnumMaturity, done_bind, hparaNode,
    done_bind, hnumPathGroup, done_bind, hT, done_bind]
  rfl

/-- **A request for an option price is read as it was meant**: the bytes copied behind the header, read at the
dispatcher's offsets and within `dataBytes`, give back the seven arguments, and the kernel is run on these; the total is
the header and the data. -/
theorem optionPricing_roundtrip (r : OptionPricing) :
    r.msg.data = r.copies ∧ r.msg.dataBytes.toNat = r.copies.length ∧
      r.msg.totalBytes.toNat = sizeofMsg + r.msg.dataBytes.toNat ∧ readOption r.msg = done r ∧
      ∀ (k : Kernels) (fuel : Nat), dispatcherHandleRequest k fuel r.msg = done (optionPriceResponse
        (k.optionPricing r.strike r.sigma r.timestep r.numMaturity r.paraNode r.numPathGroup r.T r.msg.nDfes)) := by
  have hread := r.readOption_msg
  have hlen : r.msg.dataBytes.toNat = r.msg.data.length := r.length_data.symm
  refine ⟨r.copies_eq.symm, by rw [r.copies_eq, hlen], rfl, hread, fun k fuel => ?_⟩
  obtain ⟨hin, hprice⟩ := optionPrice_of_readOption (k := k) hread
  have hid : ¬r.msg.msgId = MSG_MOVING_AVG := by
    show ¬MSG_OPTION_PRICE = MSG_MOVING_AVG
    decide
  rw [dispatcherHandleRequest, if_neg hid, if_pos (show r.msg.msgId = MSG_OPTION_PRICE from rfl), if_pos hin, hprice]
  rfl

/-! ## Answers -/

theorem unpack_done {request : Msg} {u : Unpacked} (h : unpack request = done u) :
    u.n = request.dataSize ∧ u.dataIn.length = (4 * request.dataSize).toNat / 4 := by
  unfold unpack at h
  dsimp only at h
  split at h
  · split at h
    · cases h
    · cases h
      exact ⟨rfl, length_intsAt _ _⟩
  · cases h

theorem length_movingAverage {k : Kernels} {fuel : Nat} {request : Msg} {u : Unpacked} {out : List (BitVec 32)}
    (hn : u.n.toNat = u.dataIn.length) (hlt : 4 * u.n.toNat < 2 ^ 64) (h : movingAverage k fuel request u = done out) :
    out.length = u.n.toNat := by
  unfold movingAverage at h
  split at h
  · cases h
    rw [k.length_movingAverageDfe, hn]
  · have hcalloc : (callocInts u.n).length = u.dataIn.length := by
      rw [callocInts, if_pos hlt, List.length_replicate, hn]
    rw [length_of_movingAverageCpu hn hcalloc h, hn]

section Answers

variable {k : Kernels} {fuel : Nat} {request : Msg} {result : List UInt8}

/-- A moving average is answered with as many `int`s as the request has. -/
theorem movingAvg_answer (hid : request.msgId = MSG_MOVING_AVG) (hlt : sizeofMsg + 4 * request.dataSize.toNat < 2 ^ 31)
    (h : kernelResult k fuel request = done result) :
    ∃ response, dispatcherHandleRequest k fuel request = done response ∧ Answer result response ∧
      result.length = 4 * request.dataSize.toNat := by
  rw [kernelResult, if_pos hid] at h
  obtain ⟨u, hunpack, h⟩ := bind_eq_done.mp h
  obtain ⟨out, hrun, h⟩ := bind_eq_done.mp h
  cases h
  obtain ⟨hn, hdata⟩ := unpack_done hunpack
  have hbytes : (4 * request.dataSize).toNat = 4 * request.dataSize.toNat := toNat_nBytes (by omega)
  have hout : out.length = request.dataSize.toNat := by
    rw [← hn]
    exact length_movingAverage (by rw [hn, hdata, hbytes]; omega) (by rw [hn]; omega) hrun
  have hsize : (((request.dataSize * 4).setWidth 32).signExtend 64).toNat = 4 * request.dataSize.toNat := by
    rw [BitVec.mul_comm, toInt_of_lt (by omega), hbytes]
  refine ⟨movingAvgResponse k request out, ?_, ⟨rfl, rfl, ?_, ?_⟩, by rw [length_intBytes, hout]⟩
  · rw [dispatcherHandleRequest, if_pos hid, hunpack, done_bind, hrun, done_bind]
    rfl
  · rw [length_intBytes, hout]
    exact hsize
  · show (BitVec.ofNat 64 sizeofMsg + ((request.dataSize * 4).setWidth 32).signExtend 64).toNat = _
    rw [length_intBytes, hout, toNat_sizeofMsg_add (by omega), hsize]

/-- An option price is answered with one `double`. -/
theorem optionPrice_answer (hid : request.msgId = MSG_OPTION_PRICE) (hlen : 44 ≤ request.data.length)
    (h : kernelResult k fuel request = done result) :
    ∃ response, dispatcherHandleRequest k fuel request = done response ∧ Answer result response ∧ result.length = 8 := by
  have hne : ¬request.msgId = MSG_MOVING_AVG := by
    rw [hid]
    decide
  rw [kernelResult, if_neg hne] at h
  cases h
  refine ⟨optionPriceResponse (optionPrice k request), ?_, ⟨rfl, rfl, ?_, ?_⟩, LittleEndian.length_ofNat _ _⟩
  · rw [dispatcherHandleRequest, if_neg hne, if_pos hid, if_pos hlen]
    rfl
  · rw [LittleEndian.length_ofNat]
    rfl
  · rw [LittleEndian.length_ofNat]
    rfl

end Answers

/-- **The dispatcher answers a call** with the result of its kernel, of the size the client expects. -/
theorem dispatcher_answer {k : Kernels} {fuel : Nat} {result : List UInt8} (c : Call) (s : Stamp) (rids : BitVec 8)
    (h : kernelResult k fuel { c.msg.stamp s with rids } = done result) :
    ∃ response, dispatcherHandleRequest k fuel { c.msg.stamp s with rids } = done response ∧ Answer result response ∧
      result.length = c.outBytes := by
  cases c with
  | movingAverage r =>
    have hsize : r.msg.dataSize.toNat = r.dataIn.length := r.toNat_dataSize
    have hfits := r.fits
    obtain ⟨response, hrun, hans, hlen⟩ := movingAvg_answer rfl
      (by show sizeofMsg + 4 * r.msg.dataSize.toNat < 2 ^ 31; omega) h
    refine ⟨response, hrun, hans, hlen.trans ?_⟩
    show 4 * r.msg.dataSize.toNat = 4 * r.dataIn.length
    rw [hsize]
  | optionPricing r => exact optionPrice_answer rfl (by show 44 ≤ r.msg.data.length; rw [r.length_data]) h

/-- Whatever the dispatcher replies to a call is an answer of that size. -/
theorem dispatcher_replied {k : Kernels} {fuel : Nat} {response : Msg} (c : Call) (s : Stamp) (rids : BitVec 8)
    (h : dispatcherHandleRequest k fuel { c.msg.stamp s with rids } = done response) :
    ∃ result, Answer result response ∧ result.length = c.outBytes := by
  obtain ⟨result, hresult⟩ : ∃ result, kernelResult k fuel { c.msg.stamp s with rids } = done result := by
    cases c with
    | movingAverage r =>
      obtain ⟨u, hunpack, h⟩ := bind_eq_done.mp (h : unpack { r.msg.stamp s with rids } >>= _ = _)
      obtain ⟨out, hrun, -⟩ := bind_eq_done.mp h
      refine ⟨intBytes out, bind_eq_done.mpr ⟨u, hunpack, ?_⟩⟩
      rw [hrun, done_bind]
      rfl
    | optionPricing r => exact ⟨_, rfl⟩
  obtain ⟨response', hrun, hans, hlen⟩ := dispatcher_answer c s rids hresult
  cases h.symm.trans hrun
  exact ⟨result, hans, hlen⟩

end Hydrogen
