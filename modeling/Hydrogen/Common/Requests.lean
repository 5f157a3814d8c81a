import Hydrogen.Common.Wire

/-!
# Requests

`msg_moving_avg` and `msg_option_pricing` (`message.cpp`): the sizes are computed in `int` and `size_t` as in the
source, and the data are the bytes that are copied behind the header. When the sizes fit in an `int`, a request is a
well-formed message (`MovingAvg.sent`, `Call.sent`).
-/

namespace Hydrogen

/-! ## Arrays of `int` in memory -/

/-- The bytes of an array. -/
def intBytes (xs : List (BitVec 32)) : List UInt8 := LittleEndian.encodeWords 4 (xs.map BitVec.toNat)

/-- The array of `n` elements at the front of the bytes. -/
def intsAt (n : Nat) (bs : List UInt8) : List (BitVec 32) := (LittleEndian.readWords 4 n bs).map (BitVec.ofNat 32)

@[simp] theorem length_intBytes (xs : List (BitVec 32)) : (intBytes xs).length = 4 * xs.length := by
  rw [intBytes, LittleEndian.length_encodeWords, List.length_map]

@[simp] theorem length_intsAt (n : Nat) (bs : List UInt8) : (intsAt n bs).length = n := by
  simp [intsAt, LittleEndian.readWords]

/-- **Round trip** of an array. -/
theorem intsAt_intBytes (xs : List (BitVec 32)) (rest : List UInt8) : intsAt xs.length (intBytes xs ++ rest) = xs := by
  have hlt : ∀ n ∈ xs.map BitVec.toNat, n < 256 ^ 4 := by
    intro n hn
    obtain ⟨x, -, rfl⟩ := List.mem_map.mp hn
    exact x.isLt
  have hread := LittleEndian.readWords_encodeWords 4 (xs.map BitVec.toNat) hlt rest
  rw [List.length_map] at hread
  rw [intsAt, intBytes, hread, List.map_map]
  refine (List.map_congr_left fun x _ => ?_).trans (List.map_id xs)
  exact BitVec.eq_of_toNat_eq (by simp)

/-! ## The two requests -/

/-- `msg_moving_avg`. -/
def msgMovingAvg (n : BitVec 32) (width : BitVec 64) (dataIn : List (BitVec 32)) : Msg :=
  let dataBytes : BitVec 32 := (n.signExtend 64 * 4 + 8).setWidth 32
  let sizeBytes : BitVec 32 := (BitVec.ofNat 64 sizeofMsg + dataBytes.signExtend 64).setWidth 32
  { msgEmpty with
    msgId := MSG_MOVING_AVG
    expDataSizeBytes := n.signExtend 64 * 4
    dataSize := n.signExtend 64
    paramsSize := 1
    totalBytes := sizeBytes.signExtend 64
    dataBytes := dataBytes.signExtend 64
    data := intBytes (dataIn.take (n.signExtend 64).toNat) ++ LittleEndian.ofNat 8 width.toNat }

/-- `msg_option_pricing`; a `double` is its bits. -/
def msgOptionPricing (strike sigma timestep : BitVec 64) (numMaturity paraNode numPathGroup : BitVec 32)
    (T : BitVec 64) : Msg :=
  let dataBytes : BitVec 32 := 4 * 8 + 3 * 4
  let sizeBytes : BitVec 32 := (BitVec.ofNat 64 sizeofMsg + dataBytes.signExtend 64).setWidth 32
  { msgEmpty with
    msgId := MSG_OPTION_PRICE
    dataSize := 0
    expDataSizeBytes := 8
    paramsSize := 7
    dataBytes := dataBytes.signExtend 64
    totalBytes := sizeBytes.signExtend 64
    data := LittleEndian.encode [(8, strike.toNat), (8, sigma.toNat), (8, timestep.toNat), (4, numMaturity.toNat),
      (4, paraNode.toNat), (4, numPathGroup.toNat), (8, T.toNat)] }

/-- `msg::firstParam`: one `char` behind the `int`s, sign extended; none if the data end before it. -/
def Msg.firstParam (m : Msg) : Option (BitVec 32) :=
  (m.data[(m.dataSize * 4).toNat]?).map fun b => b.toBitVec.signExtend 32

/-! ## Sizes that fit -/

/-- The arguments of a request for a moving average whose size fits in an `int`. -/
structure MovingAvg where
  width : BitVec 64
  dataIn : List (BitVec 32)
  fits : sizeofMsg + (4 * dataIn.length + 8) < 2 ^ 31

namespace MovingAvg

variable (r : MovingAvg)

/-- The number of elements, as `int`. -/
def n : BitVec 32 := BitVec.ofNat 32 r.dataIn.length

/-- The request. -/
def msg : Msg := msgMovingAvg r.n r.width r.dataIn

theorem toNat_n : (r.n.signExtend 64).toNat = r.dataIn.length := by
  have := r.fits
  exact toNat_int (by omega)

theorem toNat_expDataSizeBytes : r.msg.expDataSizeBytes.toNat = 4 * r.dataIn.length := by
  have := r.fits
  show (r.n.signExtend 64 * 4).toNat = _
  rw [BitVec.toNat_mul, r.toNat_n]
  show r.dataIn.length * 4 % 2 ^ 64 = _
  omega

theorem toNat_dataSize : r.msg.dataSize.toNat = r.dataIn.length := r.toNat_n

/-- The bytes of the data. -/
theorem toNat_dataBytes : r.msg.dataBytes.toNat = 4 * r.dataIn.length + 8 := by
  have hfits := r.fits
  have hsum : (r.n.signExtend 64 * 4 + 8).toNat = 4 * r.dataIn.length + 8 := by
    have hexp := r.toNat_expDataSizeBytes
    rw [BitVec.toNat_add]
    show ((r.n.signExtend 64 * 4).toNat + 8) % 2 ^ 64 = _
    rw [show (r.n.signExtend 64 * 4).toNat = 4 * r.dataIn.length from hexp]
    omega
  show (((r.n.signExtend 64 * 4 + 8).setWidth 32).signExtend 64).toNat = _
  rw [toInt_of_lt (by omega), hsum]

theorem data_msg : r.msg.data = intBytes r.dataIn ++ LittleEndian.ofNat 8 r.width.toNat := by
  show intBytes (r.dataIn.take (r.n.signExtend 64).toNat) ++ _ = _
  rw [r.toNat_n, List.take_length]

theorem length_data : r.msg.data.length = 4 * r.dataIn.length + 8 := by
  rw [r.data_msg, List.length_append, length_intBytes, LittleEndian.length_ofNat]

theorem toNat_totalBytes : r.msg.totalBytes.toNat = sizeofMsg + r.msg.data.length := by
  show (((BitVec.ofNat 64 sizeofMsg + r.msg.dataBytes).setWidth 32).signExtend 64).toNat = _
  rw [toInt_sizeofMsg_add (by rw [r.toNat_dataBytes]; exact r.fits), r.toNat_dataBytes, r.length_data]

/-- The request as it is sent. -/
def sent : Sent := ⟨r.msg, r.toNat_totalBytes, by rw [r.length_data]; exact r.fits⟩

end MovingAvg

/-- The arguments of a request for an option price. -/
structure OptionPricing where
  strike : BitVec 64
  sigma : BitVec 64
  timestep : BitVec 64
  numMaturity : BitVec 32
  paraNode : BitVec 32
  numPathGroup : BitVec 32
  T : BitVec 64

/-- The request. -/
def OptionPricing.msg (r : OptionPricing) : Msg :=
  msgOptionPricing r.strike r.sigma r.timestep r.numMaturity r.paraNode r.numPathGroup r.T

/-- The seven copies of `msg_option_pricing` behind the header, each at its offset, in zeroed memory. -/
def OptionPricing.copies (r : OptionPricing) : List UInt8 :=
  let data := List.replicate (4 * 8 + 3 * 4) 0
  let data := LittleEndian.write 8 0 r.strike.toNat data
  let data := LittleEndian.write 8 8 r.sigma.toNat data
  let data := LittleEndian.write 8 (2 * 8) r.timestep.toNat data
  let data := LittleEndian.write 4 (3 * 8) r.numMaturity.toNat data
  let data := LittleEndian.write 4 (3 * 8 + 4) r.paraNode.toNat data
  let data := LittleEndian.write 4 (3 * 8 + 2 * 4) r.numPathGroup.toNat data
  LittleEndian.write 8 (3 * 8 + 3 * 4) r.T.toNat data

/-- The copies neither overlap nor leave a gap: they make the fields one behind the other. -/
theorem OptionPricing.copies_eq (r : OptionPricing) : r.copies = r.msg.data := by
  have hempty : List.replicate (4 * 8 + 3 * 4) (0 : UInt8) = LittleEndian.encode [] ++ List.replicate 44 0 := rfl
  unfold copies
  dsimp only
  rw [hempty]
  iterate 7 rw [LittleEndian.write_encode]
  all_goals rfl

theorem OptionPricing.length_data (r : OptionPricing) : r.msg.data.length = 44 := by
  rw [msg, msgOptionPricing, LittleEndian.length_encode]
  rfl

/-! ## Calls of the client API -/

/-- The fields of a request that a client sets. -/
structure Stamp where
  clientId : BitVec 32
  priority : BitVec 32
  avgWt : BitVec 32
  resourceType : BitVec 32
  predictedTimeMillis : BitVec 32
  targetExecutionTimeMillis : BitVec 32

/-- The message with those fields. -/
def Msg.stamp (m : Msg) (s : Stamp) : Msg :=
  { m with
    clientId := s.clientId
    priority := s.priority
    avgWt := s.avgWt
    resourceType := s.resourceType
    predictedTimeMillis := s.predictedTimeMillis
    targetExecutionTimeMillis := s.targetExecutionTimeMillis }

/-- A call whose sizes fit in an `int`. -/
inductive Call where
  | movingAverage (r : MovingAvg)
  | optionPricing (r : OptionPricing)

namespace Call

/-- The message that is built. -/
def msg : Call → Msg
  | movingAverage r => r.msg
  | optionPricing r => r.msg

/-- The size of the result the call expects, as it is passed to `getResult`. -/
def sizeBytes : Call → BitVec 32
  | movingAverage r => (r.n.signExtend 64 * 4).setWidth 32
  | optionPricing _ => 8

/-- The bytes of `out`. -/
def outBytes : Call → Nat
  | movingAverage r => 4 * r.dataIn.length
  | optionPricing _ => 8

variable (c : Call)

theorem msgId : c.msg.msgId = MSG_MOVING_AVG ∨ c.msg.msgId = MSG_OPTION_PRICE := by
  cases c with
  | movingAverage r => exact .inl rfl
  | optionPricing r => exact .inr rfl

theorem outBytes_lt : sizeofMsg + c.outBytes < 2 ^ 31 := by
  cases c with
  | movingAverage r =>
    have := r.fits
    simp only [outBytes]
    omega
  | optionPricing r => exact (by decide : sizeofMsg + 8 < 2 ^ 31)

theorem toNat_sizeBytes : (c.sizeBytes.signExtend 64).toNat = c.outBytes := by
  cases c with
  | movingAverage r =>
    have hfits := r.fits
    have hexp : (r.n.signExtend 64 * 4).toNat = 4 * r.dataIn.length := r.toNat_expDataSizeBytes
    simp only [sizeBytes, outBytes]
    rw [toInt_of_lt (by omega), hexp]
  | optionPricing r => rfl

/-- The size of the reply, as the request says it. -/
theorem toNat_expDataSizeBytes : c.msg.expDataSizeBytes.toNat = c.outBytes := by
  cases c with
  | movingAverage r => exact r.toNat_expDataSizeBytes
  | optionPricing r => rfl

theorem toNat_totalBytes : c.msg.totalBytes.toNat = sizeofMsg + c.msg.data.length := by
  cases c with
  | movingAverage r => exact r.toNat_totalBytes
  | optionPricing r =>
    simp only [msg, r.length_data]
    rfl

theorem length_lt : sizeofMsg + c.msg.data.length < 2 ^ 31 := by
  cases c with
  | movingAverage r =>
    simp only [msg, r.length_data]
    exact r.fits
  | optionPricing r =>
    simp only [msg, r.length_data]
    decide

/-- The request as it is sent, with the client's fields. -/
def sent (s : Stamp) : Sent := ⟨c.msg.stamp s, c.toNat_totalBytes, c.length_lt⟩

end Call

end Hydrogen
