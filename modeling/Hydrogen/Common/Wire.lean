import Hydrogen.Lib.LittleEndian
import Hydrogen.Common.Message

/-!
# Messages on the wire

A message is sent as the bytes of its packed record: the fields of the header in order, least significant byte first,
and then the data. The receiver reads the fields at the offsets of the record.
-/

namespace Hydrogen

/-! ## `int` and `size_t` -/

/-- A `size_t` that fits in an `int` survives the conversions. -/
theorem toInt_of_lt {x : BitVec 64} (h : x.toNat < 2 ^ 31) : (x.setWidth 32).signExtend 64 = x := by
  have hmsb : (x.setWidth 32).msb = false := by
    rw [BitVec.msb_eq_false_iff_two_mul_lt, BitVec.toNat_setWidth]
    omega
  apply BitVec.eq_of_toNat_eq
  rw [BitVec.signExtend_eq_setWidth_of_msb_false hmsb, BitVec.toNat_setWidth, BitVec.toNat_setWidth]
  omega

/-- A length that fits in an `int`, as `size_t`. -/
theorem toNat_int {k : Nat} (h : k < 2 ^ 31) : ((BitVec.ofNat 32 k).signExtend 64).toNat = k := by
  have hk : (BitVec.ofNat 64 k).toNat = k := by rw [BitVec.toNat_ofNat, Nat.mod_eq_of_lt (by omega)]
  have hint : BitVec.ofNat 32 k = (BitVec.ofNat 64 k).setWidth 32 := by
    apply BitVec.eq_of_toNat_eq
    rw [BitVec.toNat_ofNat, BitVec.toNat_setWidth, hk]
  rw [hint, toInt_of_lt (by rwa [hk]), hk]

/-- The size of a message with so many bytes of data, as `size_t`, -/
theorem toNat_sizeofMsg_add {x : BitVec 64} (h : sizeofMsg + x.toNat < 2 ^ 31) :
    (BitVec.ofNat 64 sizeofMsg + x).toNat = sizeofMsg + x.toNat := by
  rw [BitVec.toNat_add, BitVec.toNat_ofNat]
  unfold sizeofMsg at h ⊢
  omega

/-- and as `int`. -/
theorem toInt_sizeofMsg_add {x : BitVec 64} (h : sizeofMsg + x.toNat < 2 ^ 31) :
    (((BitVec.ofNat 64 sizeofMsg + x).setWidth 32).signExtend 64).toNat = sizeofMsg + x.toNat := by
  rw [toInt_of_lt (by rwa [toNat_sizeofMsg_add h]), toNat_sizeofMsg_add h]

/-! ## Bytes -/

/-- The fields of the header with their sizes. -/
def Msg.fields (m : Msg) : List (Nat × Nat) :=
  [(4, m.msgId.toNat), (4, m.clientId.toNat), (4, m.priority.toNat), (4, m.avgWt.toNat), (4, m.resourceType.toNat),
    (4, m.predictedTimeMillis.toNat), (4, m.targetExecutionTimeMillis.toNat), (1, m.rids.toNat),
    (8, m.expDataSizeBytes.toNat), (8, m.dataSize.toNat), (8, m.paramsSize.toNat), (8, m.totalBytes.toNat),
    (8, m.dataBytes.toNat)]

/-- The header. -/
def Msg.header (m : Msg) : List UInt8 := LittleEndian.encode m.fields

/-- The message as it is sent. -/
def Msg.toBytes (m : Msg) : List UInt8 := m.header ++ m.data

theorem Msg.widths (m : Msg) : m.fields.map Prod.fst = [4, 4, 4, 4, 4, 4, 4, 1, 8, 8, 8, 8, 8] := rfl

@[simp] theorem Msg.length_header (m : Msg) : m.header.length = sizeofMsg := by
  rw [Msg.header, LittleEndian.length_encode, m.widths]
  rfl

theorem Msg.length_toBytes (m : Msg) : m.toBytes.length = sizeofMsg + m.data.length := by
  rw [Msg.toBytes, List.length_append, Msg.length_header]

/-- A field of the header is read back at the offset of the fields before it. -/
theorem Msg.field_eq (m : Msg) (rest : List UInt8) (i off : Nat) {k w : Nat} (x : BitVec w)
    (hfield : m.fields[i]? = some (k, x.toNat))
    (hoff : ([4, 4, 4, 4, 4, 4, 4, 1, 8, 8, 8, 8, 8].take i).sum = off) (hwidth : 256 ^ k = 2 ^ w) :
    BitVec.ofNat w (LittleEndian.read k off (m.header ++ rest)) = x := by
  obtain ⟨hi, hget⟩ := List.getElem?_eq_some_iff.mp hfield
  have hsplit : m.fields = m.fields.take i ++ (k, x.toNat) :: m.fields.drop (i + 1) := by
    rw [← hget, List.getElem_cons_drop, List.take_append_drop]
  have hread := LittleEndian.read_encode (m.fields.take i) (m.fields.drop (i + 1)) k x.toNat rest
  rw [← hsplit, List.map_take, m.widths, hoff, hwidth, Nat.mod_eq_of_lt x.isLt] at hread
  rw [Msg.header, hread, BitVec.ofNat_toNat, BitVec.setWidth_eq]

/-- `request->msgId` of the bytes at `request`. -/
def msgIdOf (bs : List UInt8) : BitVec 32 := BitVec.ofNat 32 (LittleEndian.read 4 0 bs)

/-- `request->totalBytes`. -/
def totalBytesOf (bs : List UInt8) : BitVec 64 := BitVec.ofNat 64 (LittleEndian.read 8 53 bs)

/-- Where `msgId` ends in a message. -/
def idEnd : Nat := 4

/-- Where `totalBytes` ends. -/
def sizeEnd : Nat := 61

theorem idEnd_le : idEnd ≤ sizeEnd := by decide

theorem sizeEnd_le : sizeEnd ≤ sizeofMsg := by decide

@[simp] theorem msgIdOf_header (m : Msg) (rest : List UInt8) : msgIdOf (m.header ++ rest) = m.msgId :=
  m.field_eq rest 0 0 m.msgId rfl rfl rfl

@[simp] theorem totalBytesOf_header (m : Msg) (rest : List UInt8) : totalBytesOf (m.header ++ rest) = m.totalBytes :=
  m.field_eq rest 11 53 m.totalBytes rfl rfl rfl

/-! ## The record behind a pointer -/

/-- `(msg_t *)` of a buffer. -/
def Msg.ofBytes (bs : List UInt8) : Msg where
  msgId := BitVec.ofNat 32 (LittleEndian.read 4 0 bs)
  clientId := BitVec.ofNat 32 (LittleEndian.read 4 4 bs)
  priority := BitVec.ofNat 32 (LittleEndian.read 4 8 bs)
  avgWt := BitVec.ofNat 32 (LittleEndian.read 4 12 bs)
  resourceType := BitVec.ofNat 32 (LittleEndian.read 4 16 bs)
  predictedTimeMillis := BitVec.ofNat 32 (LittleEndian.read 4 20 bs)
  targetExecutionTimeMillis := BitVec.ofNat 32 (LittleEndian.read 4 24 bs)
  rids := BitVec.ofNat 8 (LittleEndian.read 1 28 bs)
  expDataSizeBytes := BitVec.ofNat 64 (LittleEndian.read 8 29 bs)
  dataSize := BitVec.ofNat 64 (LittleEndian.read 8 37 bs)
  paramsSize := BitVec.ofNat 64 (LittleEndian.read 8 45 bs)
  totalBytes := BitVec.ofNat 64 (LittleEndian.read 8 53 bs)
  dataBytes := BitVec.ofNat 64 (LittleEndian.read 8 61 bs)
  data := bs.drop sizeofMsg

/-- **What is sent is what is received.** -/
theorem Msg.ofBytes_append (m : Msg) (rest : List UInt8) :
    Msg.ofBytes (m.header ++ rest) = { m with data := rest } := by
  unfold Msg.ofBytes
  rw [m.field_eq rest 0 0 m.msgId rfl rfl rfl, m.field_eq rest 1 4 m.clientId rfl rfl rfl,
    m.field_eq rest 2 8 m.priority rfl rfl rfl, m.field_eq rest 3 12 m.avgWt rfl rfl rfl,
    m.field_eq rest 4 16 m.resourceType rfl rfl rfl, m.field_eq rest 5 20 m.predictedTimeMillis rfl rfl rfl,
    m.field_eq rest 6 24 m.targetExecutionTimeMillis rfl rfl rfl, m.field_eq rest 7 28 m.rids rfl rfl rfl,
    m.field_eq rest 8 29 m.expDataSizeBytes rfl rfl rfl, m.field_eq rest 9 37 m.dataSize rfl rfl rfl,
    m.field_eq rest 10 45 m.paramsSize rfl rfl rfl, m.field_eq rest 11 53 m.totalBytes rfl rfl rfl,
    m.field_eq rest 12 61 m.dataBytes rfl rfl rfl, List.drop_left' m.length_header]

theorem Msg.ofBytes_toBytes (m : Msg) : Msg.ofBytes m.toBytes = m := m.ofBytes_append m.data

/-! ## Well-formed messages -/

/-- A message whose `totalBytes` is its length, below 2^31. -/
structure Sent where
  msg : Msg
  total : msg.totalBytes.toNat = sizeofMsg + msg.data.length
  fits : sizeofMsg + msg.data.length < 2 ^ 31

namespace Sent

/-- The bytes sent. -/
def bytes (m : Sent) : List UInt8 := m.msg.toBytes

theorem length_bytes (m : Sent) : m.bytes.length = sizeofMsg + m.msg.data.length := m.msg.length_toBytes

theorem sizeofMsg_le (m : Sent) : sizeofMsg ≤ m.bytes.length := by
  rw [m.length_bytes]
  exact Nat.le_add_right _ _

theorem length_lt (m : Sent) : m.bytes.length < 2 ^ 31 := by
  rw [m.length_bytes]
  exact m.fits

/-- A part that reaches behind `msgId` has the id. -/
theorem msgIdOf_take (m : Sent) {k : Nat} (hk : idEnd ≤ k) (rest : List UInt8) :
    msgIdOf (m.bytes.take k ++ rest) = m.msg.msgId := by
  rw [msgIdOf, LittleEndian.read_take hk (Nat.le_trans idEnd_le (Nat.le_trans sizeEnd_le m.sizeofMsg_le))]
  exact msgIdOf_header m.msg m.msg.data

/-- One that reaches behind `totalBytes` has the size. -/
theorem totalBytesOf_take (m : Sent) {k : Nat} (hk : sizeEnd ≤ k) (rest : List UInt8) :
    totalBytesOf (m.bytes.take k ++ rest) = m.msg.totalBytes := by
  rw [totalBytesOf, LittleEndian.read_take hk (Nat.le_trans sizeEnd_le m.sizeofMsg_le)]
  exact totalBytesOf_header m.msg m.msg.data

/-- `MSG_DONE` and `MSG_TERM` end a session. -/
def Terminal (m : Sent) : Prop := m.msg.msgId = MSG_DONE ∨ m.msg.msgId = MSG_TERM

instance (m : Sent) : Decidable m.Terminal := inferInstanceAs (Decidable (_ ∨ _))

end Sent

end Hydrogen
