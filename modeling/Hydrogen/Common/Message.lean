import Mathlib.Data.Nat.Notation

/-!
# Messages

The record every program of the system sends and receives (`message.hpp`): a packed header of 69 bytes and `dataBytes`
bytes of data. The integers have the widths of the C types, so a field is what the bytes of the message can hold.
-/

namespace Hydrogen

/-! ## Message ids -/

def MSG_DONE : BitVec 32 := 0
def MSG_ACK : BitVec 32 := 1
def MSG_MOVING_AVG : BitVec 32 := 2
def MSG_OPTION_PRICE : BitVec 32 := 3
def MSG_RESULT : BitVec 32 := 100
def MSG_CONTROL : BitVec 32 := 200
def MSG_TERM : BitVec 32 := 300

/-! ## The record -/

/-- `msg_t`, in the order of its fields. -/
structure Msg where
  msgId : BitVec 32
  clientId : BitVec 32
  priority : BitVec 32
  avgWt : BitVec 32
  resourceType : BitVec 32
  predictedTimeMillis : BitVec 32
  targetExecutionTimeMillis : BitVec 32
  rids : BitVec 8
  expDataSizeBytes : BitVec 64
  dataSize : BitVec 64
  paramsSize : BitVec 64
  totalBytes : BitVec 64
  dataBytes : BitVec 64
  data : List UInt8
  deriving DecidableEq

/-- `sizeof(msg_t)`: seven `int`s, one `char` and five `size_t`s, packed. -/
def sizeofMsg : Nat := 69

/-- `msg_empty`: zeroes and the size of a bare header. -/
def msgEmpty : Msg :=
  ⟨0, 0, 0, 0, 0, 0, 0, 0, 0, 0, 0, BitVec.ofNat 64 sizeofMsg, 0, []⟩

/-- `msg_ack`. -/
def msgAck : Msg := { msgEmpty with msgId := MSG_ACK }

/-- `msg::nDfes`: the number of bits set among the lowest four of `rids`. -/
def Msg.nDfes (m : Msg) : Nat := ((List.range 4).filter fun i => m.rids.getLsbD i).length

/-- The devices the dispatcher reads off the `rids` field for a moving average. -/
def dfeIds (request : Msg) : List Nat := (List.range 4).filter fun i => request.rids.getLsbD i

end Hydrogen
