import Hydrogen.Lib.Exec
import Hydrogen.Common.Requests
import Hydrogen.Net.Connection

/-!
# Clients and replies

What a server writes as its reply and how the other side reads it (`Client.cpp`): `getResult` for a client of the API,
and a loop around `read` for a program that forwards a request. The network delivers what was written in any chunks. A
read that is not satisfied does not end.

A `Link` is a connection to a server. A reply that is an `Answer` is written whole (`writeMsg_answer`), read by whoever
waits for its size (`readResult_answer`) and copied to where its result is expected (`getResult_answer`).
-/

namespace Hydrogen

open Exec

/-! ## The code -/

/-- `ba::write` of the `totalBytes` bytes at a message. -/
def writeMsg (m : Msg) : Exec (List UInt8) :=
  if m.totalBytes.toNat ≤ m.toBytes.length then done (m.toBytes.take m.totalBytes.toNat) else fault .outOfBounds

/-- `Client::read`: the bytes, and what has arrived behind them. -/
def clientRead (sizeBytes : BitVec 64) (cs : List Chunk) : Exec (List UInt8 × List Chunk) :=
  match readExactly cs sizeBytes.toNat with
  | some r => done r
  | none => outOfFuel

/-- `do read while (rsp->msgId != MSG_RESULT)`, for so many reads at most. -/
def readResult (sizeBytes : BitVec 64) : Nat → List Chunk → Exec (List UInt8 × List Chunk)
  | 0, _ => outOfFuel
  | reads + 1, cs => do
    let r ← clientRead sizeBytes cs
    if msgIdOf r.1 = MSG_RESULT then pure r else readResult sizeBytes reads r.2

/-- `Client::getResult`. -/
def getResult (out : List UInt8) (sizeBytes : BitVec 32) (cs : List Chunk) : Exec (List UInt8 × List Chunk) := do
  let size : BitVec 32 := (sizeBytes.signExtend 64 + BitVec.ofNat 64 sizeofMsg).setWidth 32
  let r ← clientRead (size.signExtend 64) cs
  let rsp := Msg.ofBytes r.1
  let out ← memcpy out rsp.data rsp.dataBytes
  pure (out, r.2)

/-- A connection to a server: what the server replies to a request, and the chunks in which a reply arrives. -/
structure Link where
  serve : Msg → Exec (Option Msg)
  deliver : List UInt8 → List Chunk
  flatten_deliver : ∀ bs, (deliver bs).flatten = bs

/-- `Client::send`, and what comes back. -/
def Link.send (l : Link) (m : Msg) : Exec (List Chunk) := do
  let bs ← writeMsg m
  let reply ← l.serve (Msg.ofBytes bs)
  match reply with
  | none => pure []
  | some r => do
    let written ← writeMsg r
    pure (l.deliver written)

/-- A message of the size it says is written whole. -/
theorem writeMsg_eq {m : Msg} (h : m.totalBytes.toNat = sizeofMsg + m.data.length) : writeMsg m = done m.toBytes := by
  rw [← m.length_toBytes] at h
  rw [writeMsg, h, if_pos (Nat.le_refl _), List.take_length]

theorem length_clientRead {sizeBytes : BitVec 64} {cs : List Chunk} {r : List UInt8 × List Chunk}
    (h : clientRead sizeBytes cs = done r) : r.1.length = sizeBytes.toNat := by
  unfold clientRead at h
  split at h
  · rename_i r' hread
    cases h
    exact length_readExactly hread
  · cases h

/-! ## Answers -/

/-- A reply with a result and its sizes. -/
structure Answer (result : List UInt8) (m : Msg) : Prop where
  msgId : m.msgId = MSG_RESULT
  data : m.data = result
  dataBytes : m.dataBytes.toNat = result.length
  totalBytes : m.totalBytes.toNat = sizeofMsg + result.length

section Answers

variable {result : List UInt8} {m : Msg} (h : Answer result m)
include h

theorem length_answer : m.toBytes.length = sizeofMsg + result.length := by rw [m.length_toBytes, h.data]

/-- It is written whole. -/
theorem writeMsg_answer : writeMsg m = done m.toBytes := writeMsg_eq (by rw [h.totalBytes, h.data])

/-- A server that gives it writes it back. -/
theorem send_answer {l : Link} {request : Msg} (hrequest : request.totalBytes.toNat = sizeofMsg + request.data.length)
    (hserve : l.serve request = done (some m)) : ∃ cs, l.send request = done cs ∧ cs.flatten = m.toBytes := by
  refine ⟨l.deliver m.toBytes, ?_, l.flatten_deliver _⟩
  rw [Link.send, writeMsg_eq hrequest, done_bind, Msg.ofBytes_toBytes, hserve, done_bind]
  show (writeMsg m >>= fun written => pure (l.deliver written)) = _
  rw [writeMsg_answer h, done_bind, pure_eq]

theorem clientRead_answer {sizeBytes : BitVec 64} (hsize : sizeBytes.toNat = sizeofMsg + result.length)
    {cs : List Chunk} (hcs : cs.flatten = m.toBytes) : clientRead sizeBytes cs = done (m.toBytes, []) := by
  have hread := readExactly_all cs
  rw [hcs, length_answer h] at hread
  rw [clientRead, hsize, hread]

/-- It is read at once by whoever waits for its size. -/
theorem readResult_answer {sizeBytes : BitVec 64} (hsize : sizeBytes.toNat = sizeofMsg + result.length)
    {cs : List Chunk} (hcs : cs.flatten = m.toBytes) (reads : Nat) :
    readResult sizeBytes (reads + 1) cs = done (m.toBytes, []) := by
  have hid : msgIdOf m.toBytes = MSG_RESULT := (msgIdOf_header m m.data).trans h.msgId
  rw [readResult, clientRead_answer h hsize hcs, done_bind, if_pos hid]
  rfl

/-- Its result is copied to where it is expected. -/
theorem getResult_answer {sizeBytes : BitVec 32} (hsize : (sizeBytes.signExtend 64).toNat = result.length)
    (hlt : sizeofMsg + result.length < 2 ^ 31) {cs : List Chunk} (hcs : cs.flatten = m.toBytes) {out : List UInt8}
    (hout : out.length = result.length) : getResult out sizeBytes cs = done (result, []) := by
  have hsize' : (((sizeBytes.signExtend 64 + BitVec.ofNat 64 sizeofMsg).setWidth 32).signExtend 64).toNat =
      sizeofMsg + result.length := by
    rw [BitVec.add_comm, toInt_sizeofMsg_add (by rwa [hsize]), hsize]
  unfold getResult
  dsimp only
  rw [clientRead_answer h hsize' hcs, done_bind, Msg.ofBytes_toBytes, h.data, memcpy_all h.dataBytes hout, done_bind]
  rfl

end Answers

end Hydrogen
