import Mathlib.Logic.Function.Iterate
import Mathlib.Data.List.Basic
import Hydrogen.Common.Wire

/-!
# A connection of the server

`connection::handle_read` (`MultiThreadedTCPServer.cpp`), byte by byte. The first read is asynchronous and its count,
`bytes_transferred`, is used for every message of the connection: if the message in the buffer is longer than that, the
rest is read by `ba::read`, which waits for all of it. The request is handled; if there is a reply it is written and
`read_some` puts whatever is there at the front of the buffer, over what was there before. The loop ends when the buffer
then has the id of `MSG_DONE` or `MSG_TERM`.

The peer sends one message after each reply and closes the connection at the end. What the socket delivers at a time, a
chunk, is up to the network. A write to or a `read_some` from a connection that was closed throws inside the `try`, and
leaves the buffer; a `ba::read` that the peer does not satisfy throws out of `handle_read`.
-/

namespace Hydrogen

/-! ## The socket -/

/-- The bytes one read delivers. -/
abbrev Chunk := List UInt8

/-- The size of `buffer_`. -/
def bufferSize : Nat := 192 * 1024 * 1024

/-- The receiving side of a connection. -/
structure Socket where
  /-- the chunks that have arrived -/
  arrived : List Chunk
  /-- the chunks of the messages the peer is going to send, each after one more reply -/
  coming : List (List Chunk)

/-- `ba::read`: exactly `n` bytes, or nothing. -/
def readExactly : List Chunk → Nat → Option (List UInt8 × List Chunk)
  | [], n => if n = 0 then some ([], []) else none
  | c :: cs, n =>
    if c.length ≤ n then (readExactly cs (n - c.length)).map fun r => (c ++ r.1, r.2)
    else some (c.take n, c.drop n :: cs)

/-- The peer has the reply and sends its next message. -/
def Socket.write (s : Socket) : Socket :=
  match s.coming with
  | [] => s
  | m :: ms => ⟨s.arrived ++ m, ms⟩

/-- `read_some`. -/
def Socket.readSome (s : Socket) : Option (Chunk × Socket) :=
  match s.arrived with
  | [] => none
  | c :: cs => some (c, { s with arrived := cs })

/-! ## The loop -/

/-- `handle_request`: a reply, or `NULL`. -/
abbrev Handler := List UInt8 → Option Msg

/-- How `handle_read` ended. -/
inductive Ending where
  /-- out of the loop -/
  | ended
  /-- by an exception -/
  | threw
  deriving DecidableEq

/-- The state of `handle_read` between two iterations. -/
structure Conn where
  buffer : List UInt8
  socket : Socket
  /-- the requests passed to `handle_request` -/
  requests : List (List UInt8)
  ending : Option Ending

/-- `int expectedBytes = request->totalBytes`, as it is compared with a `size_t`. -/
def expectedBytes (buffer : List UInt8) : BitVec 64 := ((totalBytesOf buffer).setWidth 32).signExtend 64

/-- `int size = expectedBytes - bytes_transferred`, as a number of bytes. -/
def missingBytes (bytesTransferred : Nat) (buffer : List UInt8) : Nat :=
  (((expectedBytes buffer - BitVec.ofNat 64 bytesTransferred).setWidth 32).signExtend 64).toNat

/-- The request in the buffer, completed if it is longer than the first read. -/
def fullRequest (bytesTransferred : Nat) (buffer : List UInt8) (arrived : List Chunk) :
    Option (List UInt8 × List Chunk) :=
  if bytesTransferred < (expectedBytes buffer).toNat then
    (readExactly arrived (missingBytes bytesTransferred buffer)).map fun r => (buffer.take bytesTransferred ++ r.1, r.2)
  else some (buffer.take (expectedBytes buffer).toNat, arrived)

/-- A chunk at the front of the buffer. -/
def overwrite (buffer : List UInt8) (c : Chunk) : List UInt8 := c ++ buffer.drop c.length

/-- Write the reply and read, if there is one; a failure leaves the buffer. -/
def writeBack (reply : Option Msg) (buffer : List UInt8) (s : Socket) : List UInt8 × Socket :=
  match reply with
  | none => (buffer, s)
  | some _ =>
    match s.write.readSome with
    | none => (buffer, s)
    | some (c, s) => (overwrite buffer c, s)

/-- The loop test, negated. -/
def Terminates (buffer : List UInt8) : Prop := msgIdOf buffer = MSG_DONE ∨ msgIdOf buffer = MSG_TERM

instance (buffer : List UInt8) : Decidable (Terminates buffer) := inferInstanceAs (Decidable (_ ∨ _))

/-- One iteration. -/
def Conn.step (handler : Handler) (bytesTransferred : Nat) (c : Conn) : Conn :=
  match c.ending with
  | some _ => c
  | none =>
    match fullRequest bytesTransferred c.buffer c.socket.arrived with
    | none => { c with ending := some .threw }
    | some (request, arrived) =>
      let r := writeBack (handler request) c.buffer ⟨arrived, c.socket.coming⟩
      { buffer := r.1
        socket := r.2
        requests := c.requests ++ [request]
        ending := if Terminates r.1 then some .ended else none }

/-- `connection::start`: the buffer after the first read, which delivered `c`. -/
def Conn.start (stale : List UInt8) (c : Chunk) (s : Socket) : Conn := ⟨overwrite stale c, s, [], none⟩

section Rules

variable (handler : Handler) (bytesTransferred : Nat)

/-- `handle_read` ends so, with these requests handled. -/
def Conn.Finishes (c : Conn) (e : Ending) (requests : List (List UInt8)) : Prop :=
  ∃ n, ((Conn.step handler bytesTransferred)^[n] c).ending = some e ∧
    ((Conn.step handler bytesTransferred)^[n] c).requests = requests

variable {handler bytesTransferred} {c : Conn} {e : Ending} {requests : List (List UInt8)}

theorem step_of_ending (h : c.ending = some e) : c.step handler bytesTransferred = c := by
  unfold Conn.step
  rw [h]

/-- **One iteration** does not change how the loop will finish. -/
theorem finishes_step (h : c.ending = none) : c.Finishes handler bytesTransferred e requests ↔
    (c.step handler bytesTransferred).Finishes handler bytesTransferred e requests := by
  constructor
  · rintro ⟨n, he, hr⟩
    cases n with
    | zero =>
      rw [Function.iterate_zero, id_eq, h] at he
      cases he
    | succ n => exact ⟨n, he, hr⟩
  · rintro ⟨n, he, hr⟩
    exact ⟨n + 1, he, hr⟩

theorem finishes_of_ending {e' : Ending} (h : c.ending = some e') :
    c.Finishes handler bytesTransferred e requests ↔ e = e' ∧ requests = c.requests := by
  have hfix : ∀ n, (Conn.step handler bytesTransferred)^[n] c = c := by
    intro n
    exact Function.iterate_fixed (step_of_ending h) n
  constructor
  · rintro ⟨n, he, hr⟩
    rw [hfix n] at he hr
    rw [h] at he
    exact ⟨(Option.some.inj he).symm, hr.symm⟩
  · rintro ⟨rfl, rfl⟩
    exact ⟨0, h, rfl⟩

/-- The requests handled are handled for good. -/
theorem requests_step (c : Conn) : c.requests <+: (c.step handler bytesTransferred).requests := by
  unfold Conn.step
  split
  · exact List.prefix_rfl
  · split
    · exact List.prefix_rfl
    · exact List.prefix_append _ _

theorem requests_of_finishes (h : c.Finishes handler bytesTransferred e requests) : c.requests <+: requests := by
  obtain ⟨n, -, rfl⟩ := h
  induction n with
  | zero => exact List.prefix_rfl
  | succ n ih =>
    rw [Function.iterate_succ_apply']
    exact ih.trans (requests_step _)

/-- **A loop that keeps an invariant** of running states does not finish. -/
theorem not_finishes {I : Conn → Prop} (h0 : I c)
    (hs : ∀ c, I c → c.ending = none ∧ I (c.step handler bytesTransferred)) :
    ¬c.Finishes handler bytesTransferred e requests := by
  rintro ⟨n, he, -⟩
  have hI : I ((Conn.step handler bytesTransferred)^[n] c) := by
    clear he
    induction n with
    | zero => exact h0
    | succ n ih =>
      rw [Function.iterate_succ_apply']
      exact (hs _ ih).2
  rw [(hs _ hI).1] at he
  cases he

end Rules

/-! ## Reading exactly -/

theorem readExactly_all : ∀ cs : List Chunk, readExactly cs cs.flatten.length = some (cs.flatten, [])
  | [] => rfl
  | c :: cs => by
    have hle : c.length ≤ (c :: cs).flatten.length := by
      rw [List.flatten_cons, List.length_append]
      exact Nat.le_add_right _ _
    have hrest : (c :: cs).flatten.length - c.length = cs.flatten.length := by
      rw [List.flatten_cons, List.length_append]
      omega
    rw [readExactly, if_pos hle, hrest, readExactly_all cs]
    rfl

theorem readExactly_short : ∀ (cs : List Chunk) {n : Nat}, cs.flatten.length < n → readExactly cs n = none
  | [], n, h => by
    have hn : n ≠ 0 := Nat.ne_of_gt h
    rw [readExactly, if_neg hn]
  | c :: cs, n, h => by
    rw [List.flatten_cons, List.length_append] at h
    rw [readExactly, if_pos (by omega), readExactly_short cs (by omega)]
    rfl

/-- What is read is as long as it was asked for. -/
theorem length_readExactly : ∀ {cs : List Chunk} {n : Nat} {bs : List UInt8} {rest : List Chunk},
    readExactly cs n = some (bs, rest) → bs.length = n
  | [], n, bs, rest, h => by
    unfold readExactly at h
    split at h
    · cases h
      exact Eq.symm ‹n = 0›
    · cases h
  | c :: cs, n, bs, rest, h => by
    unfold readExactly at h
    split at h
    · obtain ⟨r, hr, hpair⟩ := Option.map_eq_some_iff.mp h
      cases hpair
      rw [List.length_append, @length_readExactly cs (n - c.length) r.1 r.2 hr]
      omega
    · cases h
      rw [List.length_take]
      omega

/-! ## A message in the buffer -/

section Header

/-- Nothing read yet: all that is expected is missing. -/
theorem missingBytes_zero (buffer : List UInt8) : missingBytes 0 buffer = (expectedBytes buffer).toNat := by
  have hlow : (expectedBytes buffer).setWidth 32 = (totalBytesOf buffer).setWidth 32 := by
    unfold expectedBytes
    generalize (totalBytesOf buffer).setWidth 32 = x
    apply BitVec.eq_of_getLsbD_eq
    intro i hi
    have h64 : i < 64 := by omega
    simp only [BitVec.getLsbD_setWidth, BitVec.getLsbD_signExtend, hi, h64, decide_true, Bool.true_and, if_true]
  rw [missingBytes, BitVec.sub_zero, hlow]
  rfl

variable (m : Sent) {k : Nat} (hk : sizeEnd ≤ k) (rest : List UInt8)
include hk

theorem expectedBytes_take : (expectedBytes (m.bytes.take k ++ rest)).toNat = m.bytes.length := by
  have hfits : m.msg.totalBytes.toNat < 2 ^ 31 := by
    rw [m.total]
    exact m.fits
  rw [expectedBytes, m.totalBytesOf_take hk, toInt_of_lt hfits, m.total, m.length_bytes]

theorem missingBytes_take {bytesTransferred : Nat} (h : bytesTransferred ≤ m.bytes.length) :
    missingBytes bytesTransferred (m.bytes.take k ++ rest) = m.bytes.length - bytesTransferred := by
  have hlt := m.length_lt
  have hexp := expectedBytes_take m hk rest
  have hsub : (expectedBytes (m.bytes.take k ++ rest) - BitVec.ofNat 64 bytesTransferred).toNat =
      m.bytes.length - bytesTransferred := by
    have hle : BitVec.ofNat 64 bytesTransferred ≤ expectedBytes (m.bytes.take k ++ rest) := by
      rw [BitVec.le_def, BitVec.toNat_ofNat, hexp]
      exact Nat.le_trans (Nat.mod_le _ _) h
    rw [BitVec.toNat_sub_of_le hle, hexp, BitVec.toNat_ofNat, Nat.mod_eq_of_lt (by omega)]
  rw [missingBytes, toInt_of_lt (by omega), hsub]

omit hk in
theorem terminates_take (hk : idEnd ≤ k) : Terminates (m.bytes.take k ++ rest) ↔ m.Terminal := by
  rw [Terminates, m.msgIdOf_take hk, Sent.Terminal]

end Header

end Hydrogen
