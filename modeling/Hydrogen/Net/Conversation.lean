import Hydrogen.Net.Client
import Hydrogen.Net.Framing

/-!
# Conversations

The connections of the repository's own clients are short. A call, and likewise a request that is forwarded, is sent on
a connection of its own: `Client::send`, a read of the reply, and `Client::stop`, which sends `MSG_DONE`. Such a
conversation goes well however the network cuts the three messages, behind the size of the request and the id of the
last (`call_conversation`), although longer sessions may not. A client that is gone after its request leaves a worker
that handles it for ever, unless the first read was short (`call_abandoned`). `TerminateServer` sends `MSG_TERM` and
nothing else (`term_conversation`).

Only requests of which the first read has the size, which ends at byte 61 of the header, are considered, and closing
messages with the id in one piece: with less, what the server takes for the size or the id is in part what the buffer
had before.
-/

namespace Hydrogen

open Exec

/-- What `Client::stop` sends. -/
def doneSent : Sent := bareSent MSG_DONE

/-- What `TerminateServer` sends. -/
def termSent : Sent := bareSent MSG_TERM

theorem call_not_terminal (c : Call) (st : Stamp) : ¬(c.sent st).Terminal := by
  have hid : (c.sent st).msg.msgId = c.msg.msgId := rfl
  rintro (hterm | hterm)
  · rw [hid] at hterm
    rcases c.msgId with h | h <;> rw [h] at hterm <;> exact absurd hterm (by decide)
  · rw [hid] at hterm
    rcases c.msgId with h | h <;> rw [h] at hterm <;> exact absurd hterm (by decide)

/-- **A call goes well**: however its request is cut behind its size, the closing message behind its id, and the reply
anywhere, and whatever the buffer of the server had in it, the server handles just this request, once, and ends; the
reply is written whole; and the client has the result, with nothing left to read. -/
theorem call_conversation (handler : Handler) (c : Call) (st : Stamp) (reply : Msg) (result : List UInt8)
    (hreply : handler (c.sent st).bytes = some reply) (hans : Answer result reply) (hlen : result.length = c.outBytes)
    (stale : List UInt8) (request close : Delivery) (hrequest : request.sent = c.sent st)
    (hsize : sizeEnd ≤ request.first.length) (hclose : close.sent = doneSent) (hid : idEnd ≤ close.first.length) :
    (session stale request [close]).Finishes handler request.first.length .ended [(c.sent st).bytes] ∧
      writeMsg reply = done reply.toBytes ∧
      ∀ cs out, cs.flatten = reply.toBytes → out.length = c.outBytes →
        getResult out c.sizeBytes cs = done (result, []) := by
  refine ⟨?_, writeMsg_answer hans, fun cs out hcs hout => ?_⟩
  · have hready := session_ready stale hsize [close]
    rw [hrequest] at hready
    have hlast : close.sent.Terminal := by
      rw [hclose]
      exact .inl rfl
    have hsome : handler (c.sent st).bytes ≠ none := by
      rw [hreply]
      exact Option.some_ne_none _
    rw [finishes_step hready.running, hready.step_next hsome hid, if_pos hlast]
    exact (finishes_of_ending rfl).mpr ⟨rfl, rfl⟩
  · exact getResult_answer hans (by rw [c.toNat_sizeBytes, hlen]) (by rw [hlen]; exact c.outBytes_lt) hcs
      (hout.trans hlen.symm)

/-- An option that is worth nothing. -/
def zeroOption : Call := .optionPricing ⟨0, 0, 0, 0, 0, 0, 0⟩

/-- Its request. -/
def zeroSent : Sent := zeroOption.sent ⟨1, 0, 0, 0, 0, 0⟩

/-- Its price. -/
def zeroPrice : Msg :=
  { msgEmpty with msgId := MSG_RESULT, dataSize := 1, totalBytes := 77, dataBytes := 8, data := List.replicate 8 0 }

theorem zeroSent_size : sizeEnd ≤ zeroSent.filling.first.length := by
  rw [Sent.length_filling]
  decide

theorem call_conversation_zero : (session [] zeroSent.filling [doneSent.filling]).Finishes (fun _ => some zeroPrice)
    zeroSent.filling.first.length .ended [zeroSent.bytes] :=
  (call_conversation (fun _ => some zeroPrice) zeroOption ⟨1, 0, 0, 0, 0, 0⟩ zeroPrice (List.replicate 8 0) rfl
    ⟨rfl, rfl, by decide, by decide⟩ rfl [] _ _ rfl zeroSent_size rfl
    (Nat.le_trans idEnd_le (bare_size MSG_DONE))).1

/-! ## Clients that are gone -/

section Gone

variable (handler : Handler) {bt : Nat} {c : Conn} {m : Sent}

/-- A request in the buffer of a closed connection is handled, and is in the buffer again. -/
theorem Ready.again (h : Ready bt c m []) (hterm : ¬m.Terminal) (hlen : m.bytes.length ≤ bt) :
    Ready bt (c.step handler bt) m [] ∧ (c.step handler bt).requests = c.requests ++ [m.bytes] := by
  have hfull := h.full
  rw [h.arrived_nil hlen] at hfull
  rw [h.step_left (.inr rfl), if_neg hterm]
  exact ⟨⟨rfl, hfull, h.holds, rfl⟩, rfl⟩

/-- So it is handled for ever. -/
theorem Ready.forever (h : Ready bt c m []) (hterm : ¬m.Terminal) (hlen : m.bytes.length ≤ bt) (n : Nat) :
    Ready bt ((Conn.step handler bt)^[n] c) m [] ∧
      ((Conn.step handler bt)^[n] c).requests = c.requests ++ List.replicate n m.bytes := by
  induction n with
  | zero => exact ⟨h, (List.append_nil _).symm⟩
  | succ n ih =>
    obtain ⟨hready, hrequests⟩ := ih
    obtain ⟨hnext, hmore⟩ := hready.again handler hterm hlen
    rw [Function.iterate_succ_apply']
    refine ⟨hnext, ?_⟩
    rw [hmore, hrequests, List.append_assoc, List.replicate_succ']

/-- A longer one is waited for in vain when it has been handled. -/
theorem Ready.threw (h : Ready bt c m []) (hterm : ¬m.Terminal) (hlen : bt < m.bytes.length) :
    c.Finishes handler bt .threw (c.requests ++ [m.bytes]) := by
  rw [finishes_step h.running, h.step_left (.inr rfl), if_neg hterm]
  obtain ⟨k, rest, hk, hbuf⟩ := h.holds
  have hstarved : fullRequest bt c.buffer [] = none := by
    rw [hbuf]
    refine fullRequest_starved hk hlen ?_
    show 0 < m.bytes.length - bt
    omega
  exact (finishes_starved rfl hstarved).mpr ⟨rfl, rfl⟩

end Gone

/-- **A client that is gone after its request**: if the first read had the whole request, the worker handles it again and
again and never ends; if not, but its size, it handles it once and ends by an exception. -/
theorem call_abandoned (handler : Handler) (c : Call) (st : Stamp) (stale : List UInt8) (request : Delivery)
    (hrequest : request.sent = c.sent st) (hsize : sizeEnd ≤ request.first.length) :
    (request.first.length < (c.sent st).bytes.length →
      (session stale request []).Finishes handler request.first.length .threw [(c.sent st).bytes]) ∧
    (request.first.length = (c.sent st).bytes.length → ∀ n,
      ((Conn.step handler request.first.length)^[n] (session stale request [])).ending = none ∧
      ((Conn.step handler request.first.length)^[n] (session stale request [])).requests =
        List.replicate n (c.sent st).bytes) := by
  have hterm := call_not_terminal c st
  have hready := session_ready stale hsize []
  rw [hrequest] at hready
  refine ⟨fun hshort => hready.threw handler hterm hshort, fun hwhole n => ?_⟩
  obtain ⟨hrun, hrequests⟩ := hready.forever handler hterm (Nat.le_of_eq hwhole.symm) n
  exact ⟨hrun.running, hrequests⟩

theorem call_abandoned_zero : zeroSent.filling.first.length = zeroSent.bytes.length ∧ ∀ n,
    ((Conn.step (fun _ => some zeroPrice) zeroSent.filling.first.length)^[n]
      (session [] zeroSent.filling [])).requests = List.replicate n zeroSent.bytes := by
  have hwhole : zeroSent.filling.first.length = zeroSent.bytes.length := by
    rw [Sent.length_filling]
    decide
  exact ⟨hwhole, fun n => ((call_abandoned _ zeroOption ⟨1, 0, 0, 0, 0, 0⟩ [] _ rfl zeroSent_size).2 hwhole n).2⟩

/-- **`TerminateServer`**: the one message is handled once and the loop ends, whether it is replied to or not. -/
theorem term_conversation (handler : Handler) (stale : List UInt8) (request : Delivery)
    (hrequest : request.sent = termSent) (hsize : sizeEnd ≤ request.first.length) :
    (session stale request []).Finishes handler request.first.length .ended [termSent.bytes] := by
  have hready := session_ready stale hsize []
  rw [hrequest] at hready
  rw [finishes_step hready.running, hready.step_left (.inr rfl), if_pos (.inr rfl)]
  exact (finishes_of_ending rfl).mpr ⟨rfl, rfl⟩

end Hydrogen
