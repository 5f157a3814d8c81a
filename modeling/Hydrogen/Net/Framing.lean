import Hydrogen.Net.Session

/-!
# Framing and chunks

A connection carries messages of any length in chunks of any length. The first message is completed from the count of
the first read. The same count is used for the messages after it, although it says nothing about them: of a message that
is longer, `handle_read` takes as much from the buffer as the first read brought, and of a shorter one all. So the
requests handled are the messages sent if just that much of every message between the first and the last is in its first
chunk, and none of them ends the loop; and there is a first one besides the last, because a session of one message
handles it before it looks at its id. With less, stale bytes are taken for the rest of the message; with more, or an id
that ends the loop, the requests are never those sent (`framed_iff`).
-/

namespace Hydrogen

/-- `handle_read` ends and has handled just the messages before `last`, in their order. -/
def Framed (handler : Handler) (stale : List UInt8) (ms : List Delivery) (last : Delivery) : Prop :=
  match ms with
  | [] => (session stale last []).Finishes handler last.first.length .ended []
  | d :: ms => (session stale d (ms ++ [last])).Finishes handler d.first.length .ended
      ((d :: ms).map fun x => x.sent.bytes)

/-- There is a first message, and of the others, of which none ends the loop, just as much is in the first chunk as is
taken from there. -/
def Kept : List Delivery → Prop
  | [] => False
  | d :: ms => ∀ x ∈ ms, ¬x.sent.Terminal ∧ Aligned d.first.length x

/-- Nothing stale is taken for a part of a message. -/
def AllFilled : List Delivery → Prop
  | [] => True
  | d :: ms => ∀ x ∈ ms, Filled d.first.length x

section Framing

variable {handler : Handler} {last : Delivery} (hlast : last.sent.Terminal) {bt : Nat} (hbt : sizeEnd ≤ bt)
include hlast hbt

/-- **Message by message**: those that are aligned are handled one after the other, up to the last; and one that is not
is not handled, or it is taken with stale bytes. -/
theorem finishes_iff_aligned : ∀ (ms : List Delivery) {c : Conn} {d : Delivery},
    (∀ x ∈ ms ++ [last], idEnd ≤ x.first.length) → (∀ x ∈ d :: ms, handler x.sent.bytes ≠ none) →
    Ready bt c d.sent ((ms ++ [last]).map Delivery.chunks) →
    ((∀ x ∈ ms, ¬x.sent.Terminal ∧ Aligned bt x) →
      c.Finishes handler bt .ended (c.requests ++ (d :: ms).map fun x => x.sent.bytes)) ∧
    ((∀ x ∈ ms, Filled bt x) → c.Finishes handler bt .ended (c.requests ++ (d :: ms).map fun x => x.sent.bytes) →
      ∀ x ∈ ms, ¬x.sent.Terminal ∧ Aligned bt x)
  | [], c, d, hid, hreply, h => by
    have hstep := h.step_next (hreply d List.mem_cons_self) (hid last List.mem_cons_self)
    refine ⟨fun _ => ?_, fun _ _ x hx => (by cases hx)⟩
    rw [finishes_step h.running, hstep, if_pos hlast]
    exact (finishes_of_ending rfl).mpr ⟨rfl, rfl⟩
  | x :: ms, c, d, hid, hreply, h => by
    have hstep := h.step_next (hreply d List.mem_cons_self) (hid x List.mem_cons_self)
    rw [finishes_step h.running]
    by_cases hterm : x.sent.Terminal
    · -- the loop ends before this message is handled
      refine ⟨fun hall => absurd hterm (hall x List.mem_cons_self).1, fun _ hf => ?_⟩
      rw [hstep, if_pos hterm, finishes_of_ending rfl] at hf
      have hlen := congrArg List.length hf.2
      simp only [List.map_cons, List.length_append, List.length_cons, List.length_map, List.length_nil] at hlen
      omega
    · rw [if_neg hterm] at hstep
      have hle := x.length_first_le
      by_cases haligned : Aligned bt x
      · have hready : Ready bt (c.step handler bt) x.sent ((ms ++ [last]).map Delivery.chunks) := by
          rw [hstep]
          exact ready_of_aligned hbt rfl rfl rfl rfl haligned
        have hrequests : (c.step handler bt).requests = c.requests ++ [d.sent.bytes] := by rw [hstep]
        obtain ⟨hsuff, hnec⟩ := finishes_iff_aligned ms (fun y hy => hid y (List.mem_cons_of_mem _ hy))
          (fun y hy => hreply y (List.mem_cons_of_mem _ hy)) hready
        rw [hrequests, List.append_assoc] at hsuff hnec
        refine ⟨fun hall => hsuff fun y hy => hall y (List.mem_cons_of_mem _ hy), fun hfilled hf y hy => ?_⟩
        rcases List.mem_cons.mp hy with rfl | hy
        · exact ⟨hterm, haligned⟩
        · exact hnec (fun z hz => hfilled z (List.mem_cons_of_mem _ hz)) hf y hy
      · refine ⟨fun hall => absurd (hall x List.mem_cons_self).2 haligned, fun hfilled hf => ?_⟩
        have hlong : bt < x.first.length := by
          have := hfilled x List.mem_cons_self
          unfold Filled at this
          unfold Aligned at haligned
          omega
        -- too much is in the buffer, so too little is there for `ba::read`
        have hstarved : fullRequest bt (overwrite c.buffer x.first) x.rest = none := fullRequest_first hbt hlong
        rw [hstep] at hf
        have hthrew := (finishes_starved (c := ⟨overwrite c.buffer x.first,
          ⟨x.rest, (ms ++ [last]).map Delivery.chunks⟩, c.requests ++ [d.sent.bytes], none⟩) rfl hstarved).mp hf
        cases hthrew.1

end Framing

/-- A session of one message handles it. -/
theorem not_framed_nil {handler : Handler} {stale : List UInt8} {last : Delivery}
    (hsize : sizeEnd ≤ last.first.length) : ¬Framed handler stale [] last := by
  intro h
  have hready := session_ready stale hsize []
  have hf := (finishes_step hready.running).mp h
  rw [hready.step_left (.inr rfl)] at hf
  have hlen := (requests_of_finishes hf).length_le
  simp only [List.length_append, List.length_singleton, List.length_nil] at hlen
  omega

/-- **Framing**: of messages whose headers are not cut and which get their replies, `handle_read` handles those before
the last one, which ends the loop, if there are any and just as much of each but the first is in the first chunk as is
taken from there; and only if, when nothing stale is taken for a part of a message. -/
theorem framed_iff (handler : Handler) (stale : List UInt8) (ms : List Delivery) (last : Delivery)
    (hheader : ∀ x ∈ ms ++ [last], sizeofMsg ≤ x.first.length) (hreply : ∀ x ∈ ms, handler x.sent.bytes ≠ none)
    (hlast : last.sent.Terminal) :
    (Kept ms → Framed handler stale ms last) ∧ (AllFilled ms → (Framed handler stale ms last ↔ Kept ms)) := by
  have hsize : ∀ x ∈ ms ++ [last], sizeEnd ≤ x.first.length := fun x hx => Nat.le_trans sizeEnd_le (hheader x hx)
  cases ms with
  | nil =>
    have hnot : ¬Framed handler stale [] last := not_framed_nil (hsize last List.mem_cons_self)
    exact ⟨fun h => h.elim, fun _ => ⟨fun h => hnot h, fun h => h.elim⟩⟩
  | cons d ms =>
    have hfirst := hsize d List.mem_cons_self
    obtain ⟨hsuff, hnec⟩ := finishes_iff_aligned hlast hfirst ms
      (fun x hx => Nat.le_trans idEnd_le (hsize x (List.mem_cons_of_mem _ hx))) hreply
      (session_ready stale hfirst (ms ++ [last]))
    exact ⟨hsuff, fun hfilled => ⟨hnec hfilled, hsuff⟩⟩

/-- A request for the moving average of one number. -/
def averageSent (b : UInt8) : Sent where
  msg := { msgEmpty with msgId := MSG_MOVING_AVG, dataSize := 1, totalBytes := 73, dataBytes := 4, data := [b, 0, 0, 0] }
  total := rfl
  fits := (by decide : sizeofMsg + 4 < 2 ^ 31)

theorem length_averageSent (b : UInt8) : (averageSent b).bytes.length = 73 := (averageSent b).length_bytes

theorem length_average (b : UInt8) : (averageSent b).filling.first.length = 73 := by
  rw [Sent.length_filling, length_averageSent]
  rfl

/-- Two such requests and `MSG_DONE`, in one chunk each. -/
theorem framed_iff_uncut : Framed (fun _ => some msgAck) [] [(averageSent 7).filling, (averageSent 8).filling]
    (bareSent MSG_DONE).filling := by
  have haverage : ∀ b, sizeofMsg ≤ (averageSent b).filling.first.length := fun b => by
    rw [length_average]
    decide
  obtain ⟨hsuff, -⟩ := framed_iff (fun _ => some msgAck) [] [(averageSent 7).filling, (averageSent 8).filling]
    (bareSent MSG_DONE).filling (by simp [haverage, bare_header]) (fun _ _ => by simp) (.inl rfl)
  refine hsuff fun x hx => ?_
  obtain rfl := List.mem_singleton.mp hx
  refine ⟨by decide, ?_⟩
  rw [Aligned, length_average, length_average]
  rfl

/-- With stale bytes the requests may be right by chance: what is taken for the last four bytes of the second request is
left from the first, and those that come next are read as the id of `MSG_DONE`. -/
example : Framed (fun _ => some msgAck) [] [(averageSent 0).filling,
    .cut sizeofMsg (Nat.le_refl _) (by decide) (averageSent 0)] (bareSent MSG_DONE).filling :=
  ⟨2, by decide +kernel, by decide +kernel⟩

/-- A message cut one byte behind its header. -/
def Sent.cutBehind (m : Sent) : Delivery := .cut (sizeofMsg + 1) (by decide) (by decide) m

/-- The second request has data: cut one byte behind its header it is never handled. -/
theorem framed_data_lost : ¬∀ (handler : Handler) (stale : List UInt8) (ms : List Delivery) (last : Delivery),
    (∀ x ∈ ms ++ [last], sizeofMsg ≤ x.first.length) → (∀ x ∈ ms, handler x.sent.bytes ≠ none) → last.sent.Terminal →
      Framed handler stale ms last := by
  intro h
  have hcut : (averageSent 7).cutBehind.first.length = 70 := by
    have htake : (averageSent 7).cutBehind.first.length = min (sizeofMsg + 1) (averageSent 7).bytes.length :=
      List.length_take
    rw [htake, length_averageSent]
    rfl
  have hsize : (averageSent 7).cutBehind.sent.bytes.length = 73 := length_averageSent 7
  have hheader : ∀ x ∈ [(averageSent 7).cutBehind] ++ [(bareSent MSG_DONE).filling], sizeofMsg ≤ x.first.length := by
    have hfirst : sizeofMsg ≤ (averageSent 7).cutBehind.first.length := by
      rw [hcut]
      decide
    simp [hfirst, bare_header]
  have hframed := h (fun _ => some msgAck) [] [(bareSent MSG_OPTION_PRICE).filling, (averageSent 7).cutBehind]
    (bareSent MSG_DONE).filling (List.forall_mem_cons.mpr ⟨bare_header _, hheader⟩) (fun _ _ => by simp) (.inl rfl)
  have hbt := bare_size MSG_OPTION_PRICE
  have hready := session_ready [] hbt ([(averageSent 7).cutBehind] ++ [(bareSent MSG_DONE).filling])
  obtain ⟨-, hnec⟩ := @finishes_iff_aligned (fun _ => some msgAck) (bareSent MSG_DONE).filling (.inl rfl) _ hbt
    [(averageSent 7).cutBehind] _ _ (fun x hx => Nat.le_trans idEnd_le (Nat.le_trans sizeEnd_le (hheader x hx)))
    (fun _ _ => by simp) hready
  have hfilled : ∀ x ∈ [(averageSent 7).cutBehind], Filled (bareSent MSG_OPTION_PRICE).filling.first.length x := by
    intro x hx
    obtain rfl := List.mem_singleton.mp hx
    rw [Filled, length_bare, hcut, hsize]
    decide
  have haligned := (hnec hfilled hframed _ List.mem_cons_self).2
  rw [Aligned, length_bare, hcut, hsize] at haligned
  exact absurd haligned (by decide)

end Hydrogen
