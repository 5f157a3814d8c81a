import Hydrogen.Net.Connection

/-!
# Sessions

A session is a first message, which starts `handle_read`, and the messages the peer sends after the replies. The
network cuts a message into chunks (`Delivery`).

`handle_read` gets out of its loop only by what is in its buffer: an id that ends the loop, or a length above the count
of the first read, for which the peer has no more bytes. A message that is handled twice is handled for ever: if there
is no reply, or nothing more to read, the buffer stays as it is. So a session ends, and no request is handled twice, if
the loop runs into a message that ends it before it is left with one that does not (`Quits`); and only if, unless stale
bytes of the buffer are taken for a part of a message (`session_ends_iff`).
-/

namespace Hydrogen

/-! ## Deliveries -/

/-- A message and the chunks it arrives in. -/
structure Delivery where
  sent : Sent
  first : Chunk
  rest : List Chunk
  whole : first ++ rest.flatten = sent.bytes
  nonempty : ∀ c ∈ first :: rest, c ≠ []
  fits : ∀ c ∈ first :: rest, c.length ≤ bufferSize

namespace Delivery

/-- The chunks. -/
def chunks (d : Delivery) : List Chunk := d.first :: d.rest

theorem length_first_le (d : Delivery) : d.first.length ≤ d.sent.bytes.length := by
  rw [← d.whole, List.length_append]
  exact Nat.le_add_right _ _

theorem first_eq (d : Delivery) : d.first = d.sent.bytes.take d.first.length := by
  rw [← d.whole, List.take_left]

theorem rest_flatten (d : Delivery) : d.rest.flatten = d.sent.bytes.drop d.first.length := by
  rw [← d.whole, List.drop_left]

/-- What is left after a first chunk with everything is nothing. -/
theorem rest_nil (d : Delivery) (h : d.sent.bytes.length ≤ d.first.length) : d.rest = [] := by
  have hflat : d.rest.flatten = [] := by
    rw [d.rest_flatten]
    exact List.drop_eq_nil_of_le h
  rw [List.eq_nil_iff_forall_not_mem]
  intro c hc
  exact d.nonempty c (List.mem_cons_of_mem _ hc) (List.flatten_eq_nil_iff.mp hflat c hc)

/-- A message in a chunk of `k` bytes, if it is so long, and then byte by byte. -/
def cut (k : Nat) (h1 : sizeofMsg ≤ k) (h2 : k ≤ bufferSize) (m : Sent) : Delivery where
  sent := m
  first := m.bytes.take k
  rest := (m.bytes.drop k).map fun b => [b]
  whole := by
    have hflat : ∀ l : List UInt8, (l.map fun b => [b]).flatten = l := by
      intro l
      induction l with
      | nil => rfl
      | cons b l ih => rw [List.map_cons, List.flatten_cons, ih, List.singleton_append]
    rw [hflat, List.take_append_drop]
  nonempty := by
    intro c hc
    rcases List.mem_cons.mp hc with rfl | hc
    · have hlen : sizeofMsg ≤ (m.bytes.take k).length := by
        rw [List.length_take]
        exact Nat.le_min.mpr ⟨h1, m.sizeofMsg_le⟩
      exact List.ne_nil_of_length_pos (Nat.lt_of_lt_of_le (by decide) hlen)
    · obtain ⟨b, -, rfl⟩ := List.mem_map.mp hc
      exact List.cons_ne_nil _ _
  fits := by
    intro c hc
    rcases List.mem_cons.mp hc with rfl | hc
    · rw [List.length_take]
      exact Nat.le_trans (Nat.min_le_left _ _) h2
    · obtain ⟨b, -, rfl⟩ := List.mem_map.mp hc
      exact Nat.le_trans (by decide : 1 ≤ sizeofMsg) (Nat.le_trans h1 h2)

end Delivery

/-- A message that one read takes as far as the buffer goes. -/
def Sent.filling (m : Sent) : Delivery := .cut bufferSize (by decide) (Nat.le_refl _) m

theorem Sent.length_filling (m : Sent) : m.filling.first.length = min bufferSize m.bytes.length := List.length_take

/-- The connection when `handle_read` is called: `stale` is what the buffer had before, `d` is the first message, and
the peer goes on to send `ds`. -/
def session (stale : List UInt8) (d : Delivery) (ds : List Delivery) : Conn :=
  Conn.start stale d.first ⟨d.rest, ds.map Delivery.chunks⟩

/-! ## The request in the buffer -/

section Requests

variable {bt : Nat} {m : Sent} {rest : List UInt8} {arrived : List Chunk}

/-- A message no longer than the first read that is there whole. -/
theorem fullRequest_whole (hlen : m.bytes.length ≤ bt) :
    fullRequest bt (m.bytes ++ rest) arrived = some (m.bytes, arrived) := by
  have hexp := expectedBytes_take m (Nat.le_trans sizeEnd_le m.sizeofMsg_le) rest
  rw [List.take_length] at hexp
  rw [fullRequest, hexp, if_neg (by omega), List.take_left]

/-- A longer one of which as much is there as the first read brought; the rest has arrived. -/
theorem fullRequest_rest (hbt : sizeEnd ≤ bt) (hlen : bt < m.bytes.length)
    (harr : arrived.flatten = m.bytes.drop bt) :
    fullRequest bt (m.bytes.take bt ++ rest) arrived = some (m.bytes, []) := by
  have hsize : m.bytes.length - bt = arrived.flatten.length := by
    rw [harr, List.length_drop]
  have hfront : (m.bytes.take bt ++ rest).take bt = m.bytes.take bt := by
    refine List.take_left' ?_
    rw [List.length_take]
    omega
  rw [fullRequest, hfront, expectedBytes_take m hbt, if_pos hlen, missingBytes_take m hbt _ (by omega), hsize,
    readExactly_all, harr]
  show some (m.bytes.take bt ++ m.bytes.drop bt, _) = _
  rw [List.take_append_drop]

/-- A longer one, with less to come than the first read leaves to be read. -/
theorem fullRequest_starved {k : Nat} (hk : sizeEnd ≤ k) (hlen : bt < m.bytes.length)
    (harr : arrived.flatten.length < m.bytes.length - bt) :
    fullRequest bt (m.bytes.take k ++ rest) arrived = none := by
  rw [fullRequest, expectedBytes_take m hk, if_pos hlen, missingBytes_take m hk _ (by omega),
    readExactly_short arrived harr]
  rfl

theorem terminates_first {d : Delivery} (hid : idEnd ≤ d.first.length) {buffer : List UInt8} :
    Terminates (overwrite buffer d.first) ↔ d.sent.Terminal := by
  rw [overwrite, d.first_eq]
  exact terminates_take d.sent _ hid

end Requests

/-! ## One iteration -/

/-- The message `m` is about to be handled as it was sent, and nothing else has arrived. -/
structure Ready (bt : Nat) (c : Conn) (m : Sent) (coming : List (List Chunk)) : Prop where
  running : c.ending = none
  full : fullRequest bt c.buffer c.socket.arrived = some (m.bytes, [])
  holds : ∃ k rest, sizeEnd ≤ k ∧ c.buffer = m.bytes.take k ++ rest
  coming : c.socket.coming = coming

section Iteration

variable {handler : Handler} {bt : Nat} {c : Conn} {m : Sent} {coming : List (List Chunk)}

/-- A message of which just as much is in the buffer as `handle_read` takes from it. -/
def Aligned (bt : Nat) (d : Delivery) : Prop := d.first.length = min bt d.sent.bytes.length

instance (bt : Nat) (d : Delivery) : Decidable (Aligned bt d) := inferInstanceAs (Decidable (_ = _))

/-- It is handled as it was sent. -/
theorem ready_of_aligned {d : Delivery} {rest : List UInt8} (hbt : sizeEnd ≤ bt) (hrun : c.ending = none)
    (hbuf : c.buffer = d.first ++ rest) (harr : c.socket.arrived = d.rest) (hcoming : c.socket.coming = coming)
    (h : Aligned bt d) : Ready bt c d.sent coming := by
  have hfirst := d.first_eq
  have hsize : sizeEnd ≤ d.sent.bytes.length := Nat.le_trans sizeEnd_le d.sent.sizeofMsg_le
  unfold Aligned at h
  refine ⟨hrun, ?_, ⟨d.first.length, rest, by omega, by rw [hbuf, ← hfirst]⟩, hcoming⟩
  rw [hbuf, harr]
  by_cases hlen : d.sent.bytes.length ≤ bt
  · have hall : d.first.length = d.sent.bytes.length := by omega
    rw [hall, List.take_length] at hfirst
    rw [hfirst, d.rest_nil (by omega)]
    exact fullRequest_whole hlen
  · have hshort : d.first.length = bt := by omega
    have hflat := d.rest_flatten
    rw [hshort] at hfirst hflat
    rw [hfirst]
    exact fullRequest_rest hbt (by omega) hflat

/-- So is the first message, if the first read has its size. -/
theorem session_ready (stale : List UInt8) {d : Delivery} (hsize : sizeEnd ≤ d.first.length) (ds : List Delivery) :
    Ready d.first.length (session stale d ds) d.sent (ds.map Delivery.chunks) :=
  ready_of_aligned hsize rfl rfl rfl rfl (Nat.min_eq_left d.length_first_le).symm

theorem Ready.terminates_iff (h : Ready bt c m coming) : Terminates c.buffer ↔ m.Terminal := by
  obtain ⟨k, rest, hk, hbuf⟩ := h.holds
  rw [hbuf]
  exact terminates_take m rest (Nat.le_trans idEnd_le hk)

/-- Without a reply, or without more to read, the buffer stays. -/
theorem Ready.step_left (h : Ready bt c m coming) (hno : handler m.bytes = none ∨ coming = []) :
    c.step handler bt =
      ⟨c.buffer, ⟨[], coming⟩, c.requests ++ [m.bytes], if m.Terminal then some .ended else none⟩ := by
  have hcoming := h.coming
  have hback : writeBack (handler m.bytes) c.buffer ⟨[], c.socket.coming⟩ = (c.buffer, ⟨[], coming⟩) := by
    rw [hcoming]
    rcases hno with hno | rfl
    · rw [hno]
      rfl
    · cases handler m.bytes with
      | none => rfl
      | some r => rfl
  unfold Conn.step
  rw [h.running, h.full]
  simp only [hback, h.terminates_iff]

/-- With a reply, the next message comes; here its first chunk has the id. -/
theorem Ready.step_next {d : Delivery} {ds : List (List Chunk)} (h : Ready bt c m (d.chunks :: ds))
    (hreply : handler m.bytes ≠ none) (hid : idEnd ≤ d.first.length) :
    c.step handler bt = ⟨overwrite c.buffer d.first, ⟨d.rest, ds⟩, c.requests ++ [m.bytes],
      if d.sent.Terminal then some .ended else none⟩ := by
  obtain ⟨r, hr⟩ := Option.ne_none_iff_exists'.mp hreply
  have hback : writeBack (handler m.bytes) c.buffer ⟨[], c.socket.coming⟩ =
      (overwrite c.buffer d.first, ⟨d.rest, ds⟩) := by
    rw [hr, h.coming]
    rfl
  unfold Conn.step
  rw [h.running, h.full]
  simp only [hback, terminates_first hid]

/-- A message of which more is in the buffer than `handle_read` takes from it: `ba::read` waits for bytes that do not
come. -/
theorem fullRequest_first {d : Delivery} {rest : List UInt8} (hbt : sizeEnd ≤ bt) (hlen : bt < d.first.length) :
    fullRequest bt (d.first ++ rest) d.rest = none := by
  have hle := d.length_first_le
  rw [d.first_eq]
  refine fullRequest_starved (by omega) (by omega) ?_
  rw [d.rest_flatten, List.length_drop]
  omega

/-- A message for which too little has arrived ends the loop by an exception. -/
theorem step_starved (hrun : c.ending = none) (hfull : fullRequest bt c.buffer c.socket.arrived = none) :
    c.step handler bt = { c with ending := some .threw } := by
  unfold Conn.step
  rw [hrun, hfull]

theorem finishes_starved {e : Ending} {requests : List (List UInt8)} (hrun : c.ending = none)
    (hfull : fullRequest bt c.buffer c.socket.arrived = none) :
    c.Finishes handler bt e requests ↔ e = .threw ∧ requests = c.requests := by
  rw [finishes_step hrun, step_starved hrun hfull]
  exact finishes_of_ending rfl

/-- A request no longer than the first read is in the buffer. -/
theorem Ready.arrived_nil (h : Ready bt c m coming) (hlen : m.bytes.length ≤ bt) : c.socket.arrived = [] := by
  obtain ⟨k, rest, hk, hbuf⟩ := h.holds
  have hfull := h.full
  have hexp : (expectedBytes c.buffer).toNat = m.bytes.length := by
    rw [hbuf]
    exact expectedBytes_take m hk rest
  rw [fullRequest, hexp, if_neg (by omega)] at hfull
  exact congrArg Prod.snd (Option.some.inj hfull)

end Iteration

/-! ## Ending -/

section Ending

variable (handler : Handler) (bt : Nat)

/-- `handle_read` ends and has passed at most `n` requests to `handle_request`. -/
def Conn.EndsWithin (c : Conn) (n : Nat) : Prop := ∃ e requests, c.Finishes handler bt e requests ∧ requests.length ≤ n

/-- A message that ends a loop which is left with it: it has the id, or `ba::read` waits for bytes that do not come. -/
def Left (m : Sent) : Prop := m.Terminal ∨ bt < m.bytes.length

/-- A message that ends the loop when it arrives: its first chunk has the id, or is longer than the first read, so that
`ba::read` waits for more bytes than remain. -/
def Stops (d : Delivery) : Prop := idEnd ≤ d.first.length ∧ d.sent.Terminal ∨ bt < d.first.length

/-- The part of the message that is taken from the buffer was delivered: nothing stale is taken for it. -/
def Filled (d : Delivery) : Prop := min bt d.sent.bytes.length ≤ d.first.length

/-- The loop, about to handle `d`, runs into a message that ends it: if there is no reply, or no other message, it is
left with `d`; if not, the next one stops it or is handled in turn. -/
def Quits (handler : Handler) (bt : Nat) : Delivery → List Delivery → Prop
  | d, [] => Left bt d.sent
  | d, d' :: ds =>
    if handler d.sent.bytes = none then Left bt d.sent else Stops bt d' ∨ Filled bt d' ∧ Quits handler bt d' ds

variable {handler bt} {c : Conn} {n : Nat} {m : Sent}

theorem endsWithin_step (h : c.ending = none) :
    c.EndsWithin handler bt n ↔ (c.step handler bt).EndsWithin handler bt n := by
  unfold Conn.EndsWithin
  constructor
  · rintro ⟨e, rs, hf, hn⟩
    exact ⟨e, rs, (finishes_step h).mp hf, hn⟩
  · rintro ⟨e, rs, hf, hn⟩
    exact ⟨e, rs, (finishes_step h).mpr hf, hn⟩

theorem endsWithin_of_ending {e : Ending} (h : c.ending = some e) (hn : c.requests.length ≤ n) :
    c.EndsWithin handler bt n :=
  ⟨e, c.requests, (finishes_of_ending h).mpr ⟨rfl, rfl⟩, hn⟩

/-- A loop that is left with a message which does not end it handles that message again and again. -/
theorem spins {coming : List (List Chunk)} (h : Ready bt c m coming) (hno : handler m.bytes = none ∨ coming = [])
    (hleft : ¬Left bt m) : ¬c.EndsWithin handler bt n := by
  have hterm : ¬m.Terminal := fun ht => hleft (.inl ht)
  have hlen : m.bytes.length ≤ bt := Nat.le_of_not_lt fun hlt => hleft (.inr hlt)
  rintro ⟨e, rs, hf, -⟩
  refine not_finishes (I := fun c => Ready bt c m coming) h (fun c hc => ⟨hc.running, ?_⟩) hf
  have harr := hc.arrived_nil hlen
  have hfull := hc.full
  rw [harr] at hfull
  rw [hc.step_left hno, if_neg hterm]
  exact ⟨rfl, hfull, hc.holds, rfl⟩

/-- The message is handled, and the loop is left with it. -/
theorem endsWithin_left {coming : List (List Chunk)} (h : Ready bt c m coming)
    (hno : handler m.bytes = none ∨ coming = []) (hn : c.requests.length + 1 ≤ n) :
    c.EndsWithin handler bt n ↔ Left bt m := by
  constructor
  · intro hends
    by_contra hleft
    exact spins h hno hleft hends
  · intro hleft
    have hcount : (c.requests ++ [m.bytes]).length ≤ n := by
      rw [List.length_append, List.length_singleton]
      exact hn
    rw [endsWithin_step h.running, h.step_left hno]
    by_cases hterm : m.Terminal
    · rw [if_pos hterm]
      exact endsWithin_of_ending rfl hcount
    · rw [if_neg hterm]
      have hlong : bt < m.bytes.length := hleft.resolve_left hterm
      obtain ⟨k, rest, hk, hbuf⟩ := h.holds
      have hstarved : fullRequest bt c.buffer [] = none := by
        rw [hbuf]
        refine fullRequest_starved hk hlong ?_
        show 0 < _
        omega
      rw [endsWithin_step rfl, step_starved rfl hstarved]
      exact endsWithin_of_ending rfl hcount

end Ending

/-! ## Whole sessions -/

section Sessions

variable {handler : Handler} {bt : Nat} (hbt : sizeEnd ≤ bt)
include hbt

/-- A message of which nothing stale is taken has its id in its first chunk. -/
theorem Filled.id_le {d : Delivery} (h : Filled bt d) : idEnd ≤ d.first.length :=
  Nat.le_trans idEnd_le (Nat.le_trans (Nat.le_min.mpr ⟨hbt, Nat.le_trans sizeEnd_le d.sent.sizeofMsg_le⟩) h)

/-- So has one that stops the loop. -/
theorem Stops.id_le {d : Delivery} (h : Stops bt d) : idEnd ≤ d.first.length :=
  h.elim And.left fun hlong => Nat.le_trans idEnd_le (Nat.le_trans hbt (Nat.le_of_lt hlong))

/-- **The next message**, after a reply, stops the loop or is about to be handled. -/
theorem endsWithin_arrives {n : Nat} {c : Conn} {m : Sent} {d : Delivery} {coming : List (List Chunk)}
    (h : Ready bt c m (d.chunks :: coming)) (hreply : handler m.bytes ≠ none) (hn : c.requests.length + 1 ≤ n)
    (harr : Stops bt d ∨ Filled bt d) :
    Stops bt d ∧ c.EndsWithin handler bt n ∨
    ¬Stops bt d ∧ Filled bt d ∧ ∃ c', Ready bt c' d.sent coming ∧ c'.requests.length = c.requests.length + 1 ∧
      (c.EndsWithin handler bt n ↔ c'.EndsWithin handler bt n) := by
  have hid : idEnd ≤ d.first.length := harr.elim (Stops.id_le hbt) (Filled.id_le hbt)
  have hcount : (c.requests ++ [m.bytes]).length = c.requests.length + 1 := List.length_append
  have hle : (c.requests ++ [m.bytes]).length ≤ n := by omega
  have hstep := h.step_next hreply hid
  rw [endsWithin_step h.running]
  by_cases hterm : d.sent.Terminal
  · refine .inl ⟨.inl ⟨hid, hterm⟩, ?_⟩
    rw [hstep, if_pos hterm]
    exact endsWithin_of_ending rfl hle
  · rw [if_neg hterm] at hstep
    rw [hstep]
    by_cases hlong : bt < d.first.length
    · refine .inl ⟨.inr hlong, ?_⟩
      have hstarved : fullRequest bt (overwrite c.buffer d.first) d.rest = none := fullRequest_first hbt hlong
      rw [endsWithin_step rfl, step_starved
        (c := ⟨overwrite c.buffer d.first, ⟨d.rest, coming⟩, c.requests ++ [m.bytes], none⟩) rfl hstarved]
      exact endsWithin_of_ending rfl hle
    · have hstops : ¬Stops bt d := fun hs => hs.elim (fun ht => hterm ht.2) hlong
      have hfilled := harr.resolve_left hstops
      have hle := d.length_first_le
      have haligned : Aligned bt d := by
        unfold Filled at hfilled
        unfold Aligned
        omega
      exact .inr ⟨hstops, hfilled, _, ready_of_aligned hbt rfl rfl rfl rfl haligned, hcount, Iff.rfl⟩

/-- **Whole sessions**: if the loop quits it ends, with each message handled at most once; and only if, when nothing
stale is taken. -/
theorem endsWithin_iff_quits {n : Nat} : ∀ (ds : List Delivery) {c : Conn} {d : Delivery},
    Ready bt c d.sent (ds.map Delivery.chunks) → c.requests.length + 1 + ds.length ≤ n →
    (Quits handler bt d ds → c.EndsWithin handler bt n) ∧
      ((∀ x ∈ ds, Stops bt x ∨ Filled bt x) → c.EndsWithin handler bt n → Quits handler bt d ds)
  | [], c, d, h, hn => by
    have hleft : c.EndsWithin handler bt n ↔ Left bt d.sent := endsWithin_left h (.inr rfl) hn
    exact ⟨hleft.mpr, fun _ => hleft.mp⟩
  | d' :: ds, c, d, h, hn => by
    rw [List.length_cons] at hn
    unfold Quits
    by_cases hreply : handler d.sent.bytes = none
    · rw [if_pos hreply]
      have hleft : c.EndsWithin handler bt n ↔ Left bt d.sent := endsWithin_left h (.inl hreply) (by omega)
      exact ⟨hleft.mpr, fun _ => hleft.mp⟩
    · rw [if_neg hreply]
      by_cases harr : Stops bt d' ∨ Filled bt d'
      · rcases endsWithin_arrives (n := n) hbt h hreply (by omega) harr with
          ⟨hstops, hends⟩ | ⟨hstops, hfilled, c', hready, hcount, hsame⟩
        · exact ⟨fun _ => hends, fun _ _ => .inl hstops⟩
        · obtain ⟨hsuff, hnec⟩ := endsWithin_iff_quits (n := n) ds hready (by omega)
          rw [hsame]
          refine ⟨fun hq => hsuff (hq.resolve_left hstops).2, fun hall hends => .inr ⟨hfilled, ?_⟩⟩
          exact hnec (fun x hx => hall x (List.mem_cons_of_mem _ hx)) hends
      · refine ⟨fun hq => ?_, fun hall => absurd (hall d' List.mem_cons_self) harr⟩
        rcases hq with hstops | ⟨hfilled, -⟩
        · exact absurd (.inl hstops) harr
        · exact absurd (.inr hfilled) harr

end Sessions

/-- A peer that sends nothing: what the buffer happens to hold is taken for a message, unless it claims a length, for
which `ba::read` waits in vain. -/
theorem silent_endsWithin_iff (handler : Handler) (stale : List UInt8) :
    (Conn.start stale [] ⟨[], []⟩).EndsWithin handler 0 0 ↔ (expectedBytes stale).toNat ≠ 0 := by
  by_cases hzero : (expectedBytes stale).toNat = 0
  · have hfull : fullRequest 0 stale [] = some ([], []) := by
      rw [fullRequest, hzero, if_neg (Nat.lt_irrefl 0), List.take_zero]
    constructor
    · rintro ⟨e, rs, hf, hn⟩
      -- a request was handled, and none was sent
      have hone : ((Conn.start stale [] ⟨[], []⟩).step handler 0).requests = [[]] := by
        simp only [Conn.step, Conn.start, overwrite, List.length_nil, List.drop_zero, List.nil_append, hfull]
      have hpre := requests_of_finishes ((finishes_step rfl).mp hf)
      rw [hone] at hpre
      have hlen := hpre.length_le
      rw [List.length_singleton] at hlen
      omega
    · exact fun h => absurd hzero h
  · constructor
    · exact fun _ => hzero
    · intro _
      have hstarved : fullRequest 0 stale [] = none := by
        rw [fullRequest, if_pos (Nat.pos_of_ne_zero hzero), missingBytes_zero, readExactly, if_neg hzero]
        rfl
      rw [endsWithin_step rfl, step_starved (c := Conn.start stale [] ⟨[], []⟩) rfl hstarved]
      exact endsWithin_of_ending rfl (Nat.le_refl 0)

/-- A bare header with some id. -/
def bareSent (id : BitVec 32) : Sent where
  msg := { msgEmpty with msgId := id }
  total := rfl
  fits := (by decide : sizeofMsg + 0 < 2 ^ 31)

/-- A handler that, like the executor's, has no reply for `MSG_CONTROL`. -/
def controlHandler : Handler := fun request => if msgIdOf request = MSG_CONTROL then none else some msgAck

/-- A bare header is in one chunk. -/
theorem length_bare (id : BitVec 32) : (bareSent id).filling.first.length = sizeofMsg := by
  have hlen : (bareSent id).bytes.length = sizeofMsg := (bareSent id).length_bytes
  rw [Sent.length_filling, hlen]
  decide

theorem bare_header (id : BitVec 32) : sizeofMsg ≤ (bareSent id).filling.first.length :=
  Nat.le_of_eq (length_bare id).symm

theorem bare_size (id : BitVec 32) : sizeEnd ≤ (bareSent id).filling.first.length :=
  Nat.le_trans sizeEnd_le (bare_header id)

end Hydrogen
