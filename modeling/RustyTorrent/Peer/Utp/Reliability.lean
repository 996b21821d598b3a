import Mathlib.Data.List.Infix
import RustyTorrent.Peer.Utp.Opening

/-!
# No acknowledged byte is lost

When a DATA packet has left the flight of its sender, the other side has its
payload (`acknowledged_held`): the payload is in the in-order stream, right
after those of the packets before it, or in the stash.  This needs four
conditions on what arrives.  Two of them say that packets are not too late.
The other two are about packets that acknowledge what was never delivered: a
late copy of the SYN, whose acknowledgement number is zero, and a FIN that
overtakes DATA, which moves the frontier past the DATA it overtook.  Both make
the sender forget bytes (`syn_or_fin_loses`).
-/

namespace RustyTorrent.Utp

open Serial Connection List Option

/-- The two sides after the SYN and the STATE have been exchanged. -/
def Net.exchanged (recvId initSeq : UInt16) (now now' now'' : ℕ) :
    Option Net :=
  (Net.opened recvId initSeq now now').bind fun n =>
    n.receiver.sent.head?.map fun d =>
      n.act (.initiator, .receive d 0 0 now'')

/-- A SYN arrives only where the number zero acknowledges nothing in
flight. -/
def Net.HarmlessSyn (n : Net) (a : Side × Action) : Prop :=
  ∀ d ∈ a.2.received, d.packet.packetType = .syn →
    (n.me a.1).conn.inFlight.takeWhile (fun e => seqLe e.seqNr 0) = []

/-- A FIN arrives only after every DATA packet its sender has sent was
delivered in order. -/
def Net.LastFin (initSeq : UInt16) (n : Net) (a : Side × Action) : Prop :=
  ∀ d ∈ a.2.received, d.packet.packetType = .fin →
    ∀ d' ∈ (n.peer a.1).sent, d'.packet.packetType = .data →
      d'.pos < Net.base initSeq a.1.other +
        (n.me a.1).conn.peerLogicalAcked

/-- The network in a run that meets the four conditions. -/
def Net.careful (initSeq : UInt16) : System Net (Side × Action) where
  next := Net.act
  may n a := n.Delivers a ∧ n.FreshSeq a ∧ n.FreshAck a ∧ n.HarmlessSyn a ∧
    n.LastFin initSeq a

instance (n : Net) (a : Side × Action) : Decidable (n.HarmlessSyn a) :=
  inferInstanceAs (Decidable (∀ d ∈ a.2.received, _ → _ = []))

instance (initSeq : UInt16) (n : Net) (a : Side × Action) :
    Decidable (n.LastFin initSeq a) :=
  inferInstanceAs (Decidable (∀ d ∈ a.2.received, _ →
    ∀ d' ∈ (n.peer a.1).sent, _ → _ < _))

instance (initSeq : UInt16) (n : Net) (a : Side × Action) :
    Decidable ((Net.careful initSeq).may n a) :=
  inferInstanceAs (Decidable (_ ∧ _ ∧ _ ∧ _ ∧ _))

/-! ## What the receiver holds -/

/-- The payload of the DATA packet that a side has sent at a position. -/
def payloadAt (s : Party) (q : ℕ) : Bytes :=
  match s.sent.find? fun d => d.packet.packetType = .data && d.pos = q with
  | none => []
  | some d => d.packet.payload

/-- The payloads of the DATA packets from the first one up to a position. -/
def payloadsBefore (s : Party) (base q : ℕ) : Bytes :=
  ((List.range' base (q - base)).map (payloadAt s)).flatten

/-- The receiver has a DATA packet: it is in the in-order stream after the
packets before it, or in the stash under its logical position. -/
def Held (base : ℕ) (s r : Party) (d : Datagram) : Prop :=
  payloadsBefore s base d.pos ++ d.packet.payload <+:
      r.taken ++ r.conn.inBuf ∨
    OrdMap.get r.conn.pendingIn (d.pos + 1 - base) = some d.packet.payload

/-- The sender has forgotten a DATA packet: it has sent it, and no packet in
flight has its position. -/
def Forgotten (s : Party) (d : Datagram) : Prop :=
  d ∈ s.sent ∧ d.packet.packetType = .data ∧
    ∀ e ∈ s.conn.inFlight, lift s.used e.seqNr ≠ d.pos

instance (base : ℕ) (s r : Party) (d : Datagram) :
    Decidable (Held base s r d) :=
  inferInstanceAs (Decidable (_ ∨ _))

instance (s : Party) (d : Datagram) : Decidable (Forgotten s d) :=
  inferInstanceAs (Decidable (_ ∧ _ ∧ ∀ e ∈ s.conn.inFlight, _))

section Flow

variable {base : ℕ} {lost : ℕ → Prop} {complete : Prop} {s r : Party}
  {t : Track} {front : ℕ}

section

variable (h : Flow base lost complete s r t front)

include h

theorem Flow.data_payload {d : Datagram} (hd : d ∈ s.sent)
    (hdata : d.packet.packetType = .data) :
    base ≤ d.pos ∧ t.datas[d.pos - base]? = some d.packet.payload := by
  rcases h.logged d hd with hst | hsyn | ⟨-, -, hholds⟩
  · cases hdata.symm.trans hst
  · cases hdata.symm.trans hsyn
  · rcases hholds with ⟨-, hle, hget⟩ | ⟨hfin, -⟩
    · exact ⟨hle, hget⟩
    · cases hdata.symm.trans hfin

theorem Flow.payloadAt_eq {i : ℕ} {v : Bytes} (hi : t.datas[i]? = some v) :
    payloadAt s (base + i) = v := by
  have hlt := (List.getElem?_eq_some_iff.1 hi).1
  obtain ⟨d, hd, hpos, -, hholds⟩ := h.emitted (base + i) (by omega)
    (by unfold Track.next; omega)
  have hdata : d.packet.packetType = .data := by
    rcases hholds with ⟨hdata, -⟩ | ⟨-, hle, -⟩
    · exact hdata
    · omega
  unfold payloadAt
  cases hfind : s.sent.find? fun d =>
      d.packet.packetType = .data && d.pos = base + i with
  | none =>
    have hnone := List.find?_eq_none.1 hfind d hd
    simp [hdata, hpos] at hnone
  | some d' =>
    have hfound := List.find?_some hfind
    simp only [Bool.and_eq_true, decide_eq_true_eq] at hfound
    have hget := (h.data_payload (mem_of_find?_eq_some hfind) hfound.1).2
    rw [hfound.2, Nat.add_sub_cancel_left, hi] at hget
    exact (some.inj hget).symm

theorem Flow.payloadsBefore_eq {k : ℕ} (hk : k ≤ t.datas.length) :
    payloadsBefore s base (base + k) = (t.datas.take k).flatten := by
  have hmap : (List.range' base k).map (payloadAt s) = t.datas.take k := by
    refine ext_getElem (by simp [hk]) ?_
    intro i hi hi'
    rw [length_map, length_range'] at hi
    have hget : t.datas[i]? = some (t.datas[i]) :=
      List.getElem?_eq_getElem (by omega)
    rw [getElem_map, getElem_range', getElem_take, Nat.one_mul]
    exact h.payloadAt_eq hget
  rw [payloadsBefore, Nat.add_sub_cancel_left, hmap]

/-- What was delivered in order starts with the payloads of the first
packets. -/
theorem Flow.held_of_lt {d : Datagram} (hd : d ∈ s.sent)
    (hdata : d.packet.packetType = .data)
    (hlt : d.pos - base < r.conn.inbound.logical) : Held base s r d := by
  obtain ⟨hle, hget⟩ := h.data_payload hd hdata
  have hlen := (List.getElem?_eq_some_iff.1 hget).1
  have hbefore := h.payloadsBefore_eq hlen.le
  rw [Nat.add_sub_cancel' hle] at hbefore
  left
  rw [hbefore, ← take_succ_flatten hget,
    show r.taken ++ r.conn.inBuf = _ from h.reads.stream]
  exact (take_isPrefix_take.2 (.inl hlt)).flatten

end

theorem Flow.held (h : Flow base (fun _ => False) True s r t front)
    {d : Datagram} (hd : Forgotten s d) : Held base s r d := by
  obtain ⟨hsent, hdata, hgone⟩ := hd
  obtain ⟨hle, hget⟩ := h.data_payload hsent hdata
  have hlen := (List.getElem?_eq_some_iff.1 hget).1
  have hnext : d.pos < t.next base := by
    unfold Track.next
    omega
  have hpositions : d.pos ∉ t.positions := by
    intro hmem
    obtain ⟨x, hx, hpos⟩ := mem_map.1 hmem
    have hflight : s.conn.inFlight = t.flight.map Prod.fst :=
      h.sender.flight_eq
    have hnear := h.sender.next_le hmem
    refine hgone x.1 (hflight ▸ mem_map_of_mem hx) ?_
    rw [(h.sender.carried x hx).1, hpos, h.used_eq,
      lift_wrap hnext.le (by omega)]
  rcases h.mode with hopen | hclosed
  · have haligned := hopen.aligned
    rcases hopen.cover d.pos hle hnext with hmem | ⟨hhas, -⟩ | hlost
    · exact absurd hmem hpositions
    · rcases hhas with hfront | ⟨v, hv⟩
      · exact h.held_of_lt hsent hdata (by omega)
      · right
        have hstash := (h.reads.stash _ v hv).2
        rw [show d.pos + 1 - base - 1 = d.pos - base by omega, hget] at hstash
        rw [some.inj hstash]
        exact hv
    · exact hlost.elim
  · have hcomplete := hclosed.complete trivial
    exact h.held_of_lt hsent hdata (by omega)

end Flow

/-! ## Runs -/

theorem linked_exchanged {recvId initSeq : UInt16} {now now' now'' : ℕ}
    {n : Net} (h : Net.exchanged recvId initSeq now now' now'' = some n)
    (lost : ℕ → Prop) (complete : Prop) :
    Linked 2 (Net.firstPos initSeq) lost complete n.initiator n.receiver := by
  obtain ⟨n₀, h₀, h⟩ := bind_eq_some_iff.1 h
  obtain ⟨d, hd, rfl⟩ := map_eq_some_iff.1 h
  obtain ⟨hx, hy, hsyn, hrecv, hid⟩ := opened_calls h₀
  have hmem : d ∈ n₀.receiver.sent := mem_of_mem_head? hd
  have hmatch : n₀.initiator.conn.matchesIncoming (d.packet.stamped 0 0) =
      true := by
    simp [matchesIncoming, Packet.stamped, hid d hmem, hrecv]
  exact hx.linked hy lost complete hmem hsyn hmatch now''

/-- In every state that a careful run reaches, on both sides, a DATA packet
that its sender has forgotten is held by the receiver. -/
theorem acknowledged_held {recvId initSeq : UInt16} {now now' now'' : ℕ}
    {n₀ n : Net}
    (h₀ : Net.exchanged recvId initSeq now now' now'' = some n₀)
    (h : (Net.careful initSeq).Reach n₀ n) (side : Side) (d : Datagram)
    (hd : Forgotten (n.me side) d) :
    Held (Net.base initSeq side) (n.me side) (n.peer side) d := by
  have hsparse : Sparse fun _ => False :=
    fun a => ⟨a, Nat.le_refl _, Nat.le_add_right _ _, fun _ _ => id⟩
  have hlinked : Linked 2 (Net.firstPos initSeq) (fun _ => False) True
      n.initiator n.receiver := by
    refine h.invariant
      (P := fun n => Linked 2 (Net.firstPos initSeq) (fun _ => False) True
        n.initiator n.receiver) (linked_exchanged h₀ _ _) ?_
    rintro n ⟨side, a⟩ hn ⟨hdel, hseq, hack, hsyn, hfin⟩
    have hrec : ∀ d ∈ a.received,
        Receivable (Net.base initSeq side.other) (fun _ => False) True
          (n.me side) (n.peer side) d := by
      intro d hd
      exact ⟨hdel d hd, hseq d hd, hack d hd,
        fun htype => .inr (hsyn d hd htype),
        fun _ htype => hfin d hd htype⟩
    cases side with
    | initiator => exact hn.act hsparse a hrec
    | receiver => exact (hn.symm.act hsparse a hrec).symm
  cases side with
  | initiator =>
    obtain ⟨_, _, hforth⟩ := hlinked.forth
    exact hforth.held hd
  | receiver =>
    obtain ⟨_, _, hback⟩ := hlinked.back
    exact hback.held hd

/-- A DATA packet of the initiator with the identifier 7. -/
def firstData (ackNr : UInt16) (ack : ℕ) (b : UInt8) : Datagram :=
  ⟨⟨.data, 8, 0, 0, 1048576, 2, ackNr, [], [b]⟩, 2, ack⟩

/-- A run that delivers and acknowledges one byte. -/
def acknowledgedByte : List (Side × Action) :=
  [(.initiator, .enqueue [5]), (.initiator, .send 0),
    (.receiver, .receive (firstData 65535 65535 5) 0 0 0),
    (.initiator, .receive
      ⟨⟨.state, 7, 0, 0, 1048575, 0, 2, [], []⟩, 65536, 2⟩ 0 0 0)]

theorem acknowledged_held_byte : ∃ n₀ n, Net.exchanged 7 0 0 0 0 = some n₀ ∧
      (Net.careful 0).Reach n₀ n ∧
      Forgotten n.initiator (firstData 65535 65535 5) ∧
      Held 2 n.initiator n.receiver (firstData 65535 65535 5) := by
  obtain ⟨n₀, h₀⟩ : ∃ n₀, Net.exchanged 7 0 0 0 0 = some n₀ := ⟨_, rfl⟩
  have hreach : (Net.careful 0).Reach n₀
      ((Net.careful 0).after n₀ acknowledgedByte) := by
    refine .of_allowed ?_
    cases h₀
    decide +kernel
  have hforgotten : Forgotten
      ((Net.careful 0).after n₀ acknowledgedByte).initiator
      (firstData 65535 65535 5) := by
    cases h₀
    decide +kernel
  exact ⟨n₀, _, h₀, hreach, hforgotten,
    acknowledged_held h₀ hreach .initiator _ hforgotten⟩

/-! ## What a late SYN and an early FIN do -/

/-- The receiving side sends its first byte with the sequence number 40000;
then a copy of the SYN arrives. -/
def lateSyn : List (Side × Action) :=
  [(.initiator, .enqueue [7]), (.initiator, .send 0),
    (.receiver, .receive (firstData 39999 105535 7) 0 0 0),
    (.receiver, .enqueue [1]), (.receiver, .send 0),
    (.receiver, .receive ⟨Packet.new .syn 7 1 0, 1, 0⟩ 0 0 0)]

/-- The byte the receiving side sends. -/
def lostReply : Datagram :=
  ⟨⟨.data, 7, 0, 0, 1048575, 40000, 2, [], [1]⟩, 105536, 2⟩

/-- The initiator sends a byte and closes; the FIN arrives, the byte does
not. -/
def earlyFin : List (Side × Action) :=
  [(.initiator, .enqueue [5]), (.initiator, .send 0), (.initiator, .close),
    (.initiator, .send 0),
    (.receiver, .receive
      ⟨⟨.fin, 8, 0, 0, 1048576, 3, 65535, [], []⟩, 3, 65535⟩ 0 0 0),
    (.initiator, .receive
      ⟨⟨.state, 7, 0, 0, 1048576, 0, 3, [], []⟩, 65536, 3⟩ 0 0 0)]

/-- A late SYN and a FIN that overtakes DATA both make a sender forget a byte
that the receiver does not have, although no packet is too late. -/
theorem syn_or_fin_loses : (∃ n₀ n, Net.exchanged 7 40000 0 0 0 = some n₀ ∧
      Net.fresh.Reach n₀ n ∧ n.initiator.conn.state = .connected ∧
      n.receiver.conn.state = .connected ∧
      Forgotten n.receiver lostReply ∧
      ¬ Held (Net.firstPos 40000) n.receiver n.initiator lostReply) ∧
    ∃ n₀ n, Net.exchanged 7 0 0 0 0 = some n₀ ∧ Net.fresh.Reach n₀ n ∧
      n.initiator.conn.state = .finSent ∧
      n.receiver.conn.state = .closed ∧
      Forgotten n.initiator (firstData 65535 65535 5) ∧
      ¬ Held 2 n.initiator n.receiver (firstData 65535 65535 5) := by
  constructor
  · obtain ⟨n₀, h₀⟩ : ∃ n₀, Net.exchanged 7 40000 0 0 0 = some n₀ :=
      ⟨_, rfl⟩
    refine ⟨n₀, Net.fresh.after n₀ lateSyn, h₀, .of_allowed ?_, ?_⟩
    all_goals
      cases h₀
      decide +kernel
  · obtain ⟨n₀, h₀⟩ : ∃ n₀, Net.exchanged 7 0 0 0 0 = some n₀ := ⟨_, rfl⟩
    refine ⟨n₀, Net.fresh.after n₀ earlyFin, h₀, .of_allowed ?_, ?_⟩
    all_goals
      cases h₀
      decide +kernel

end RustyTorrent.Utp
