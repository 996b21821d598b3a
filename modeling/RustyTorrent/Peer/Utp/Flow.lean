import RustyTorrent.Peer.Utp.Network
import RustyTorrent.Peer.Utp.Receiver

/-!
# One direction of the network

`Flow` is the invariant of one direction: the sender's track, what it has put
on the network, the receive half of the other side, and the acknowledgements
that side has put on the network.  As long as no FIN was processed, every
position the sender has used is in flight, or held by the receiver, or lost;
with at most 875 packets in flight this bounds how far the sender can be past
the receiver (`Open.next_le`), so sixteen bits tell the positions.

Which positions may be lost is a parameter, and so is whether a FIN is only
processed after every DATA packet.  The two sides take turns in both roles, so
`Linked` pairs the two directions.
-/

namespace RustyTorrent.Utp

open Serial Connection List Party Track

/-- What an invariant of the acknowledgements says of a packet. -/
structure Acknowledges (next : ℕ) (d : Datagram) : Prop where
  syn : d.packet.packetType = .syn →
    d.packet.ackNr = 0 ∧ sackOf d.packet = none
  ack : d.packet.packetType ≠ .syn →
    d.packet.ackNr = wrap d.ack ∧ d.ack < next
  mask : ∀ sack ∈ sackOf d.packet, sack.data.length ≤ maxSackBytes

/-- What a sender has put on the network: packets that number nothing, or a
packet with its position. -/
def Logged (base : ℕ) (t : Track) (d : Datagram) : Prop :=
  d.packet.packetType = .state ∨ d.packet.packetType = .syn ∨
    d.packet.seqNr = wrap d.pos ∧ t.Holds base d.pos d.packet

/-- Before a FIN is processed. -/
structure Open (base : ℕ) (lost : ℕ → Prop) (t : Track) (r : Party)
    (front : ℕ) : Prop where
  aligned : front + 1 = base + r.conn.inbound.logical
  cover : ∀ q, base ≤ q → q < t.next base →
    q ∈ t.positions ∨
      (Has base r.conn.inbound front q ∧ q ≤ front + 513) ∨ lost q
  acks : ∀ d ∈ r.sent, d.packet.packetType ≠ .syn →
    d.ack ≤ front ∧ ∀ sack ∈ sackOf d.packet, ∀ n,
      maskBit sack.data n = true →
        Has base r.conn.inbound front (d.ack + 2 + n)

/-- After a FIN was processed: the sender has no more payloads. -/
structure Closed (base : ℕ) (complete : Prop) (t : Track) (r : Party)
    (front : ℕ) : Prop where
  fins : 0 < t.fins
  past : base + t.datas.length ≤ front
  complete : complete → t.datas.length ≤ r.conn.inbound.logical

/-- The invariant of the direction from `s` to `r`. -/
structure Flow (base : ℕ) (lost : ℕ → Prop) (complete : Prop)
    (s r : Party) (t : Track) (front : ℕ) : Prop where
  used_eq : s.used = t.next base
  sender : Sender base s.conn.outbound s.offered t
  logged : ∀ d ∈ s.sent, Logged base t d
  emitted : ∀ q, base ≤ q → q < t.next base →
    ∃ d ∈ s.sent, d.pos = q ∧ t.Holds base q d.packet
  reads : Reads base t r.conn.inbound r.taken front
  acked : ∀ d ∈ r.sent, Acknowledges (t.next base) d
  mode : Open base lost t r front ∨ Closed base complete t r front

/-- Between any 876 positions that cannot be lost there is no gap of more
than half a circle or so. -/
def Sparse (lost : ℕ → Prop) : Prop :=
  ∀ a, ∃ b, a ≤ b ∧ b ≤ a + 33700 ∧ ∀ i < 876, ¬ lost (b + i)

theorem Open.next_le {base : ℕ} {lost : ℕ → Prop} {o : Outbound}
    {offered : Bytes} {t : Track} {r : Party} {front : ℕ}
    (h : Open base lost t r front) (hlost : Sparse lost)
    (ho : Sender base o offered t) : t.next base ≤ front + 65536 := by
  by_contra hfar
  obtain ⟨b, hab, hba, hkept⟩ := hlost (front + 514)
  have haligned := h.aligned
  have hmany : 876 ≤ t.positions.length := by
    apply le_length_of_consecutive (b := b)
    intro i hi
    rcases h.cover (b + i) (by omega) (by omega) with
      hmem | ⟨-, hle⟩ | hgone
    · exact hmem
    · omega
    · exact absurd hgone (hkept i hi)
  have hfew := ho.few
  rw [positions, length_map] at hmany
  omega

section Steps

variable {base : ℕ} {lost : ℕ → Prop} {complete : Prop} {s r : Party}
  {t : Track} {front : ℕ}

/-! ## The sender acts -/

variable {d : Datagram} {conn : Connection} {packets : List Packet} {r' : Party}

theorem Logged.later {t' : Track} (h : Logged base t d)
    (hl : t.Later t' base) : Logged base t' d := by
  rcases h with hstate | hsyn | ⟨hseq, hholds⟩
  · exact .inl hstate
  · exact .inr (.inl hsyn)
  · exact .inr (.inr ⟨hseq, hl.holds hholds⟩)

theorem Flow.send (h : Flow base lost complete s r t front) {t' : Track}
    (ho : Sender base conn.outbound s.offered t')
    (hsends : Sends base t t' s.conn.peerSeqNrAcked packets) :
    Flow base lost complete (s.put r conn packets) r t' front := by
  have hle := hsends.later.next
  have hfew := hsends.next_le ho
  have hused : (s.put r conn packets).used = t'.next base := by
    have hnew : conn.nextSeqNr = wrap (t'.next base) := ho.next_eq
    have hold : s.conn.nextSeqNr = wrap (t.next base) := h.sender.next_eq
    simp only [put, hnew, hold, h.used_eq]
    rw [wrap_sub hle (by omega)]
    omega
  have hpos : ∀ q ∈ t'.positions, lift (t'.next base) (wrap q) = q := by
    intro q hq
    have hlt := (ho.position_lt hq).2
    have hnear := ho.next_le hq
    exact lift_wrap hlt.le (by omega)
  have hsent : (s.put r conn packets).sent =
      s.sent ++ packets.map (datagram (t'.next base) r.used) := by
    rw [← hused]
    rfl
  refine ⟨hused, ho, ?_, ?_, h.reads.later hsends.later, ?_, ?_⟩
  · intro d hd
    rw [hsent] at hd
    rcases mem_append.1 hd with hold | hnew
    · exact (h.logged d hold).later hsends.later
    · obtain ⟨p, hp, rfl⟩ := mem_map.1 hnew
      obtain ⟨-, q, hq, hseq, hholds⟩ := hsends.numbered p hp
      right
      right
      simp only [datagram, hseq, hpos q hq]
      exact ⟨trivial, hholds⟩
  · intro q hq hlt
    rw [hsent]
    rcases Nat.lt_or_ge q (t.next base) with hold | hnew
    · obtain ⟨d, hd, hdq, hholds⟩ := h.emitted q hq hold
      exact ⟨d, mem_append_left _ hd, hdq, hsends.later.holds hholds⟩
    · obtain ⟨hmem, p, hp, hseq, hholds⟩ := hsends.fresh q hnew hlt
      refine ⟨_, mem_append_right _ (mem_map_of_mem hp), ?_, hholds⟩
      rw [datagram, hseq, hpos q hmem]
  · intro d hd
    obtain ⟨hsyn, hack, hmask⟩ := h.acked d hd
    exact ⟨hsyn, fun htype =>
      ⟨(hack htype).1, (hack htype).2.trans_le hle⟩, hmask⟩
  · rcases h.mode with hopen | hclosed
    · refine .inl ⟨hopen.aligned, ?_, hopen.acks⟩
      intro q hq hlt
      rcases Nat.lt_or_ge q (t.next base) with hold | hnew
      · rcases hopen.cover q hq hold with hmem | hrest
        · exact .inl (hsends.kept hmem)
        · exact .inr hrest
      · exact .inl (hsends.fresh q hnew hlt).1
    · have hdatas := hsends.later.fins hclosed.fins
      refine .inr ⟨?_, ?_, ?_⟩
      · have hfins := hclosed.fins
        unfold Track.next at hle
        rw [hdatas] at hle
        omega
      · rw [hdatas]
        exact hclosed.past
      · rw [hdatas]
        exact hclosed.complete

theorem Flow.write (h : Flow base lost complete s r t front) {s' : Party}
    (hused : s'.used = s.used) (hsent : s'.sent = s.sent)
    (hsender : Sender base s'.conn.outbound s'.offered t) :
    Flow base lost complete s' r t front :=
  ⟨hused.trans h.used_eq, hsender, hsent.symm ▸ h.logged,
    hsent.symm ▸ h.emitted, h.reads, h.acked, h.mode⟩

theorem put_used (hnext : conn.nextSeqNr = s.conn.nextSeqNr)
    (packets : List Packet) : (s.put r conn packets).used = s.used := by
  simp [put, hnext]

/-- What is asked of a packet that is received. -/
structure Receivable (base' : ℕ) (lost : ℕ → Prop) (complete : Prop)
    (me peer : Party) (d : Datagram) : Prop where
  sent : d ∈ peer.sent
  fresh_seq : peer.used ≤ d.pos + 2 ^ 15
  fresh_ack : d.packet.packetType ≠ .syn → me.used ≤ d.ack + 2 ^ 15
  syn : d.packet.packetType = .syn →
    (∀ q, serialLe (wrap q) 0 = true → lost q) ∨
      me.conn.inFlight.takeWhile (fun e => seqLe e.seqNr 0) = []
  fin : complete → d.packet.packetType = .fin →
    ∀ d' ∈ peer.sent, d'.packet.packetType = .data →
      d'.pos < base' + me.conn.peerLogicalAcked

theorem Flow.acknowledged {base' : ℕ} (h : Flow base lost complete s r t front)
    (hd : Receivable base' lost complete s r d)
    (hopen : Open base lost t r front) {q : ℕ} (hq : q ∈ t.positions) :
    q ∈ (remainingAt d.packet t.flight).map Prod.snd ∨
      (Has base r.conn.inbound front q ∧ q ≤ front + 513) ∨ lost q := by
  obtain ⟨x, hx, rfl⟩ := mem_map.1 hq
  have hacked := h.acked d hd.sent
  by_cases htype : d.packet.packetType = .syn
  · obtain ⟨hzero, hsack⟩ := hacked.syn htype
    have hleft : remainingAt d.packet t.flight =
        t.flight.dropWhile fun x => seqLe x.1.seqNr 0 := by
      rw [remainingAt, hsack, hzero]
    rw [hleft]
    rw [← takeWhile_append_dropWhile (p := fun x : InFlight × ℕ =>
      seqLe x.1.seqNr 0) (l := t.flight)] at hx
    rcases mem_append.1 hx with hfront | hback
    · rcases hd.syn htype with hall | hnone
      · have hle := mem_takeWhile_imp hfront
        have hmem := ( takeWhile_prefix _).subset hfront
        rw [(h.sender.carried x hmem).1] at hle
        exact .inr (.inr (hall x.2 hle))
      · have hflight : s.conn.inFlight = t.flight.map Prod.fst :=
          h.sender.flight_eq
        rw [hflight, takeWhile_map, map_eq_nil_iff] at hnone
        exact absurd hfront (by
          rw [show (fun x : InFlight × ℕ => seqLe x.1.seqNr 0) =
            (fun e : InFlight => seqLe e.seqNr 0) ∘ Prod.fst from rfl, hnone]
          exact not_mem_nil)
    · exact .inl (mem_map_of_mem hback)
  · obtain ⟨hack, -⟩ := hacked.ack htype
    obtain ⟨hle, hbits⟩ := hopen.acks d hd.sent htype
    have hfresh : t.next base ≤ d.ack + 2 ^ 15 :=
      h.used_eq ▸ hd.fresh_ack htype
    rcases h.sender.acknowledged hack hfresh hacked.mask hx with
      hkept | hxa | ⟨sack, n, hsack, hbit, heq⟩
    · exact .inl (mem_map_of_mem hkept)
    · exact .inr (.inl ⟨.inl (hxa.trans hle), by omega⟩)
    · have hlen : sack.data.length ≤ 64 := hacked.mask sack hsack
      have hbound := lt_of_maskBit hbit
      refine .inr (.inl ⟨?_, by omega⟩)
      rw [heq]
      exact hbits sack hsack n hbit

theorem Flow.acknowledge {base' : ℕ} (h : Flow base lost complete s r t front)
    (hd : Receivable base' lost complete s r d) {state : State}
    (hout : conn.outbound =
      s.conn.outbound.become state (remaining d.packet s.conn.inFlight))
    (hstate : s.conn.state.Ended → state.Ended)
    (hpackets : ∀ p ∈ packets, p.packetType = .state) :
    Flow base lost complete (s.put r conn packets) r
      { t with flight := remainingAt d.packet t.flight } front := by
  have hnext : conn.nextSeqNr = s.conn.nextSeqNr :=
    congrArg Outbound.next hout
  have hsent : (s.put r conn packets).sent = s.sent ++
      packets.map (datagram s.used r.used) := by
    rw [← put_used (r := r) hnext packets]
    rfl
  have hacked := h.acked d hd.sent
  refine ⟨(put_used hnext packets).trans h.used_eq, ?_, ?_, ?_,
    ⟨h.reads.frontier, h.reads.low, h.reads.high, h.reads.logical,
      h.reads.stream, h.reads.stash⟩, h.acked, ?_⟩
  · have hconn : (s.put r conn packets).conn.outbound =
        s.conn.outbound.become state
          (remaining d.packet s.conn.outbound.flight) := hout
    rw [hconn]
    by_cases htype : d.packet.packetType = .syn
    · exact h.sender.acknowledgeSyn (hacked.syn htype).2 hstate
    · obtain ⟨hack, hlt⟩ := hacked.ack htype
      exact h.sender.acknowledge hack hlt (h.used_eq ▸ hd.fresh_ack htype)
        hacked.mask hstate
  · intro d' hd'
    rw [hsent] at hd'
    rcases mem_append.1 hd' with hold | hnew
    · exact h.logged d' hold
    · obtain ⟨p, hp, rfl⟩ := mem_map.1 hnew
      exact .inl (hpackets p hp)
  · intro q hq hlt
    obtain ⟨d', hd', hpos, hholds⟩ := h.emitted q hq hlt
    rw [hsent]
    exact ⟨d', mem_append_left _ hd', hpos, hholds⟩
  · rcases h.mode with hopen | hclosed
    · refine .inl ⟨hopen.aligned, ?_, hopen.acks⟩
      intro q hq hlt
      rcases hopen.cover q hq hlt with hmem | hrest
      · exact h.acknowledged hd hopen hmem
      · exact .inr hrest
    · exact .inr ⟨hclosed.fins, hclosed.past, hclosed.complete⟩

/-! ## The receiver acts -/

/-- A packet that carries the acknowledgements of a connection. -/
def IsAck (conn : Connection) (p : Packet) : Prop :=
  p.packetType ≠ .syn ∧ p.ackNr = conn.peerSeqNrAcked ∧
    (sackOf p = none ∨ p = conn.buildStateAck)

theorem IsAck.mask {p : Packet} (h : IsAck conn p) {sack : Extension}
    (hsack : sackOf p = some sack) : sack.data = conn.sackMask := by
  rcases h.2.2 with hnone | rfl
  · cases hnone.symm.trans hsack
  · exact sackOf_buildStateAck hsack

theorem Flow.answer
    (h : Flow base lost complete s { r with conn := conn } t front)
    (hlost : Sparse lost) (hpackets : ∀ p ∈ packets, IsAck conn p) :
    Flow base lost complete s (r.put s conn packets) t front := by
  have hfront : conn.peerSeqNrAcked = wrap front := h.reads.frontier
  have hhigh := h.reads.high
  have hsplit : ∀ d ∈ (r.put s conn packets).sent,
      d ∈ r.sent ∨ ∃ p ∈ packets, IsAck conn p ∧ d.packet = p ∧
        d.ack = lift (t.next base - 1) (wrap front) := by
    intro d hd
    rcases mem_append.1 hd with hold | hnew
    · exact .inl hold
    · obtain ⟨p, hp, rfl⟩ := mem_map.1 hnew
      refine .inr ⟨p, hp, hpackets p hp, rfl, ?_⟩
      rw [datagram, (hpackets p hp).2.1, hfront, h.used_eq]
  refine ⟨h.used_eq, h.sender, h.logged, h.emitted, h.reads, ?_, ?_⟩
  · intro d hd
    rcases hsplit d hd with hold | ⟨p, -, hp, rfl, hack⟩
    · exact h.acked d hold
    · refine ⟨fun hsyn => absurd hsyn hp.1, fun _ => ⟨?_, ?_⟩, ?_⟩
      · rw [hack, wrap_lift (by omega), hp.2.1, hfront]
      · rw [hack, lift]
        omega
      · intro sack hsack
        rw [hp.mask hsack]
        exact (sackMask_spec conn).1
  · rcases h.mode with hopen | hclosed
    · refine .inl ⟨hopen.aligned, hopen.cover, ?_⟩
      intro d hd htype
      rcases hsplit d hd with hold | ⟨p, -, hp, rfl, hack⟩
      · exact hopen.acks d hold htype
      · have hbound := hopen.next_le hlost h.sender
        rw [lift_wrap (by omega) (by omega)] at hack
        refine ⟨hack.le, ?_⟩
        intro sack hsack n hbit
        rw [hp.mask hsack] at hbit
        obtain ⟨-, v, hv⟩ := ((sackMask_spec conn).2 n).mp hbit
        have haligned : front + 1 = base + conn.peerLogicalAcked :=
          hopen.aligned
        refine .inr ⟨v, ?_⟩
        rw [hack, show front + 2 + n + 1 - base =
          conn.peerLogicalAcked + 2 + n by omega]
        exact hv
    · exact .inr ⟨hclosed.fins, hclosed.past, hclosed.complete⟩

section

variable (h : Flow base lost complete s r t front)

include h

theorem Flow.complete_of_delivered
    (hall : ∀ d ∈ s.sent, d.packet.packetType = .data →
      d.pos < base + r.conn.peerLogicalAcked) :
    t.datas.length ≤ r.conn.peerLogicalAcked := by
  by_contra hlt
  obtain ⟨d, hd, hpos, -, hholds⟩ :=
    h.emitted (base + r.conn.peerLogicalAcked) (by omega)
      (by unfold Track.next; omega)
  rcases hholds with ⟨htype, -, -⟩ | ⟨-, hle, -⟩
  · have hbefore := hall d hd htype
    omega
  · omega

theorem Flow.advance (hopen : Open base lost t r front) {front' : ℕ}
    (hsent : r'.sent = r.sent)
    (hadv : Advances base t r'.taken r.conn.inbound front r'.conn.inbound
      front') : Flow base lost complete s r' t front' := by
  have hle := hadv.front_le
  refine ⟨h.used_eq, h.sender, h.logged, h.emitted, hadv.reads,
    hsent.symm ▸ h.acked, .inl ⟨hadv.aligned, ?_, ?_⟩⟩
  · intro q hq hlt
    rcases hopen.cover q hq hlt with hmem | ⟨hhas, hnear⟩ | hgone
    · exact .inl hmem
    · exact .inr (.inl ⟨hadv.has q hhas, by omega⟩)
    · exact .inr (.inr hgone)
  · intro d hd htype
    obtain ⟨hack, hbits⟩ := hopen.acks d (hsent ▸ hd) htype
    exact ⟨hack.trans hle, fun sack hsack n hbit =>
      hadv.has _ (hbits sack hsack n hbit)⟩

theorem Flow.reread (hsent : r'.sent = r.sent)
    (hlogical : r'.conn.inbound.logical = r.conn.inbound.logical)
    (hstash : r'.conn.inbound.stash = r.conn.inbound.stash)
    (hreads : Reads base t r'.conn.inbound r'.taken front) :
    Flow base lost complete s r' t front := by
  rcases h.mode with hopen | hclosed
  · refine h.advance hopen hsent
      ⟨hreads, hlogical ▸ hopen.aligned, Nat.le_refl _, ?_⟩
    intro q hq
    rwa [Has, hstash]
  · refine ⟨h.used_eq, h.sender, h.logged, h.emitted, hreads,
      hsent.symm ▸ h.acked, .inr ⟨hclosed.fins, hclosed.past, ?_⟩⟩
    exact hlogical.symm ▸ hclosed.complete

theorem Flow.same (hsent : r'.sent = r.sent) (htaken : r'.taken = r.taken)
    (hin : r'.conn.inbound = r.conn.inbound) :
    Flow base lost complete s r' t front := by
  refine h.reread hsent (by rw [hin]) (by rw [hin]) ?_
  rw [hin, htaken]
  exact h.reads

theorem Flow.receive (hlost : Sparse lost) (hstate : r.conn.state ≠ .synSent)
    (hd : Receivable base lost complete r s d) {p : Packet}
    (htype : p.packetType = d.packet.packetType)
    (hseq : p.seqNr = d.packet.seqNr) (hpayload : p.payload = d.packet.payload)
    {now : ℕ} (hin : conn.inbound = r.conn.received p now) :
    ∃ front', Flow base lost complete s { r with conn := conn } t front' := by
  unfold received at hin
  rcases h.logged d hd.sent with hst | hsyn | ⟨hpos, hholds⟩
  · rw [htype, hst] at hin
    exact ⟨front, h.same rfl rfl (hin.trans (if_neg hstate))⟩
  · rw [htype, hsyn] at hin
    exact ⟨front, h.same rfl rfl hin⟩
  have hfresh : t.next base ≤ d.pos + 2 ^ 15 := h.used_eq ▸ hd.fresh_seq
  rw [hpos] at hseq
  obtain ⟨-, ⟨hdata, hle, hget⟩ | ⟨hfin', hle, hlt⟩⟩ := hholds
  · rw [htype, hdata] at hin
    change conn.inbound = ((r.conn.processAck p now).receiveData p).inbound
      at hin
    have hacked : (r.conn.processAck p now).inbound = r.conn.inbound :=
      (processAck_spec r.conn p now).1
    rcases h.mode with hopen | hclosed
    · have hbound := hopen.next_le hlost h.sender
      rw [← hpayload] at hget
      obtain ⟨front', hadv⟩ := receiveData_reads (hacked.symm ▸ h.reads)
        (hacked.symm ▸ hopen.aligned) hbound hseq hle hget hfresh
      rw [hacked, ← hin] at hadv
      exact ⟨front', h.advance hopen rfl hadv⟩
    · have hhigh := h.reads.high
      have hpast := hclosed.past
      have hlt := (List.getElem?_eq_some_iff.1 hget).1
      have hfront : (r.conn.processAck p now).peerSeqNrAcked = wrap front :=
        (congrArg Inbound.frontier hacked).trans h.reads.frontier
      rw [receiveData_old hfront hseq (by omega) (by omega)] at hin
      exact ⟨front, h.same rfl rfl (hin.trans hacked)⟩
  · rw [htype, hfin'] at hin
    refine ⟨d.pos, h.used_eq, h.sender, h.logged, h.emitted, ?_, h.acked,
      .inr ⟨?_, hle, ?_⟩⟩
    · rw [show ({ r with conn := conn } : Party).conn.inbound =
        { r.conn.inbound with frontier := p.seqNr } from hin]
      exact ⟨hseq, by omega, hlt, h.reads.logical, h.reads.stream,
        h.reads.stash⟩
    · unfold Track.next at hlt
      omega
    · intro hcomplete
      rw [show ({ r with conn := conn } : Party).conn.inbound =
        { r.conn.inbound with frontier := p.seqNr } from hin]
      exact h.complete_of_delivered (hd.fin hcomplete hfin')

end

end Steps

/-! ## Both directions -/

/-- A connection past its opening. -/
def Ready (c : Connection) : Prop := c.cc.InBounds ∧ c.state ≠ .synSent

/-- The two directions between a side and the other one. -/
structure Linked (base base' : ℕ) (lost : ℕ → Prop) (complete : Prop)
    (me peer : Party) : Prop where
  forth : ∃ t front, Flow base lost complete me peer t front
  back : ∃ t front, Flow base' lost complete peer me t front
  ready : Ready me.conn
  peer_ready : Ready peer.conn

section Linked

variable {base base' : ℕ} {lost : ℕ → Prop} {complete : Prop}
  {me peer : Party}

section

variable (h : Linked base base' lost complete me peer)

include h

theorem Linked.symm : Linked base' base lost complete peer me :=
  ⟨h.back, h.forth, h.peer_ready, h.ready⟩

theorem Linked.write {me' : Party} (hused : me'.used = me.used)
    (hsent : me'.sent = me.sent) (htaken : me'.taken = me.taken)
    (hsender : ∀ t, Sender base me.conn.outbound me.offered t →
      Sender base me'.conn.outbound me'.offered t)
    (hin : me'.conn.inbound = me.conn.inbound) (hready : Ready me'.conn) :
    Linked base base' lost complete me' peer := by
  obtain ⟨t, front, hforth⟩ := h.forth
  obtain ⟨u, front', hback⟩ := h.back
  exact ⟨⟨t, front, hforth.write hused hsent (hsender t hforth.sender)⟩,
    ⟨u, front', hback.same hsent htaken hin⟩, hready, h.peer_ready⟩

theorem Linked.put (hlost : Sparse lost) {conn : Connection}
    {packets : List Packet}
    (hsends : ∀ t, Sender base me.conn.outbound me.offered t →
      ∃ t', Sender base conn.outbound me.offered t' ∧
        Sends base t t' me.conn.peerSeqNrAcked packets)
    (hin : conn.inbound = me.conn.inbound) (hready : Ready conn) :
    Linked base base' lost complete (me.put peer conn packets) peer := by
  obtain ⟨t, front, hforth⟩ := h.forth
  obtain ⟨u, front', hback⟩ := h.back
  obtain ⟨t', ho, hs⟩ := hsends t hforth.sender
  refine ⟨⟨t', front, hforth.send ho hs⟩, ⟨u, front', ?_⟩, hready, h.peer_ready⟩
  have hsame : Flow base' lost complete peer { me with conn := conn } u
      front' := hback.same rfl rfl hin
  refine hsame.answer hlost ?_
  intro p hp
  obtain ⟨hack, q, -, -, hext, hholds⟩ := hs.numbered p hp
  refine ⟨?_, ?_, .inl ?_⟩
  · rcases hholds with ⟨htype, -⟩ | ⟨htype, -⟩
    all_goals
      rw [htype]
      nofun
  · rw [hack]
    exact (congrArg Inbound.frontier hin).symm
  · rw [sackOf, hext]
    rfl

theorem Linked.receive (hlost : Sparse lost) {d : Datagram}
    (hd : Receivable base' lost complete me peer d) (stamp diff : UInt32)
    (now : ℕ) :
    Linked base base' lost complete
      (me.act peer (.receive d stamp diff now)) peer := by
  obtain ⟨t, front, hforth⟩ := h.forth
  obtain ⟨u, front', hback⟩ := h.back
  let p := d.packet.stamped stamp diff
  have hreset : p.packetType ≠ .reset := by
    intro (hreset : d.packet.packetType = .reset)
    simpa [Logged, Track.Holds, hreset] using hback.logged d hd.sent
  cases hmatch : me.conn.matchesIncoming p with
  | false =>
    rw [act_receive_of_not_matches hmatch]
    exact h
  | true =>
    obtain ⟨hin, ⟨state, hout, hended, hopening⟩, hcc, hreply⟩ :=
      handleIncoming_spec hmatch hreset now
    obtain ⟨front'', hback'⟩ := hback.receive hlost h.ready.2 hd (p := p)
      rfl rfl rfl hin
    refine ⟨⟨_, front, hforth.acknowledge hd hout hended ?_⟩,
      ⟨u, front'', hback'.answer hlost ?_⟩, ?_, h.peer_ready⟩
    · intro q hq
      rw [hreply q (Option.mem_toList.1 hq)]
      rfl
    · intro q hq
      rw [hreply q (Option.mem_toList.1 hq)]
      exact ⟨nofun, rfl, .inr rfl⟩
    · refine ⟨hcc h.ready.1, ?_⟩
      have hst := congrArg Outbound.state hout
      exact fun heq => hopening h.ready.2 (hst.symm.trans heq)

theorem Linked.act (hlost : Sparse lost) (a : Action)
    (ha : ∀ d ∈ a.received, Receivable base' lost complete me peer d) :
    Linked base base' lost complete (me.act peer a) peer := by
  cases a with
  | enqueue block =>
    obtain ⟨hin, hcc, hstate⟩ := enqueueSendBlock_frame me.conn block
    refine h.write rfl rfl rfl ?_ hin ⟨?_, ?_⟩
    · exact fun t ht => enqueueSendBlock_sender ht block
    · exact hcc ▸ h.ready.1
    · exact hstate ▸ h.ready.2
  | close =>
    obtain ⟨hin, hcc, hstate⟩ := close_frame me.conn
    refine h.write rfl rfl rfl ?_ hin ⟨?_, ?_⟩
    · exact fun t ht => close_sender ht
    · exact hcc ▸ h.ready.1
    · exact hstate h.ready.2
  | take max =>
    obtain ⟨t, front, hforth⟩ := h.forth
    obtain ⟨u, front', hback⟩ := h.back
    exact ⟨⟨t, front, hforth.write rfl rfl hforth.sender⟩,
      ⟨u, front', hback.reread rfl rfl rfl
        (takeReceived_reads hback.reads max)⟩, h.ready, h.peer_ready⟩
  | send now =>
    have hsending := pendingSendPackets_sending me.conn now
    obtain ⟨n, hn⟩ := hsending.numbers
    exact h.put hlost (fun t ht => hsending.sends h.ready.1 ht) hn.inbound
      ⟨hn.cc ▸ h.ready.1, hn.state ▸ h.ready.2⟩
  | tick now =>
    obtain ⟨state, entries, packets, heq, -, hstate⟩ :=
      tick_cases me.conn now
    have hconn := congrArg Prod.fst heq
    refine h.put hlost (fun t ht => tick_sends ht now) ?_ ⟨?_, ?_⟩ <;>
      rw [hconn]
    · rfl
    · exact h.ready.1
    · rcases hstate with rfl | rfl
      · exact h.ready.2
      · nofun
  | receive d stamp diff now =>
    exact h.receive hlost (ha d rfl) stamp diff now

end

end Linked

end RustyTorrent.Utp
