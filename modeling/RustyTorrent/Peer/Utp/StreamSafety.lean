import Mathlib.Data.List.Infix
import RustyTorrent.Peer.Utp.Opening

/-!
# The stream is never corrupted

What one side has taken is a prefix of what the other side has offered, in
every state that a run reaches in which no packet arrives too late
(`taken_prefix_offered`).  "Too late" has two halves.  The sender of a packet
may not have moved half a circle past its sequence number, and the side it
arrives at may not have moved half a circle past the number it acknowledges.
The first half alone is not enough: a side that only answers never moves, so
its oldest STATE counts as fresh for ever, and such a STATE takes packets out
of flight that were never delivered (`stale_ack_corrupts`).
-/

namespace RustyTorrent.Utp

open Serial Connection List Net

/-- The positions that a late SYN takes out of flight. -/
def SynLoses (q : ℕ) : Prop := serialLe (wrap q) 0 = true

theorem synLoses_iff {q : ℕ} :
    SynLoses q ↔ q % 65536 = 0 ∨ 32768 ≤ q % 65536 := by
  rw [SynLoses, serialLe, decide_eq_true_eq, UInt16.toNat_sub, wrap_toNat,
    UInt16.toNat_zero]
  omega

theorem sparse_synLoses : Sparse SynLoses := by
  intro a
  by_cases hlow : 1 ≤ a % 65536 ∧ a % 65536 ≤ 31892
  · refine ⟨a, Nat.le_refl _, by omega, ?_⟩
    intro i hi
    rw [synLoses_iff]
    omega
  · -- The next position that is one past a multiple of the circle.
    refine ⟨a + (65537 - a % 65536) % 65536, by omega, by omega, ?_⟩
    intro i hi
    rw [synLoses_iff]
    omega

variable {front p : ℕ} {n : Net} {x y : Party}

theorem Flow.taken_prefix {base : ℕ} {lost : ℕ → Prop} {complete : Prop}
    {s r : Party} {t : Track}
    (h : Flow base lost complete s r t front) : r.taken <+: s.offered := by
  obtain ⟨unsent, -, hoffered⟩ := h.sender.stream
  have hbuffered : r.taken <+: r.taken ++ r.conn.inbound.buffer :=
    prefix_append _ _
  rw [h.reads.stream] at hbuffered
  have hdatas : (t.datas.take r.conn.inbound.logical).flatten <+:
      t.datas.flatten := ( take_prefix _ _).flatten
  rw [hoffered]
  exact (hbuffered.trans hdatas).trans (prefix_append _ _)

/-- On both sides, what was taken is a prefix of what the other side has
offered. -/
theorem taken_prefix_offered {recvId initSeq : UInt16} {now now' : ℕ}
    {n₀ n : Net} (h₀ : Net.opened recvId initSeq now now' = some n₀)
    (h : Net.fresh.Reach n₀ n) :
    n.receiver.taken <+: n.initiator.offered ∧
      n.initiator.taken <+: n.receiver.offered := by
  have hjoined : Joined initSeq SynLoses False n := by
    refine h.invariant (joined_opened h₀ _ _) ?_
    rintro n a hn ⟨hconf, hdel, hseq, hack⟩
    refine hn.act sparse_synLoses hconf hdel fun d hd => ?_
    exact ⟨hdel d hd, hseq d hd, hack d hd, fun _ => .inl fun _ hq => hq,
      nofun⟩
  rcases hjoined with ⟨hx, hy⟩ | hlinked
  · rw [hx.taken, hy.taken]
    exact ⟨ nil_prefix, nil_prefix⟩
  · obtain ⟨_, _, hforth⟩ := hlinked.forth
    obtain ⟨_, _, hback⟩ := hlinked.back
    exact ⟨hforth.taken_prefix, hback.taken_prefix⟩

/-! ## A run with fixed identifiers -/

/-- The initiator with the identifier 7, once everything before the position
`p` is acknowledged. -/
def settled (p : ℕ) : Connection where
  state := .connected
  sendId := 8
  recvId := 7
  nextSeqNr := wrap p
  peerSeqNrAcked := 65535
  outBlocks := []
  outHead := 0
  outLen := 0
  inBuf := []
  peerLogicalAcked := 0
  pendingIn := []
  inFlight := []
  acceptToken := none
  returnPathConfirmed := true
  deadline := hardTimeout
  fastRtxSeq := none
  lastFastRtxSeq := none
  cc := Ledbat.new

/-- The STATE that answers its SYN. -/
def synAck : Datagram := ⟨⟨.state, 7, 0, 0, 1048576, 0, 1, [], []⟩, 65536, 1⟩

/-- Its DATA packet of one byte at the position `p`. -/
def dataAt (p : ℕ) (b : UInt8) : Datagram :=
  ⟨(settled p).packet .data [] [b], p, 65535⟩

/-- A run that moves one byte. -/
def oneByte : List (Side × Action) :=
  [(.initiator, .enqueue [5]), (.initiator, .receive synAck 0 0 0),
    (.initiator, .send 0), (.receiver, .receive (dataAt 2 5) 0 0 0),
    (.receiver, .take 10)]

theorem taken_prefix_offered_oneByte :
    ∃ n₀ n, Net.opened 7 0 0 0 = some n₀ ∧ Net.fresh.Reach n₀ n ∧
      n.receiver.taken = [5] ∧
      (n.receiver.taken <+: n.initiator.offered ∧
        n.initiator.taken <+: n.receiver.offered) := by
  obtain ⟨n₀, h₀⟩ : ∃ n₀, Net.opened 7 0 0 0 = some n₀ := ⟨_, rfl⟩
  have hreach : Net.fresh.Reach n₀ (Net.fresh.after n₀ oneByte) := by
    refine .of_allowed ?_
    cases h₀
    decide +kernel
  refine ⟨n₀, _, h₀, hreach, ?_, taken_prefix_offered h₀ hreach⟩
  cases h₀
  decide +kernel

/-! ## A late acknowledgement

The initiator sends one byte at a time.  The other side receives the first
32767 of them and every one is acknowledged.  From then on nothing is
delivered but two old STATE packets, again and again: the one that answered
the SYN takes the next 32768 packets out of flight, the last one takes another
32768.  The packet after those has the sequence number that the receiver is
waiting for.
-/

/-- The receiving side once it has delivered everything up to a position. -/
def reading (front : ℕ) (buffer : Bytes) (confirmed : Bool) : Connection where
  state := .connected
  sendId := 7
  recvId := 8
  nextSeqNr := 0
  peerSeqNrAcked := wrap front
  outBlocks := []
  outHead := 0
  outLen := 0
  inBuf := buffer
  peerLogicalAcked := front - 1
  pendingIn := []
  inFlight := []
  acceptToken := some 0
  returnPathConfirmed := confirmed
  deadline := hardTimeout
  fastRtxSeq := none
  lastFastRtxSeq := none
  cc := Ledbat.new

/-- The initiator with one packet in flight. -/
def waiting (p : ℕ) (b : UInt8) : Connection :=
  { settled p with
    nextSeqNr := wrap p + 1
    inFlight := [⟨wrap p, 0, initialRto, (dataAt p b).packet⟩] }

/-- The initiator after one more byte. -/
def Party.withByte (x : Party) (p : ℕ) (b : UInt8) : Party :=
  { x with
    conn := waiting p b
    used := p + 1
    sent := x.sent ++ [dataAt p b]
    offered := x.offered ++ [b] }

/-- A STATE for the initiator that acknowledges a position. -/
structure Acks (a : ℕ) (d : Datagram) : Prop where
  type : d.packet.packetType = .state
  id : d.packet.connectionId = 7
  ack : d.packet.ackNr = wrap a
  plain : d.packet.extensions = []
  pos : d.pos = 65536

theorem settled_offer (hconn : x.conn = settled p)
    (hused : x.used = p) (hpeer : y.used = 65536) (b : UInt8) :
    (x.act y (.enqueue [b])).act y (.send 0) = x.withByte p b := by
  have hsend : ((settled p).enqueueSendBlock [b]).1.pendingSendPackets 0 =
      (waiting p b, [(dataAt p b).packet]) := rfl
  have hstep : (wrap p + 1 - wrap p).toNat = 1 := by
    rw [← wrap_succ, wrap_sub (by omega) (by omega)]
    omega
  have hdata : Party.datagram (p + 1) 65536 (dataAt p b).packet =
      dataAt p b := by
    have hpos : lift (p + 1) (wrap p) = p := lift_wrap (by omega) (by omega)
    have hack : lift 65535 65535 = 65535 := by decide
    simp only [Party.datagram, dataAt, packet, settled, hpos, hack]
  have henqueue : x.act y (.enqueue [b]) =
      { x with
        conn := ((settled p).enqueueSendBlock [b]).1
        offered := x.offered ++ [b] } := by
    rw [Party.act, hconn]
    rfl
  rw [henqueue, Party.act]
  simp only [hsend, Party.put]
  rw [show (waiting p b).nextSeqNr = wrap p + 1 from rfl,
    show ((settled p).enqueueSendBlock [b]).1.nextSeqNr = wrap p from rfl,
    hstep, hused, hpeer, map_singleton, hdata]
  rfl

variable {a : ℕ}

theorem waiting_acknowledged {b : UInt8} (hconn : x.conn = waiting p b)
    {d : Datagram} (hd : Acks a d) (hle : serialLe (wrap p) (wrap a) = true) :
    x.act y (.receive d 0 0 0) = { x with conn := settled (p + 1) } := by
  let q := d.packet.stamped 0 0
  have hmatch : (waiting p b).matchesIncoming q = true := by
    simp [matchesIncoming, q, Packet.stamped, hd.id, waiting, settled]
  have hprocess : (waiting p b).processAck q 0 = settled (p + 1) := by
    have hsack : sackOf q = none := sackOf_of_nil hd.plain
    rw [processAck_plain hsack rfl]
    simp only [waiting, settled, q, Packet.stamped, hd.ack, seqLe, hle,
      dropWhile_cons, if_true, dropWhile_nil, Bool.true_or,
      wrap_succ]
  have hin : x.conn.handleIncoming q 0 = (settled (p + 1), none) := by
    rw [hconn, handleIncoming_state hmatch hd.type, hprocess]
    rfl
  have hnext : (settled (p + 1)).nextSeqNr = x.conn.nextSeqNr := by
    rw [hconn]
    exact wrap_succ p
  rw [Party.act, hin]
  exact Party.put_nil hnext

theorem reading_deliver {buffer : Bytes} {confirmed : Bool}
    (hconn : y.conn = reading front buffer confirmed) (hused : y.used = 65536)
    (hfront : 0 < front) (hroom : buffer.length < recvWindowBytes)
    (hseq : wrap p = wrap (front + 1)) (b : UInt8) :
    ∃ d, Acks (front + 1) d ∧
      y.act x (.receive (dataAt p b) 0 0 0) =
        { y with
          conn := reading (front + 1) (buffer ++ [b]) true
          sent := y.sent ++ [d] } := by
  let q := (dataAt p b).packet.stamped 0 0
  have hwindow : (reading front buffer confirmed).ackInTokenWindow 65535 =
      true := by
    simp only [ackInTokenWindow, reading]
    decide
  have hprocess : (reading front buffer confirmed).processAck q 0 =
      reading front buffer true := by
    rw [processAck_plain rfl rfl, show q.ackNr = 65535 from rfl, hwindow]
    simp [reading, q, dataAt, packet, Packet.stamped]
  have hreceive : (reading front buffer true).receiveData q =
      reading (front + 1) (buffer ++ [b]) true := by
    have hnew : serialLe (wrap (front + 1)) (wrap front) = false :=
      serialLe_of_lt (by omega) (by omega)
    have hone : (wrap (front + 1) - wrap front).toNat = 1 := by
      rw [wrap_sub (by omega) (by omega)]
      omega
    have hfull : ¬ recvWindowBytes ≤ buffer.length := by omega
    have hlogical : front - 1 + 1 = front := by omega
    rw [receiveData, show q.seqNr = wrap (front + 1) from hseq,
      show (reading front buffer true).peerSeqNrAcked = wrap front from rfl,
      seqLe, hnew, hone]
    simp only [Bool.false_eq_true, if_false, if_true, acceptInOrder]
    rw [if_neg (show ¬ recvWindowBytes ≤ (reading front buffer true).inBuf.length
      from hfull)]
    simp only [drainPendingIn, reading, length_nil, drainLoop,
      show q.seqNr = wrap (front + 1) from hseq,
      show q.payload = [b] from rfl, hlogical, Nat.add_sub_cancel]
  let c := reading (front + 1) (buffer ++ [b]) true
  have hin : y.conn.handleIncoming q 0 = (c, some c.buildStateAck) := by
    have hmatch : (reading front buffer confirmed).matchesIncoming q =
        true := rfl
    rw [hconn, handleIncoming, hmatch, show q.packetType = .data from rfl]
    simp only [Bool.not_true, Bool.false_eq_true, if_false, hprocess, hreceive]
    rfl
  have hnext : c.nextSeqNr = y.conn.nextSeqNr := by
    rw [hconn]
    rfl
  have hpos : lift y.used 0 = 65536 := by
    rw [hused]
    decide
  refine ⟨Party.datagram y.used x.used c.buildStateAck,
    ⟨rfl, rfl, rfl, rfl, hpos⟩, ?_⟩
  rw [Party.act, hin]
  simp [Party.put, hnext, c]

/-- The state of the run: the next packet has the position `p`, everything up
to `front` was delivered, and every byte is zero. -/
structure Steady (n : Net) (p front : ℕ) : Prop where
  initiator : n.initiator.conn = settled p
  used : n.initiator.used = p
  offered : n.initiator.offered = List.replicate (p - 2) 0
  receiver : ∃ confirmed, n.receiver.conn =
    reading front (List.replicate (front - 1) 0) confirmed
  peer_used : n.receiver.used = 65536
  taken : n.receiver.taken = []

/-- The receiving side has acknowledged a position. -/
def Answered (n : Net) (a : ℕ) : Prop :=
  ∃ d ∈ n.receiver.sent, Acks a d

theorem may_quiet {side : Side} {a : Action}
    (hside : side = .initiator ∨ a.writes = false)
    (ha : a.received = none) : freshSeq.may n (side, a) := by
  refine ⟨?_, ?_, ?_⟩
  · intro hreceiver hwrites
    rcases hside with rfl | hno
    · cases hreceiver
    · cases hno.symm.trans hwrites
  · intro d hd
    cases ha.symm.trans hd
  · intro d hd
    cases ha.symm.trans hd

theorem may_receive {side : Side} {d : Datagram}
    (hd : d ∈ (n.peer side).sent) (hpos : (n.peer side).used ≤ d.pos + 2 ^ 15)
    (stamp diff : UInt32) (now : ℕ) :
    freshSeq.may n (side, .receive d stamp diff now) := by
  refine ⟨fun _ hwrites => absurd hwrites nofun, ?_, ?_⟩
  · rintro d' hd'
    cases hd'
    exact hd
  · rintro d' hd'
    cases hd'
    exact hpos

section

variable (h : Steady n p front)

include h

theorem Steady.offer (b : UInt8) :
    freshSeq.Reach n { n with initiator := n.initiator.withByte p b } := by
  rw [← settled_offer h.initiator h.used h.peer_used b]
  have hfirst : freshSeq.Reach n (n.act (.initiator, .enqueue [b])) :=
    System.Reach.refl.step _ (may_quiet (.inl rfl) rfl)
  exact hfirst.step (.initiator, .send 0) (may_quiet (.inl rfl) rfl)

theorem Steady.acknowledge {front' : ℕ} (hp : 2 ≤ p)
    (hreceiver : ∃ confirmed, y.conn =
      reading front' (replicate (front' - 1) 0) confirmed)
    (hpeer : y.used = 65536) (htaken : y.taken = [])
    (ha : ∃ d ∈ y.sent, Acks a d) (hle : serialLe (wrap p) (wrap a) = true) :
    ∃ n', freshSeq.Reach ⟨n.initiator.withByte p 0, y⟩ n' ∧
      Steady n' (p + 1) front' ∧ n'.receiver = y := by
  obtain ⟨d, hmem, hd⟩ := ha
  have hmay : freshSeq.may ⟨n.initiator.withByte p 0, y⟩
      (.initiator, .receive d 0 0 0) :=
    may_receive hmem (by rw [hd.pos]; exact hpeer.le.trans (by decide)) 0 0 0
  refine ⟨_, System.Reach.refl.step _ hmay, ?_, rfl⟩
  have hact : freshSeq.next ⟨n.initiator.withByte p 0, y⟩
      (.initiator, .receive d 0 0 0) =
      ⟨{ n.initiator.withByte p 0 with conn := settled (p + 1) }, y⟩ :=
    congrArg (Net.mk · y) (waiting_acknowledged rfl hd hle)
  rw [hact]
  refine ⟨rfl, rfl, ?_, hreceiver, hpeer, htaken⟩
  rw [show p + 1 - 2 = p - 2 + 1 by omega, replicate_succ']
  exact congrArg (· ++ [0]) h.offered

theorem Steady.stale (hp : 2 ≤ p) (ha : Answered n a)
    (hle : serialLe (wrap p) (wrap a) = true) :
    ∃ n', freshSeq.Reach n n' ∧ Steady n' (p + 1) front ∧
      n'.receiver = n.receiver := by
  obtain ⟨n', hreach, hsteady⟩ :=
    h.acknowledge hp h.receiver h.peer_used h.taken ha hle
  exact ⟨n', (h.offer 0).trans hreach, hsteady⟩

/-- The receiving side gets the byte at a position that it takes for its
next one. -/
theorem Steady.deliver (hfront : 0 < front) (hroom : front ≤ recvWindowBytes)
    (hseq : wrap p = wrap (front + 1)) (b : UInt8) :
    ∃ d, Acks (front + 1) d ∧
      freshSeq.Reach n
        { initiator := n.initiator.withByte p b
          receiver :=
            { n.receiver with
              conn := reading (front + 1) (replicate (front - 1) 0 ++ [b]) true
              sent := n.receiver.sent ++ [d] } } := by
  obtain ⟨confirmed, hconn⟩ := h.receiver
  let n₁ : Net := { n with initiator := n.initiator.withByte p b }
  have hlength : (replicate (front - 1) (0 : UInt8)).length <
      recvWindowBytes := by
    rw [length_replicate]
    omega
  obtain ⟨d, hd, hact⟩ := reading_deliver (x := n₁.initiator) hconn
    h.peer_used hfront hlength hseq b
  have hmem : dataAt p b ∈ n₁.initiator.sent :=
    mem_append_right _ (mem_singleton_self _)
  have hmay : freshSeq.may n₁
      (.receiver, .receive (dataAt p b) 0 0 0) := by
    refine may_receive hmem ?_ 0 0 0
    exact Nat.add_le_add_left (by decide) p
  have hnext : freshSeq.next n₁
      (.receiver, .receive (dataAt p b) 0 0 0) =
      { n₁ with receiver := _ } :=
    congrArg (fun y => { n₁ with receiver := y }) hact
  have hreach := (h.offer b).step _ hmay
  rw [hnext] at hreach
  exact ⟨d, hd, hreach⟩

end

theorem Steady.good (h : Steady n (front + 1) front)
    (hfront : 0 < front) (hroom : front ≤ recvWindowBytes) :
    ∃ n', freshSeq.Reach n n' ∧ Steady n' (front + 2) (front + 1) ∧
      Answered n' (front + 1) ∧ ∀ a, Answered n a → Answered n' a := by
  obtain ⟨d, hd, hreach⟩ := h.deliver hfront hroom rfl 0
  have hbuffer : replicate (front - 1) (0 : UInt8) ++ [0] =
      replicate (front + 1 - 1) 0 := by
    rw [← replicate_succ']
    congr 1
    omega
  rw [hbuffer] at hreach
  have hmem : d ∈ n.receiver.sent ++ [d] := by simp
  obtain ⟨n', hreach', hsteady, hsame⟩ := h.acknowledge
    (y := { n.receiver with
      conn := reading (front + 1) (replicate (front + 1 - 1) 0) true
      sent := n.receiver.sent ++ [d] }) (by omega) ⟨true, rfl⟩
    h.peer_used h.taken ⟨d, hmem, hd⟩ (serialLe_of_le le_rfl (by omega))
  refine ⟨n', hreach.trans hreach', hsteady, ?_, ?_⟩
  · rw [Answered, hsame]
    exact ⟨d, hmem, hd⟩
  · rintro a ⟨d', hd', hrest⟩
    rw [Answered, hsame]
    exact ⟨d', mem_append_left _ hd', hrest⟩

theorem Steady.goods (h : Steady n 2 1) (k : ℕ) (hk : k < recvWindowBytes) :
    ∃ n', freshSeq.Reach n n' ∧ Steady n' (k + 2) (k + 1) ∧
      (0 < k → Answered n' (k + 1)) ∧
      ∀ a, Answered n a → Answered n' a := by
  induction k with
  | zero => exact ⟨n, .refl, h, nofun, fun _ ha => ha⟩
  | succ k ih =>
    obtain ⟨n₁, hreach₁, hsteady₁, -, hmono₁⟩ := ih (by omega)
    obtain ⟨n₂, hreach₂, hsteady₂, hlast, hmono₂⟩ :=
      hsteady₁.good (by omega) (by omega)
    exact ⟨n₂, hreach₁.trans hreach₂, hsteady₂, fun _ => hlast,
      fun a ha => hmono₂ a (hmono₁ a ha)⟩

theorem Steady.stales (h : Steady n p front) (hp : 2 ≤ p) (ha : Answered n a)
    (k : ℕ) (hle : ∀ i < k, serialLe (wrap (p + i)) (wrap a) = true) :
    ∃ n', freshSeq.Reach n n' ∧ Steady n' (p + k) front ∧
      n'.receiver = n.receiver := by
  induction k with
  | zero => exact ⟨n, .refl, h, rfl⟩
  | succ k ih =>
    obtain ⟨n₁, hreach₁, hsteady₁, hsame₁⟩ :=
      ih fun i hi => hle i (by omega)
    have ha₁ : Answered n₁ a := by rwa [Answered, hsame₁]
    obtain ⟨n₂, hreach₂, hsteady₂, hsame₂⟩ :=
      hsteady₁.stale (by omega) ha₁ (hle k (by omega))
    exact ⟨n₂, hreach₁.trans hreach₂, hsteady₂, hsame₂.trans hsame₁⟩

theorem not_prefix_of_zero {k m : ℕ} (h : k < m) :
    ¬ replicate k (0 : UInt8) ++ [1] <+: replicate m 0 ++ [1] := by
  rintro ⟨rest, hrest⟩
  have hbyte := congrArg (·[k]?) hrest
  simp [getElem?_append, h] at hbyte

/-- In a run in which every packet arrives before its sender has moved half a
circle past its sequence number, a side takes a byte that the other one
offered 65536 places later. -/
theorem stale_ack_corrupts :
    ∃ n₀ n, Net.opened 7 0 0 0 = some n₀ ∧ Net.freshSeq.Reach n₀ n ∧
      ¬ n.receiver.taken <+: n.initiator.offered := by
  obtain ⟨n₀, h₀⟩ : ∃ n₀, Net.opened 7 0 0 0 = some n₀ := ⟨_, rfl⟩
  let n₁ := n₀.act (.initiator, .receive synAck 0 0 0)
  have hmay : Net.freshSeq.may n₀ (.initiator, .receive synAck 0 0 0) := by
    cases h₀
    refine may_receive ?_ ?_ 0 0 0
    · decide
    · decide
  have hreach₁ : Net.freshSeq.Reach n₀ n₁ := System.Reach.refl.step _ hmay
  have hsteady₁ : Steady n₁ 2 1 := by
    cases h₀
    exact ⟨rfl, rfl, rfl, ⟨false, rfl⟩, rfl, rfl⟩
  have hsynAck : Answered n₁ 1 := by
    cases h₀
    exact ⟨synAck, by decide, ⟨rfl, rfl, rfl, rfl, rfl⟩⟩
  obtain ⟨n₂, hreach₂, hsteady₂, hlast, hmono⟩ :=
    hsteady₁.goods 32767 (by decide)
  obtain ⟨n₃, hreach₃, hsteady₃, hsame₃⟩ :=
    hsteady₂.stales (by omega) (hmono 1 hsynAck) 32768
      fun i hi => serialLe_of_far (by omega) (by omega)
  have hlast₃ : Answered n₃ 32768 := by
    rw [Answered, hsame₃]
    exact hlast (by omega)
  obtain ⟨n₄, hreach₄, hsteady₄, -⟩ :=
    hsteady₃.stales (by omega) hlast₃ 32768
      fun i hi => serialLe_of_far (by omega) (by omega)
  obtain ⟨d, -, hreach₅⟩ := hsteady₄.deliver (by decide) (by decide)
    (by decide) 1
  have hreach := (((hreach₁.trans hreach₂).trans hreach₃).trans
    hreach₄).trans hreach₅
  refine ⟨n₀, _, h₀, hreach.step (.receiver, .take 32768)
    (may_quiet (.inr rfl) rfl), ?_⟩
  -- The byte after the 32767 zeros is the one offered last.
  have hlength : (List.replicate 32767 (0 : UInt8) ++ [1]).length ≤
      32768 := by
    rw [length_append, length_replicate, length_singleton]
  have htaken : n₄.receiver.taken ++ ((reading (32768 + 1)
      (List.replicate 32767 0 ++ [1]) true).takeReceived 32768).2 =
      List.replicate 32767 0 ++ [1] := by
    rw [hsteady₄.taken, takeReceived_all hlength]
    rfl
  change ¬ n₄.receiver.taken ++ ((reading (32768 + 1)
    (List.replicate 32767 0 ++ [1]) true).takeReceived 32768).2 <+:
      n₄.initiator.offered ++ [1]
  rw [htaken, hsteady₄.offered]
  exact not_prefix_of_zero (by decide)

end RustyTorrent.Utp
