import RustyTorrent.Peer.Utp.Flow

/-!
# Opening a connection

Until the initiator has heard from the receiving side, only SYNs and the STATE
packets that answer them are on the network (`Opening`).  The first STATE the
initiator accepts starts the two directions (`Opening.join`).  Every permitted
action keeps `Joined`: the connection is opening, or the two directions are
linked.
-/

namespace RustyTorrent.Utp

open Serial Connection List Net Outbound Inbound

/-- A SYN of the initiator. -/
def IsSyn (p : Packet) : Prop :=
  p.packetType = .syn ∧ p.ackNr = 0 ∧ p.extensions = []

/-- A STATE that answers a SYN: the initiator has used the position one. -/
def IsSynAck (d : Datagram) : Prop :=
  d.packet.packetType = .state ∧ d.packet.ackNr = 1 ∧ d.ack = 1 ∧
    d.packet.extensions = []

/-- The connection of the initiator before the first STATE. -/
structure Dialing (c : Connection) (offered : Bytes) : Prop where
  state : c.state = .synSent ∨ c.state = .reset
  next : c.nextSeqNr = 2
  flight : ∀ e ∈ c.inFlight, e.seqNr = 1 ∧ IsSyn e.packet
  inbound : c.inbound = ⟨0, [], 0, []⟩
  queue : Queue c.outbound offered
  cc : c.cc.InBounds

/-- The initiator before the first STATE. -/
structure Calling (x : Party) : Prop where
  conn : Dialing x.conn x.offered
  used : x.used = 2
  sent : ∀ d ∈ x.sent, IsSyn d.packet
  taken : x.taken = []

/-- The receiving side before the initiator has confirmed the return path. -/
structure Called (initSeq : UInt16) (y : Party) : Prop where
  state : y.conn.state = .connected ∨ y.conn.state = .reset
  outbound : y.conn.outbound = ⟨y.conn.state, initSeq, [], 0, 0, []⟩
  used : y.used = Net.firstPos initSeq
  sent : ∀ d ∈ y.sent, IsSynAck d ∧ d.packet.seqNr = initSeq
  inbound : y.conn.inbound = ⟨1, [], 0, []⟩
  offered : y.offered = []
  taken : y.taken = []
  unconfirmed : y.conn.returnPathConfirmed = false
  cc : y.conn.cc.InBounds

theorem sackOf_of_nil {p : Packet} (h : p.extensions = []) :
    sackOf p = none := by
  rw [sackOf, h]
  rfl

theorem Flow.start {base : ℕ} (hbase : 0 < base) (lost : ℕ → Prop)
    (complete : Prop) {s r : Party} (hused : s.used = base)
    (hnext : s.conn.nextSeqNr = wrap base)
    (hqueue : Queue s.conn.outbound s.offered) (hflight : s.conn.inFlight = [])
    (hsent : ∀ d ∈ s.sent,
      d.packet.packetType = .state ∨ d.packet.packetType = .syn)
    (hin : r.conn.inbound = ⟨wrap (base - 1), [], 0, []⟩)
    (htaken : r.taken = [])
    (hacks : ∀ d ∈ r.sent, IsSyn d.packet ∨
      d.packet.packetType = .state ∧ d.packet.ackNr = wrap (base - 1) ∧
        d.ack = base - 1 ∧ d.packet.extensions = []) :
    Flow base lost complete s r ⟨[], 0, []⟩ (base - 1) := by
  have hzero : (⟨[], 0, []⟩ : Track).next base = base := rfl
  have hnone : ∀ d ∈ r.sent, sackOf d.packet = none := by
    intro d hd
    rcases hacks d hd with hsyn | ⟨-, -, -, hext⟩
    · exact sackOf_of_nil hsyn.2.2
    · exact sackOf_of_nil hext
  refine ⟨hused, ?_, ?_, ?_, ?_, ?_, .inl ⟨?_, ?_, ?_⟩⟩
  · exact ⟨hnext, ⟨s.offered, hqueue, rfl⟩, nofun, hflight, nofun,
      List.Pairwise.nil, nofun, Nat.zero_le _, fun _ => Nat.zero_le _⟩
  · intro d hd
    rcases hsent d hd with hst | hsyn
    · exact .inl hst
    · exact .inr (.inl hsyn)
  · intro q hq hlt
    omega
  · rw [hin, htaken]
    exact ⟨rfl, by omega, by omega, Nat.le_refl _, rfl, nofun⟩
  · intro d hd
    refine ⟨fun hsyn => ?_, fun hsyn => ?_, ?_⟩
    · rcases hacks d hd with his | ⟨hst, -⟩
      · exact ⟨his.2.1, sackOf_of_nil his.2.2⟩
      · rw [hsyn] at hst
        cases hst
    · rcases hacks d hd with his | ⟨-, hack, hpos, -⟩
      · exact absurd his.1 hsyn
      · rw [hack, hpos]
        exact ⟨rfl, by omega⟩
    · rw [hnone d hd]
      nofun
  · rw [hin]
    exact Nat.sub_add_cancel hbase
  · intro q hq hlt
    omega
  · intro d hd hsyn
    rw [hnone d hd]
    rcases hacks d hd with his | ⟨-, -, hpos, -⟩
    · exact absurd his.1 hsyn
    · exact ⟨hpos.le, nofun⟩

/-! ## The receiving side -/

section Called

variable {initSeq : UInt16} {x y : Party}

theorem Called.put (h : Called initSeq y) (hx : x.used = 2) {conn : Connection}
    (hstate : conn.state = .connected ∨ conn.state = .reset)
    (hout : conn.outbound = ⟨conn.state, initSeq, [], 0, 0, []⟩)
    (hin : conn.inbound = ⟨1, [], 0, []⟩)
    (hconf : conn.returnPathConfirmed = false) (hcc : conn.cc.InBounds)
    {packets : List Packet} (hpackets : ∀ p ∈ packets, p = conn.buildStateAck) :
    Called initSeq (y.put x conn packets) := by
  have hnext : conn.nextSeqNr = initSeq := congrArg next hout
  have hnext' : y.conn.nextSeqNr = initSeq :=
    congrArg next h.outbound
  obtain ⟨hack, -, -, hstash⟩ := mk.inj hin
  refine ⟨hstate, hout, ?_, ?_, hin, h.offered, h.taken, hconf, hcc⟩
  · rw [put_used (hnext.trans hnext'.symm)]
    exact h.used
  · intro d hd
    rcases mem_append.1 hd with hold | hnew
    · exact h.sent d hold
    · obtain ⟨p, hp, rfl⟩ := mem_map.1 hnew
      rw [hpackets p hp]
      refine ⟨⟨rfl, hack, ?_, ?_⟩, hnext⟩
      · simp only [Party.datagram, buildStateAck, packet, hack, hx]
        decide
      · simp [Party.datagram, buildStateAck, packet, buildSack, hstash]

theorem Called.act (h : Called initSeq y) (hx : x.used = 2) (a : Action)
    (hwrites : a.writes = false) (hsyn : ∀ d ∈ a.received, IsSyn d.packet) :
    Called initSeq (y.act x a) := by
  have hflight : y.conn.inFlight = [] := congrArg flight h.outbound
  have hlen : y.conn.outLen = 0 := congrArg len h.outbound
  cases a with
  | enqueue | close => cases hwrites
  | take max =>
    have hbuf : y.conn.inBuf = [] := congrArg buffer h.inbound
    refine ⟨h.state, h.outbound, h.used, h.sent, ?_, h.offered, ?_,
      h.unconfirmed, h.cc⟩
    · rw [← h.inbound]
      simp [Party.act, takeReceived, Connection.inbound, hbuf]
    · simp [Party.act, takeReceived, hbuf, h.taken]
  | send now =>
    have hfin : y.conn.state ≠ .finSent := by
      rcases h.state with hst | hst <;> simp [hst]
    obtain ⟨seq, hsend⟩ := pendingSendPackets_idle hflight hlen hfin now
    rw [Party.act, hsend]
    refine h.put hx ?_ ?_ ?_ ?_ ?_ (by simp)
    · exact h.state
    · exact h.outbound
    · exact h.inbound
    · exact h.unconfirmed
    · exact h.cc
  | tick now =>
    rw [Party.act]
    rcases tick_idle hflight now with htick | htick
    · rw [htick]
      exact h.put hx h.state h.outbound h.inbound h.unconfirmed h.cc (by simp)
    · rw [htick]
      refine h.put hx ?_ ?_ ?_ ?_ ?_ (by simp)
      · exact .inr rfl
      · exact congrArg (fun o : Outbound => { o with state := .reset })
          h.outbound
      · exact h.inbound
      · exact h.unconfirmed
      · exact h.cc
  | receive d stamp diff now =>
    have htype := (hsyn d rfl).1
    let p := d.packet.stamped stamp diff
    cases hmatch : y.conn.matchesIncoming p with
    | false =>
      rw [Party.act_receive_of_not_matches hmatch]
      exact h
    | true =>
      obtain ⟨hin, hout, hcc, hconf⟩ := processAck_spec y.conn p now
      have hin' : y.conn.handleIncoming p now = (y.conn.processAck p now,
            some (y.conn.processAck p now).buildStateAck) := by
        rw [handleIncoming, hmatch, show p.packetType = .syn from htype]
        rfl
      have hst := processAck_state y.conn p now
      rw [Party.act, hin']
      refine h.put hx (hst ▸ h.state) ?_ (hin.trans h.inbound)
        ((hconf htype).trans h.unconfirmed) (hcc h.cc) ?_
      · rw [hout, hst, hflight, remaining_nil]
        exact congrArg (·.become y.conn.state []) h.outbound
      · intro q hq
        simpa using hq

end Called

/-! ## The initiator -/

section Dialing

variable {c : Connection} {offered : Bytes}

section

variable (h : Dialing c offered)

include h

theorem Dialing.enqueueSendBlock (block : Bytes) :
    let r := c.enqueueSendBlock block
    Dialing r.1 (if r.2 then offered ++ block else offered) := by
  unfold Connection.enqueueSendBlock
  split_ifs with hended hempty
  · exact h
  · exact h
  · refine ⟨h.state, h.next, h.flight, h.inbound, ?_, h.cc⟩
    exact (h.queue.enqueue hempty).congr rfl rfl rfl

theorem Dialing.close : c.close = c := by
  rcases h.state with hst | hst <;> simp [Connection.close, hst]

theorem Dialing.takeReceived (max : ℕ) : c.takeReceived max = (c, []) := by
  have hbuf : c.inBuf = [] := congrArg buffer h.inbound
  simp only [Connection.takeReceived, hbuf, length_nil, Nat.zero_min,
    take_nil, drop_nil, Prod.mk.injEq, and_true]
  rw [← hbuf]

theorem Dialing.pendingSendPackets (now : ℕ) :
    c.pendingSendPackets now = (c, []) := by
  rcases h.state with hst | hst <;>
    simp [Connection.pendingSendPackets, isClosed, hst]

end

theorem retransmit_isSyn {e : InFlight} (h : e.seqNr = 1 ∧ IsSyn e.packet)
    {ackNr : UInt16} (hack : ackNr = 0) (now : ℕ) :
    ((retransmit ackNr now e).1.seqNr = 1 ∧
      IsSyn (retransmit ackNr now e).1.packet) ∧
    ∀ p ∈ (retransmit ackNr now e).2, IsSyn p := by
  have hsyn : IsSyn { e.packet with ackNr := ackNr } :=
    ⟨h.2.1, hack, h.2.2.2⟩
  unfold retransmit
  split_ifs
  · refine ⟨⟨h.1, hsyn⟩, ?_⟩
    intro p hp
    cases hp
    exact hsyn
  · exact ⟨h, nofun⟩

theorem Dialing.tick (h : Dialing c offered) (now : ℕ) :
    Dialing (c.tick now).1 offered ∧ ∀ p ∈ (c.tick now).2, IsSyn p := by
  have hack : c.peerSeqNrAcked = 0 := congrArg frontier h.inbound
  unfold Connection.tick
  split_ifs
  · exact ⟨h, nofun⟩
  · exact ⟨⟨.inr rfl, h.next, h.flight, h.inbound,
      h.queue.congr rfl rfl rfl, h.cc⟩, nofun⟩
  · refine ⟨⟨h.state, h.next, ?_, h.inbound, h.queue.congr rfl rfl rfl,
      h.cc⟩, ?_⟩
    · intro e he
      obtain ⟨r, hr, rfl⟩ := mem_map.1 he
      obtain ⟨e', he', rfl⟩ := mem_map.1 hr
      exact (retransmit_isSyn (h.flight e' he') hack now).1
    · intro p hp
      obtain ⟨r, hr, hrp⟩ := mem_filterMap.1 hp
      obtain ⟨e', he', rfl⟩ := mem_map.1 hr
      exact (retransmit_isSyn (h.flight e' he') hack now).2 p hrp

theorem Dialing.remaining (h : Dialing c offered) {p : Packet}
    (hack : p.ackNr = 1) (hext : p.extensions = []) :
    Connection.remaining p c.inFlight = [] := by
  rw [Connection.remaining, sackOf_of_nil hext]
  refine dropWhile_eq_nil_iff.2 ?_
  intro e he
  rw [(h.flight e he).1, hack]
  rfl

end Dialing

section Calling

variable {initSeq : UInt16} {x y : Party}

theorem Calling.put (h : Calling x) {conn : Connection}
    (hconn : Dialing conn x.offered) {packets : List Packet}
    (hpackets : ∀ p ∈ packets, IsSyn p) : Calling (x.put y conn packets) := by
  refine ⟨hconn, ?_, ?_, h.taken⟩
  · rw [put_used (hconn.next.trans h.conn.next.symm)]
    exact h.used
  · intro d hd
    rcases mem_append.1 hd with hold | hnew
    · exact h.sent d hold
    · obtain ⟨p, hp, rfl⟩ := mem_map.1 hnew
      exact hpackets p hp

theorem Calling.act (h : Calling x) (a : Action) (ha : a.received = none) :
    Calling (x.act y a) := by
  cases a with
  | enqueue block =>
    exact ⟨h.conn.enqueueSendBlock block, h.used, h.sent, h.taken⟩
  | close =>
    rw [Party.act, h.conn.close]
    exact h
  | take max =>
    rw [Party.act, h.conn.takeReceived max]
    exact ⟨h.conn, h.used, h.sent, by simp [h.taken]⟩
  | send now =>
    rw [Party.act, h.conn.pendingSendPackets now]
    exact h.put h.conn (by simp)
  | tick now =>
    obtain ⟨hconn, hpackets⟩ := h.conn.tick now
    exact h.put hconn hpackets
  | receive d stamp diff now => cases ha

theorem wrap_firstPos (initSeq : UInt16) :
    wrap (firstPos initSeq) = initSeq := by
  apply UInt16.toNat_inj.1
  have hlt := initSeq.toNat_lt
  simp only [firstPos, wrap_toNat]
  omega

theorem Linked.start (lost : ℕ → Prop) (complete : Prop)
    (hy : Called initSeq y) (hused : x.used = 2)
    (hnext : x.conn.nextSeqNr = 2) (hqueue : Queue x.conn.outbound x.offered)
    (hflight : x.conn.inFlight = []) (hsent : ∀ d ∈ x.sent, IsSyn d.packet)
    (hin : x.conn.inbound = ⟨initSeq - 1, [], 0, []⟩)
    (htaken : x.taken = []) (hready : Ready x.conn) :
    Linked 2 (firstPos initSeq) lost complete x y := by
  have hfirst : 0 < firstPos initSeq := by
    unfold firstPos
    omega
  have hstate : y.conn.state ≠ .synSent := by
    rcases hy.state with hst | hst <;> simp [hst]
  refine ⟨⟨⟨[], 0, []⟩, 1, ?_⟩,
    ⟨⟨[], 0, []⟩, firstPos initSeq - 1, ?_⟩, hready, ⟨hy.cc, hstate⟩⟩
  · refine Flow.start (by decide) lost complete hused hnext hqueue hflight
      ?_ hy.inbound hy.taken ?_
    · exact fun d hd => .inr (hsent d hd).1
    · exact fun d hd => .inr (hy.sent d hd).1
  · refine Flow.start hfirst lost complete hy.used ?_ ?_ ?_ ?_ ?_ htaken ?_
    · rw [wrap_firstPos]
      exact congrArg next hy.outbound
    · rw [hy.outbound, hy.offered]
      exact ⟨rfl, rfl, nofun, nofun, fun _ => rfl⟩
    · exact congrArg flight hy.outbound
    · exact fun d hd => .inl (hy.sent d hd).1.1
    · rw [hin, wrap_pred hfirst, wrap_firstPos]
    · exact fun d hd => .inl (hsent d hd)

theorem Calling.processAck (h : Calling x) {p : Packet} (hack : p.ackNr = 1)
    (hext : p.extensions = []) (now : ℕ) :
    let c := x.conn.processAck p now
    c.inbound = ⟨0, [], 0, []⟩ ∧ c.state = x.conn.state ∧
      c.nextSeqNr = 2 ∧ c.inFlight = [] ∧ Queue c.outbound x.offered ∧
      c.cc.InBounds := by
  obtain ⟨hin, hout, hcc, -⟩ := processAck_spec x.conn p now
  rw [h.conn.remaining hack hext] at hout
  refine ⟨hin.trans h.conn.inbound, congrArg Outbound.state hout,
    (congrArg next hout).trans h.conn.next,
    congrArg flight hout, ?_, hcc h.conn.cc⟩
  rw [hout]
  exact h.conn.queue.congr rfl rfl rfl

theorem Calling.linked (h : Calling x) (hy : Called initSeq y)
    (lost : ℕ → Prop) (complete : Prop) {d : Datagram} (hd : d ∈ y.sent)
    {stamp diff : UInt32} (hsyn : x.conn.state = .synSent)
    (hmatch : x.conn.matchesIncoming (d.packet.stamped stamp diff) = true)
    (now : ℕ) :
    Linked 2 (firstPos initSeq) lost complete
      (x.act y (.receive d stamp diff now)) y := by
  obtain ⟨⟨htype, hack, -, hext⟩, hseq⟩ := hy.sent d hd
  let p := d.packet.stamped stamp diff
  obtain ⟨hin, -, hnext, hflight, hqueue, hcc⟩ :=
    h.processAck (p := p) hack hext now
  have hused : x.used + ((x.conn.processAck p now).nextSeqNr -
      x.conn.nextSeqNr).toNat = 2 := by
    rw [hnext, h.conn.next, h.used]
    rfl
  rw [Party.act, handleIncoming_state hmatch htype, if_pos hsyn]
  refine .start lost complete hy hused hnext (hqueue.congr rfl rfl rfl)
    hflight ?_ ?_ h.taken ⟨hcc, by rintro ⟨⟩⟩
  · intro d' hd'
    refine h.sent d' ?_
    simpa [Party.put] using hd'
  · rw [← hseq]
    exact congrArg (fun i : Inbound =>
      { i with frontier := d.packet.seqNr - 1 }) hin

theorem Calling.join (h : Calling x) (hy : Called initSeq y)
    (lost : ℕ → Prop) (complete : Prop) {d : Datagram} (hd : d ∈ y.sent)
    (stamp diff : UInt32) (now : ℕ) :
    let x' := x.act y (.receive d stamp diff now)
    Calling x' ∨ Linked 2 (firstPos initSeq) lost complete x' y := by
  obtain ⟨⟨htype, hack, -, hext⟩, hseq⟩ := hy.sent d hd
  let p := d.packet.stamped stamp diff
  cases hmatch : x.conn.matchesIncoming p with
  | false =>
    rw [Party.act_receive_of_not_matches hmatch]
    exact .inl h
  | true =>
    by_cases hsyn : x.conn.state = .synSent
    · exact .inr (h.linked hy lost complete hd hsyn hmatch now)
    · left
      obtain ⟨hin, hst, hnext, hflight, hqueue, hcc⟩ :=
        h.processAck (p := p) hack hext now
      rw [Party.act, handleIncoming_state hmatch htype, if_neg hsyn]
      refine h.put ⟨?_, hnext, ?_, hin, hqueue, hcc⟩ (by simp)
      · rw [hst]
        exact h.conn.state
      · intro e he
        rw [hflight] at he
        cases he

end Calling

/-! ## The network -/

/-- A network whose connection is opening, or whose two directions are
linked. -/
def Joined (initSeq : UInt16) (lost : ℕ → Prop) (complete : Prop)
    (n : Net) : Prop :=
  (Calling n.initiator ∧ Called initSeq n.receiver) ∨
    Linked 2 (Net.firstPos initSeq) lost complete n.initiator n.receiver

/-- The position of the first DATA packet of a side. -/
def Net.base (initSeq : UInt16) : Side → ℕ
  | .initiator => 2
  | .receiver => Net.firstPos initSeq

/-- The other side. -/
def Side.other : Side → Side
  | .initiator => .receiver
  | .receiver => .initiator

variable {n : Net} {initSeq : UInt16}

theorem opened_calls {recvId : UInt16} {now now' : ℕ}
    (h : opened recvId initSeq now now' = some n) :
    Calling n.initiator ∧ Called initSeq n.receiver ∧
      n.initiator.conn.state = .synSent ∧ n.initiator.conn.recvId = recvId ∧
      ∀ d ∈ n.receiver.sent, d.packet.connectionId = recvId := by
  simp only [opened, newReceiverWithSeq, newInitiator, Packet.new,
    ne_eq, not_true_eq_false, if_false, Option.map_some,
    Option.some.injEq] at h
  subst h
  refine ⟨?_, ?_, rfl, rfl, ?_⟩
  · refine ⟨⟨.inl rfl, rfl, ?_, rfl, ⟨rfl, rfl, nofun, nofun, fun _ => rfl⟩,
      Ledbat.inBounds_new⟩, rfl, ?_, rfl⟩
    · intro e he
      rw [mem_singleton.1 he]
      exact ⟨rfl, rfl, rfl, rfl⟩
    · intro d hd
      rw [mem_singleton.1 hd]
      exact ⟨rfl, rfl, rfl⟩
  · refine ⟨.inl rfl, rfl, rfl, ?_, rfl, rfl, rfl, rfl, Ledbat.inBounds_new⟩
    intro d hd
    rw [mem_singleton.1 hd]
    exact ⟨⟨rfl, rfl, rfl, rfl⟩, rfl⟩
  · intro d hd
    rw [mem_singleton.1 hd]
    rfl

theorem joined_opened {recvId : UInt16} {now now' : ℕ}
    (h : opened recvId initSeq now now' = some n) (lost : ℕ → Prop)
    (complete : Prop) : Joined initSeq lost complete n := by
  obtain ⟨hx, hy, -⟩ := opened_calls h
  exact .inl ⟨hx, hy⟩

theorem Joined.act {lost : ℕ → Prop} {complete : Prop}
    (h : Joined initSeq lost complete n) (hlost : Sparse lost)
    {a : Side × Action} (hconf : n.Confirmed a) (hdel : n.Delivers a)
    (hrec : ∀ d ∈ a.2.received, Receivable (base initSeq a.1.other)
      lost complete (n.me a.1) (n.peer a.1) d) :
    Joined initSeq lost complete (n.act a) := by
  obtain ⟨side, a⟩ := a
  rcases h with ⟨hx, hy⟩ | hlinked
  · cases side with
    | initiator =>
      cases ha : a.received with
      | none => exact .inl ⟨hx.act a ha, hy⟩
      | some d =>
        cases a with
        | receive d' stamp diff now =>
          have hd : d' ∈ n.receiver.sent := hdel d' rfl
          rcases hx.join hy lost complete hd stamp diff now with
            hcalling | hlinked
          · exact .inl ⟨hcalling, hy⟩
          · exact .inr hlinked
        | _ => cases ha
    | receiver =>
      refine .inl ⟨hx, hy.act hx.used a ?_ ?_⟩
      · cases hwrites : a.writes with
        | false => rfl
        | true =>
          have hyes := hconf rfl hwrites
          cases hy.unconfirmed.symm.trans hyes
      · exact fun d hd => hx.sent d (hdel d hd)
  · right
    cases side with
    | initiator => exact hlinked.act hlost a hrec
    | receiver => exact (hlinked.symm.act hlost a hrec).symm

end RustyTorrent.Utp
