import RustyTorrent.Peer.Utp.Sender

/-!
# What a connection has in flight

Whatever delays and windows a peer reports, the congestion window stays
between its bounds, and a FIN is not sent while one is in flight.  So the
packets in flight are bounded over every history (`flight_bounded`); a
connection that is closed stays closed and sends nothing (`closed_silent`).
-/

namespace RustyTorrent.Utp.Connection

open List Nat

/-- The types of packets in flight. -/
def kinds (entries : List InFlight) : List PacketType :=
  entries.map fun e => e.packet.packetType

/-- A window within its bounds and, besides a FIN, no more packets in flight
than the widest window admits. -/
structure Restrained (c : Connection) : Prop where
  cc : c.cc.InBounds
  fin : (kinds c.inFlight).count .fin ≤ 1
  others : (kinds c.inFlight).countP (· ≠ .fin) ≤ 874

variable {c c' : Connection} {now : ℕ}

theorem Restrained.sublist (h : c.Restrained) (hcc : c'.cc.InBounds)
    (hsub : kinds c'.inFlight <+ kinds c.inFlight) : c'.Restrained :=
  ⟨hcc, (hsub.count_le _).trans h.fin, hsub.countP_le.trans h.others⟩

theorem kinds_same {entries entries' : List InFlight}
    (h : Forall₂ Same entries entries') : kinds entries' = kinds entries := by
  induction h with
  | nil => rfl
  | cons hsame _ ih =>
    obtain ⟨-, ackNr, hpacket⟩ := hsame
    rw [kinds, map_cons, hpacket]
    exact congrArg _ ih

theorem kinds_emit (c : Connection) (kind : PacketType) (payload : Bytes)
    (now : ℕ) : kinds (c.emit kind payload now).1.inFlight =
      kinds c.inFlight ++ [kind] :=
  map_append

theorem Sending.restrained {packets : List Packet}
    (h : Sending now c packets c') (hc : c.Restrained) : c'.Restrained := by
  induction h with
  | done => exact hc
  | again hagain _ ih =>
    exact ih ⟨hc.cc, (kinds_same hagain.same) ▸ hc.fin,
      (kinds_same hagain.same) ▸ hc.others⟩
  | @data c _ _ _ _ _ _ hroom _ _ ih =>
    refine ih ⟨hc.cc, ?_, ?_⟩ <;> rw [kinds_emit]
    · rw [count_append]
      exact hc.fin
    · have hle : (kinds c.inFlight).countP (· ≠ .fin) ≤ c.inFlight.length :=
        countP_le_length.trans_eq (length_map _)
      rw [countP_append]
      exact (succ_le_of_lt (hle.trans_lt hroom)).trans (window_le hc.cc)
  | @fin c hwants =>
    have hnone : (kinds c.inFlight).count .fin = 0 := by
      simp only [wantsFin, Bool.and_eq_true] at hwants
      simpa [kinds, count_eq_zero] using hwants.2
    refine ⟨hc.cc, ?_, ?_⟩ <;> rw [kinds_emit]
    · rw [count_append, hnone]
      exact le_rfl
    · rw [countP_append]
      exact hc.others

theorem handleIncoming_inBounds (h : c.cc.InBounds) (p : Packet) (now : ℕ) :
    (c.handleIncoming p now).1.cc.InBounds := by
  cases hmatch : c.matchesIncoming p with
  | false => simpa [handleIncoming, hmatch] using h
  | true =>
    by_cases hreset : p.packetType = .reset
    · simpa [handleIncoming, hmatch, hreset] using h
    · exact (handleIncoming_spec hmatch hreset now).2.2.1 h

theorem Restrained.perform (h : c.Restrained) (op : Op) :
    (c.perform op).Restrained := by
  cases op with
  | incoming p now =>
    obtain ⟨state, entries, hout, hsub, -⟩ := handleIncoming_outbound c p now
    refine h.sublist (handleIncoming_inBounds h.cc p now) ?_
    rw [show (c.perform (.incoming p now)).inFlight = entries from
      congrArg Outbound.flight hout]
    exact hsub.map _
  | take max => exact ⟨h.cc, h.fin, h.others⟩
  | enqueue block =>
    obtain ⟨blocks, len, heq⟩ := enqueueSendBlock_eq c block
    rw [Connection.perform, heq]
    exact ⟨h.cc, h.fin, h.others⟩
  | close =>
    obtain ⟨state, heq⟩ := close_eq c
    rw [Connection.perform, heq]
    exact ⟨h.cc, h.fin, h.others⟩
  | send now => exact (pendingSendPackets_sending c now).restrained h
  | tick now =>
    obtain ⟨state, entries, packets, heq, hagain, -⟩ := tick_cases c now
    rw [Connection.perform, heq]
    exact ⟨h.cc, (kinds_same hagain.same) ▸ h.fin,
      (kinds_same hagain.same) ▸ h.others⟩

theorem Opens.restrained (h : c.Opens now) : c.Restrained := by
  rcases h with ⟨recvId, rfl⟩ | ⟨syn, initSeq, state, h⟩
  · exact ⟨Ledbat.inBounds_new, zero_le 1, le_add_left 1 873⟩
  · unfold newReceiverWithSeq at h
    split_ifs at h
    cases h
    exact ⟨Ledbat.inBounds_new, zero_le 1, zero_le 874⟩

/-- After every history of a connection the congestion window is between two
packets and the receive window, at most one FIN is in flight, and with it at
most 875 packets are. -/
theorem flight_bounded (h : c.Opens now) (ops : List Op) :
    let c' := operations.after c ops
    (2400 ≤ c'.cc.cwndBytes ∧ c'.cc.cwndBytes ≤ 1048576) ∧
      (kinds c'.inFlight).count .fin ≤ 1 ∧ c'.inFlight.length ≤ 875 := by
  have hall : (operations.after c ops).Restrained :=
    (System.Reach.of_allowed (.of_forall (fun _ _ => trivial) c ops)).invariant
      h.restrained fun _ op hc _ => hc.perform op
  obtain ⟨⟨hlo, hhi⟩, hfin, hothers⟩ := hall
  refine ⟨⟨hlo.trans' ?_, hhi.trans ?_⟩, hfin, ?_⟩
  · norm_num [ledbatMinWindow, maxDataPayload]
  · norm_num [ledbatMaxWindow, recvWindowBytes]
  · rw [← length_map fun e : InFlight => e.packet.packetType,
      length_eq_countP_add_countP (· == PacketType.fin)]
    refine (Nat.add_le_add hfin ((countP_congr ?_).trans_le hothers))
    simp [kinds]

/-- The SYN of a new connection is in flight and sent again. -/
theorem flight_bounded_syn :
    let c := (newInitiator 7 0).1
    c.Opens 0 ∧ (operations.after c [.tick second]).inFlight.length ≤ 875 := by
  have h : (newInitiator 7 0).1.Opens 0 := .inl ⟨7, rfl⟩
  exact ⟨h, (flight_bounded h [.tick second]).2.2⟩

/-! ## After the end -/

theorem isClosed_iff : c.isClosed = true ↔
    c.state = .closed ∨ c.state = .reset := by
  simp [isClosed]

theorem handleIncoming_closed (h : c.isClosed = true) (p : Packet) (now : ℕ) :
    (c.handleIncoming p now).1.isClosed = true := by
  obtain heq | ⟨hsyn, -⟩ | ⟨-, heq⟩ | ⟨-, heq⟩ := state_handleIncoming c p now
  · rwa [isClosed, heq]
  · simp [isClosed, hsyn] at h
  · rw [isClosed, heq]
    rfl
  · rw [isClosed, heq]
    rfl

theorem perform_closed (h : c.isClosed = true) (op : Op) :
    (c.perform op).isClosed = true := by
  cases op with
  | incoming p now => exact handleIncoming_closed h p now
  | take => exact h
  | enqueue | close | send | tick =>
    rcases isClosed_iff.mp h with heq | heq <;>
      simp [perform, enqueueSendBlock, close, pendingSendPackets, tick,
        isClosed, heq]

/-- A connection that is closed or reset stays so: it takes no more blocks and
sends nothing, neither on its own nor when a timer runs out. -/
theorem closed_silent (h : c.isClosed = true) (ops : List Op) :
    let c' := operations.after c ops
    c'.isClosed = true ∧ (∀ now, (c'.pendingSendPackets now).2 = []) ∧
      (∀ now, (c'.tick now).2 = []) ∧
      ∀ block, (c'.enqueueSendBlock block).2 = false := by
  have hall : (operations.after c ops).isClosed = true :=
    (System.Reach.of_allowed (.of_forall (fun _ _ => trivial) c ops)).invariant
      (P := fun c => c.isClosed = true) h fun _ op hc _ => perform_closed hc op
  refine ⟨hall, ?_, ?_, ?_⟩
  · simp [pendingSendPackets, hall]
  · simp [tick, hall]
  · rcases isClosed_iff.mp hall with heq | heq <;>
      simp [enqueueSendBlock, heq]

theorem closed_silent_reset :
    let c := { (newInitiator 7 0).1 with state := .reset }
    let c' := operations.after c [.incoming (Packet.new .fin 7 1 1) 1]
    c.isClosed = true ∧ c'.isClosed = true ∧
      ∀ now, (c'.pendingSendPackets now).2 = [] :=
  ⟨rfl, (closed_silent rfl _).1, (closed_silent rfl _).2.1⟩

end RustyTorrent.Utp.Connection
