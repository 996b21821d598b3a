import RustyTorrent.Peer.Utp.Driver
import RustyTorrent.Peer.Utp.Operations

/-!
# What a driver step does to one connection

The input of a step reaches one connection, and `collect_after` then delivers,
sends and reaps.  `Connection.Sound` is what every input keeps.  A connection
is reaped exactly when it is Closed or Reset: `pending_send_packets` puts a new
FIN in flight before the test for a completed FIN is made
(`Sending.flight`).  What the delivery loop places and what it
leaves behind depends only on the free slots (`deliver_bytes`).
-/

namespace RustyTorrent.Utp

open List UtpStream Connection Entry Inbound

namespace Connection

/-! ## What every operation keeps -/

/-- A connection under its identifier, with a well-formed block queue. -/
structure Sound (number : UInt16) (c : Connection) : Prop where
  recvId : c.recvId = number
  queue : ∃ unsent, Queue c.outbound unsent

variable {number : UInt16} {c : Connection}

theorem queue_fresh (c : Connection) (hblocks : c.outBlocks = [])
    (hhead : c.outHead = 0) (hlen : c.outLen = 0) : Queue c.outbound [] := by
  refine ⟨?_, hlen, ?_, ?_, fun _ => hhead⟩ <;> simp [outbound, hblocks]

theorem newInitiator_sound (recvId : UInt16) (now : ℕ) :
    (newInitiator recvId now).1.Sound recvId :=
  ⟨rfl, [], queue_fresh _ rfl rfl rfl⟩

theorem newReceiverWithSeq_sound {syn state : Packet} {now : ℕ}
    {initSeq : UInt16}
    (h : newReceiverWithSeq syn now initSeq = some (c, state)) :
    c.Sound (syn.connectionId + 1) ∧ c.state = .connected ∧ c.inBuf = [] := by
  unfold newReceiverWithSeq at h
  split_ifs at h
  cases h
  exact ⟨⟨rfl, [], queue_fresh _ rfl rfl rfl⟩, rfl, rfl⟩

theorem drainLoop_inBuf {buf : Bytes} (fuel : ℕ) (c : Connection)
    (h : buf <+: c.inBuf) : buf <+: (drainLoop fuel c).inBuf := by
  induction fuel generalizing c with
  | zero => exact h
  | succ fuel ih =>
    unfold drainLoop
    cases hstep : c.drainStep with
    | none => exact h
    | some c' =>
      refine ih c' ?_
      unfold drainStep at hstep
      split_ifs at hstep
      split at hstep
      next => cases hstep
      next =>
        cases hstep
        exact h.trans (prefix_append _ _)

theorem receiveData_inBuf (c : Connection) (p : Packet) :
    c.inBuf <+: (c.receiveData p).inBuf := by
  unfold receiveData acceptInOrder stashAhead
  split_ifs
  · exact prefix_rfl
  · exact prefix_rfl
  · exact drainLoop_inBuf _ _ (prefix_append _ _)
  · exact prefix_rfl
  · exact prefix_rfl

theorem handleIncoming_extends (c : Connection) (p : Packet) (now : ℕ) :
    c.inBuf <+: (c.handleIncoming p now).1.inBuf := by
  have hbuf : (c.processAck p now).inBuf = c.inBuf :=
    congrArg buffer (processAck_spec c p now).1
  have hdata := receiveData_inBuf (c.processAck p now) p
  rw [hbuf] at hdata
  unfold handleIncoming
  split_ifs
  · exact prefix_rfl
  · cases p.packetType with
    | reset => exact prefix_rfl
    | syn => exact hbuf ▸ prefix_rfl
    | state | fin =>
      simp only
      split_ifs <;> exact hbuf ▸ prefix_rfl
    | data => exact hdata

theorem handleIncoming_sound (h : c.Sound number) (p : Packet) (now : ℕ) :
    (c.handleIncoming p now).1.Sound number := by
  obtain ⟨unsent, hqueue⟩ := h.queue
  have hid : (c.handleIncoming p now).1.recvId = c.recvId :=
    congrArg Fixed.recvId (handleIncoming_fixed c p now)
  obtain ⟨state, entries, hout, -⟩ := handleIncoming_outbound c p now
  refine ⟨hid.trans h.recvId, unsent, ?_⟩
  rw [hout]
  exact hqueue.congr rfl rfl rfl

/-- A packet closes a connection exactly if it is a FIN for it that finds
nothing queued and leaves nothing in flight. -/
theorem handleIncoming_closed_iff (hopen : c.state ≠ .closed) (p : Packet)
    (now : ℕ) :
    (c.handleIncoming p now).1.state = .closed ↔
      c.matchesIncoming p = true ∧ p.packetType = .fin ∧ c.outLen = 0 ∧
        remaining p c.inFlight = [] := by
  obtain ⟨hstate, -, -, -, hlen, hflight⟩ :=
    Outbound.mk.inj (processAck_spec c p now).2.1
  dsimp only [outbound] at hlen
  have hdata : ((c.processAck p now).receiveData p).state = c.state :=
    (congrArg Outbound.state (receiveData_outbound _ p).1).trans hstate
  unfold handleIncoming
  cases c.matchesIncoming p with
  | false => simp [hopen]
  | true =>
    cases p.packetType with
    | reset => simp
    | syn => simp [hstate, hopen]
    | state =>
      simp only [Bool.not_true, Bool.false_eq_true, if_false, hstate]
      split_ifs <;> simp [hstate, hopen]
    | data => simp [hdata, hopen]
    | fin =>
      simp only [Bool.not_true, Bool.false_eq_true, if_false, hlen, hflight]
      split_ifs with hdone
      · simp [hdone]
      · simp only [hstate, hopen, true_and, hdone]

theorem handleIncoming_fin_inBuf {p : Packet}
    (hmatch : c.matchesIncoming p = true) (hfin : p.packetType = .fin)
    (now : ℕ) : (c.handleIncoming p now).1.inBuf = c.inBuf := by
  have hspec := (handleIncoming_spec hmatch (by simp [hfin]) now).1
  rw [received, hfin] at hspec
  exact congrArg buffer hspec

theorem enqueueSendBlock_sound (h : c.Sound number) (block : Bytes) :
    (c.enqueueSendBlock block).1.Sound number := by
  obtain ⟨unsent, hqueue⟩ := h.queue
  unfold enqueueSendBlock
  split_ifs with hended hempty
  · exact h
  · exact h
  · exact ⟨h.recvId, _, hqueue.enqueue hempty⟩

theorem close_sound (h : c.Sound number) :
    c.close.Sound number ∧ c.close.isClosed = c.isClosed := by
  unfold close
  split_ifs with hended
  · exact ⟨h, rfl⟩
  · obtain ⟨unsent, hqueue⟩ := h.queue
    refine ⟨⟨h.recvId, unsent, hqueue.congr rfl rfl rfl⟩, ?_⟩
    simp only [not_or] at hended
    simp [isClosed, hended]

theorem tick_sound (h : c.Sound number) (now : ℕ) :
    (c.tick now).1.Sound number ∧ (c.tick now).1.inBuf = c.inBuf ∧
      ((c.tick now).1.state = .closed → c.state = .closed) := by
  obtain ⟨unsent, hqueue⟩ := h.queue
  obtain ⟨state, entries, packets, heq, -, hstate⟩ := tick_cases c now
  rw [heq]
  refine ⟨⟨h.recvId, unsent, hqueue.congr rfl rfl rfl⟩, rfl, ?_⟩
  rintro rfl
  rcases hstate with hsame | hreset
  · exact hsame.symm
  · cases hreset

/-! ## Sending -/

/-- What sending keeps of a connection. -/
structure Sent (c c' : Connection) : Prop where
  recvId : c'.recvId = c.recvId
  inBuf : c'.inBuf = c.inBuf
  state : c'.state = c.state
  queue : (∃ unsent, Queue c.outbound unsent) →
    ∃ unsent, Queue c'.outbound unsent

theorem Sending.queue {now : ℕ} {packets : List Packet} {c c' : Connection}
    (h : Sending now c packets c')
    (hqueue : ∃ unsent, Queue c.outbound unsent) :
    ∃ unsent, Queue c'.outbound unsent := by
  induction h with
  | done => exact hqueue
  | again _ _ ih =>
    obtain ⟨unsent, hq⟩ := hqueue
    exact ih ⟨unsent, hq.congr rfl rfl rfl⟩
  | data _ hnext _ ih =>
    obtain ⟨unsent, hq⟩ := hqueue
    obtain ⟨-, -, rest, -, hrest⟩ := nextPayload_spec hq hnext
    exact ih ⟨rest, hrest.congr rfl rfl rfl⟩
  | fin =>
    obtain ⟨unsent, hq⟩ := hqueue
    exact ⟨unsent, hq.congr rfl rfl rfl⟩

theorem pendingSendPackets_sent (c : Connection) (now : ℕ) :
    c.Sent (c.pendingSendPackets now).1 := by
  have h := pendingSendPackets_sending c now
  obtain ⟨n, hn⟩ := h.numbers
  exact ⟨congrArg Fixed.recvId hn.fixed, congrArg buffer hn.inbound,
    hn.state, h.queue⟩

theorem window_pos (c : Connection) : 0 < c.window := by
  unfold window Ledbat.windowPackets
  split_ifs
  · exact lt_of_lt_of_le (by decide) (le_max_right _ 2)
  · decide

/-- A connection that has begun to close has a packet in flight whenever
`pending_send_packets` returns: its data, or a FIN, which is put in flight
again after it was acknowledged. -/
theorem Sending.flight {now : ℕ} {packets : List Packet} {c c' : Connection}
    (h : Sending now c packets c') (hqueue : ∃ unsent, Queue c.outbound unsent)
    (hfin : c.state = .finSent) : c'.inFlight ≠ [] := by
  induction h with
  | @done c hwants hstop =>
    intro hnil
    -- nothing was in flight, so the window had room and the queue is empty
    obtain ⟨unsent, hq⟩ := hqueue
    rcases hstop hfin with hnone | hfull
    · rw [nextPayload_none hq hnone] at hq
      have hlen : c.outLen = 0 := hq.len_eq
      simp [wantsFin, hfin, hlen, hnil] at hwants
    · rw [hnil] at hfull
      exact absurd c.window_pos (Nat.not_lt.mpr hfull)
  | again _ _ ih =>
    obtain ⟨unsent, hq⟩ := hqueue
    exact ih ⟨unsent, hq.congr rfl rfl rfl⟩ hfin
  | data _ hnext _ ih =>
    obtain ⟨unsent, hq⟩ := hqueue
    obtain ⟨-, -, rest, -, hrest⟩ := nextPayload_spec hq hnext
    exact ih ⟨rest, hrest.congr rfl rfl rfl⟩ hfin
  | fin => simp [emit]

theorem pendingSendPackets_reaped_iff
    (hqueue : ∃ unsent, Queue c.outbound unsent) (now : ℕ) :
    ((c.pendingSendPackets now).1.isClosed ||
      (c.pendingSendPackets now).1.finComplete) = c.isClosed := by
  have hstate := (pendingSendPackets_sent c now).state
  have hfin : (c.pendingSendPackets now).1.finComplete = false := by
    by_cases h : c.state = .finSent
    · have hflight := (pendingSendPackets_sending c now).flight hqueue h
      simp [finComplete, hflight]
    · simp [finComplete, hstate, h]
  simp [hfin, isClosed, hstate]

end Connection

/-! ## Delivering -/

/-- The delivery loop changes the buffer of the connection, the queue and what
was placed in it. -/
theorem deliver_frame (slots : ℕ) (c : Connection) (st : UtpStream) :
    ∃ buf queue placed, deliver slots c st =
      ({ c with inBuf := buf }, { st with queue := queue, placed := placed }) := by
  induction slots generalizing c st with
  | zero => exact ⟨c.inBuf, st.queue, st.placed, rfl⟩
  | succ slots ih =>
    unfold deliver
    dsimp only
    split_ifs
    · exact ⟨_, st.queue, st.placed, rfl⟩
    · exact ⟨_, st.queue, st.placed, rfl⟩
    · obtain ⟨buf, queue, placed, h⟩ := ih (c.takeReceived deliverMsgBytes).1
        { st with
          queue := st.queue ++ [(c.takeReceived deliverMsgBytes).2]
          placed := st.placed ++ (c.takeReceived deliverMsgBytes).2 }
      exact ⟨buf, queue, placed, h⟩

variable {st st' : UtpStream} {e : Entry}

/-- A stream that somebody holds gets what fits into the free slots; the rest
stays in the buffer. -/
theorem deliver_bytes (slots : ℕ) (c : Connection) (hheld : st.holder ≠ .gone) :
    (deliver slots c st).1.inBuf = c.inBuf.drop (deliverMsgBytes * slots) ∧
      (deliver slots c st).2.placed =
        st.placed ++ c.inBuf.take (deliverMsgBytes * slots) := by
  induction slots generalizing c st with
  | zero => simp [deliver]
  | succ slots ih =>
    have htake : (c.takeReceived deliverMsgBytes).2 =
        c.inBuf.take deliverMsgBytes := by
      simp only [takeReceived]
      rw [min_comm, ← take_eq_take_min]
    have hdrop : (c.takeReceived deliverMsgBytes).1.inBuf =
        c.inBuf.drop deliverMsgBytes := by
      simp only [takeReceived]
      rw [min_comm, ← drop_eq_drop_min]
    unfold deliver
    dsimp only
    rw [htake]
    split_ifs with hempty
    · have hnil : c.inBuf = [] := by
        rcases take_eq_nil_iff.1 hempty with hzero | hnil
        · exact absurd hzero (by decide)
        · exact hnil
      simp [hdrop, hnil]
    · let st' : UtpStream :=
        { st with
          queue := st.queue ++ [c.inBuf.take deliverMsgBytes]
          placed := st.placed ++ c.inBuf.take deliverMsgBytes }
      have hheld' : st'.holder ≠ .gone := hheld
      obtain ⟨hbuf, hplaced⟩ := ih (c.takeReceived deliverMsgBytes).1 hheld'
      rw [hdrop] at hbuf hplaced
      have hsum : deliverMsgBytes * (slots + 1) =
          deliverMsgBytes + deliverMsgBytes * slots := by ring
      refine ⟨?_, ?_⟩
      · rw [hbuf, drop_drop, hsum]
      · rw [hplaced, hsum, take_add, append_assoc]

/-! ## Collecting -/

/-- A connection and its stream after an input: the stream has not ended, and
what was accepted is what was placed and what is still in the buffer, as long
as somebody holds the stream. -/
structure Entry.Ready (key : ConnKey) (e : Entry) (st : UtpStream) : Prop where
  sound : e.conn.Sound key.2
  running : st.ending = none
  bytes : st.holder ≠ .gone → st.accepted = st.placed ++ e.conn.inBuf

/-- A connection between the steps of the driver. -/
structure Entry.Good (key : ConnKey) (e : Entry) (st : UtpStream) : Prop
    extends Entry.Ready key e st where
  live : e.conn.isClosed = false

/-- A clean end hides no byte that was accepted. -/
def UtpStream.Truthful (st : UtpStream) : Prop :=
  st.ending = some .eof → st.placed = st.accepted

/-- What a change of a stream by anybody but the delivery loop and the end of
its connection keeps. -/
structure UtpStream.Kept (st st' : UtpStream) : Prop where
  ending : st'.ending = st.ending
  accepted : st'.accepted = st.accepted
  placed : st'.placed = st.placed
  held : st'.holder ≠ .gone → st.holder ≠ .gone

theorem UtpStream.Kept.refl (st : UtpStream) : st.Kept st :=
  ⟨rfl, rfl, rfl, id⟩

theorem UtpStream.Kept.truthful_iff (h : st.Kept st') :
    st'.Truthful ↔ st.Truthful := by
  rw [UtpStream.Truthful, h.ending, h.accepted, h.placed]
  rfl

theorem UtpStream.drop_kept (st : UtpStream) : st.Kept st.drop.1 :=
  ⟨rfl, rfl, rfl, fun h => absurd rfl h⟩

theorem UtpStream.handOver_kept (h : st.holder ≠ .gone)
    (wanted : Bool) : st.Kept (st.handOver wanted).1 := by
  unfold handOver
  split_ifs
  · exact ⟨rfl, rfl, rfl, fun _ => h⟩
  · exact st.drop_kept

theorem UtpStream.notify_kept (st : UtpStream) (state : State)
    (waiting : ℕ → Bool) : st.Kept (st.notify state waiting).1 := by
  unfold notify
  split
  next number hholder =>
    exact handOver_kept (by rw [hholder]; nofun) _
  next => exact .refl st

theorem UtpStream.notify_of_isClosed (st : UtpStream) {c : Connection}
    (h : c.isClosed = true) (waiting : ℕ → Bool) :
    st.notify c.state waiting = (st, []) := by
  unfold notify
  split
  next number hconnected hholder => simp [isClosed, hconnected] at h
  next => rfl

theorem Entry.Ready.kept {key : ConnKey} (h : Entry.Ready key e st)
    (hkept : st.Kept st') : Entry.Ready key e st' := by
  refine ⟨h.sound, hkept.ending.trans h.running, fun hheld => ?_⟩
  rw [hkept.accepted, hkept.placed]
  exact h.bytes (hkept.held hheld)

/-- The end of a stream is clean exactly if the connection was not reset and
the application holds the stream. -/
theorem UtpStream.reap_spec (st : UtpStream) (conn : Connection) :
    (st.reap conn).1.accepted = st.accepted ∧
      (st.reap conn).1.placed = st.placed ∧
      ((st.reap conn).1.ending = some .eof ↔
        conn.state ≠ .reset ∧ st.holder = .application) := by
  unfold reap
  cases hholder : st.holder <;>
    simp [drop, discard] <;>
    split_ifs <;> simp_all

theorem Entry.collect_stream {e' : Entry} {waiting : ℕ → Bool} {now : ℕ}
    (h : (e.collect st waiting now).entry = some e') :
    e'.stream = e.stream := by
  simp only [collect] at h
  split_ifs at h
  cases h
  rfl

/-- What `collect_after` leaves, by the state of the connection: `c` is the
connection and `st'` the stream after the delivery loop. -/
theorem Entry.collect_eq {c : Connection}
    (hd : deliver st.capacity e.conn st = (c, st'))
    (hqueue : ∃ unsent, Connection.Queue c.outbound unsent)
    (waiting : ℕ → Bool) (now : ℕ) :
    ∃ conn gate, c.Sent conn ∧ (c.isClosed = true →
        (e.collect st waiting now).entry = none ∧
        (e.collect st waiting now).stream =
          (({ st' with gate := gate } : UtpStream).reap conn).1) ∧
      (c.isClosed = false → (∃ last, (e.collect st waiting now).entry =
          some { e with conn := conn, lastOutstanding := last }) ∧
        (e.collect st waiting now).stream =
          (({ st' with gate := gate } : UtpStream).notify conn.state
            waiting).1) := by
  have hsent := pendingSendPackets_sent c now
  have hreap := pendingSendPackets_reaped_iff hqueue now
  refine ⟨_, st'.gate.release (e.lastOutstanding -
    (c.pendingSendPackets now).1.outstandingSendBytes), hsent,
    fun hclosed => ?_, fun hlive => ?_⟩
  · have hconn : (c.pendingSendPackets now).1.isClosed = true := by
      rw [isClosed, hsent.state]
      exact hclosed
    rw [hclosed] at hreap
    simp only [collect, hd, hreap, if_true,
      notify_of_isClosed _ hconn, and_self]
  · rw [hlive] at hreap
    simp only [collect, hd, hreap, Bool.false_eq_true, if_false]
    exact ⟨⟨_, rfl⟩, trivial⟩

/-- `collect_after` keeps a connection that is neither Closed nor Reset, and a
clean end of its stream is truthful exactly if what was in the buffer fits
into the free slots of the queue. -/
theorem Entry.Ready.collect {key : ConnKey}
    (h : Entry.Ready key e st) (waiting : ℕ → Bool) (now : ℕ) :
    (∀ e' ∈ (e.collect st waiting now).entry, e'.stream = e.stream ∧
        Entry.Good key e' (e.collect st waiting now).stream) ∧
    ((e.collect st waiting now).stream.Truthful ↔
      (e.conn.state = .closed → st.holder = .application →
        e.conn.inBuf.length ≤ deliverMsgBytes * st.capacity)) := by
  have hbytes : st.holder ≠ .gone → _ := deliver_bytes st.capacity e.conn
  obtain ⟨buf, queue, placed, hd⟩ := deliver_frame st.capacity e.conn st
  rw [hd] at hbytes
  obtain ⟨conn, gate, hsent, hreaped, hkept⟩ :=
    collect_eq hd h.sound.queue waiting now
  cases hclosed : e.conn.isClosed with
  | false =>
    obtain ⟨⟨last, hentry⟩, hstream⟩ := hkept hclosed
    rw [hentry, hstream]
    have hnot : e.conn.state ≠ .closed := by
      intro hstate
      simp [isClosed, hstate] at hclosed
    have hkeep := notify_kept
      { st with queue := queue, placed := placed, gate := gate } conn.state
      waiting
    have hready : Entry.Ready key { e with conn := conn, lastOutstanding := last }
        { st with queue := queue, placed := placed, gate := gate } := by
      refine ⟨⟨hsent.recvId.trans h.sound.recvId, ?_⟩, h.running, ?_⟩
      · exact hsent.queue h.sound.queue
      · intro hheld
        obtain ⟨hbuf, hplaced⟩ := hbytes hheld
        have hsplit : placed ++ conn.inBuf = st.placed ++ e.conn.inBuf := by
          rw [hsent.inBuf, show placed = _ from hplaced,
            show buf = _ from hbuf, append_assoc,
            take_append_drop]
        exact (h.bytes hheld).trans hsplit.symm
    refine ⟨?_, ?_⟩
    · rintro e' ⟨⟩
      refine ⟨rfl, hready.kept hkeep, ?_⟩
      simp only [isClosed, hsent.state]
      exact hclosed
    · refine iff_of_true ?_ fun hstate => absurd hstate hnot
      intro hend
      rw [hkeep.ending] at hend
      simp [h.running] at hend
  | true =>
    obtain ⟨hentry, hstream⟩ := hreaped hclosed
    rw [hentry, hstream]
    refine ⟨by simp, ?_⟩
    obtain ⟨hacc, hpl, hend⟩ := reap_spec
      { st with queue := queue, placed := placed, gate := gate } conn
    have hstate : conn.state ≠ .reset ↔ e.conn.state = .closed := by
      rw [hsent.state]
      simp only [isClosed, Bool.or_eq_true, decide_eq_true_eq] at hclosed
      rcases hclosed with hc | hc <;> simp [hc]
    rw [UtpStream.Truthful, hend, hacc, hpl, hstate, and_imp]
    refine imp_congr_right fun _ => imp_congr_right fun hholder => ?_
    have hheld : st.holder ≠ .gone := by
      simp [show st.holder = .application from hholder]
    have hplaced : placed = _ := (hbytes hheld).2
    rw [hplaced, h.bytes hheld, append_cancel_left_eq, take_eq_self_iff]

end RustyTorrent.Utp
