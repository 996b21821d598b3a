import RustyTorrent.Peer.Utp.DriverSpec

/-!
# Inputs of a connection

What a driver step does to one connection and its stream: it hands the
connection an input and calls `collect_after` (`Entry.drive`).  Packets are
followed by their contents, which sending them again does not change.  A
packet for the connection takes what it acknowledges out of flight and every
other input leaves the flight alone (`feed_of_hears`, `feed_contents`);
sending moves bytes from the queue into flight and may add a FIN
(`Sending.contents`).
-/

namespace RustyTorrent.Utp

open List Connection

/-! ## Inputs -/

/-- What a driver step hands to a connection; a packet comes with the delay it
was measured to have. -/
inductive Input where
  | packet (p : Packet) (diff : UInt32)
  | block (data : Bytes)
  | close
  | tick
  deriving DecidableEq, Repr

/-- The connection after an input. -/
def Connection.feed (c : Connection) (now : ℕ) : Input → Connection
  | .packet p _ => (c.handleIncoming p now).1
  | .block data => (c.enqueueSendBlock data).1
  | .close => c.close
  | .tick => (c.tick now).1

/-- The entry after an input. -/
def Entry.feed (e : Entry) (now : ℕ) (input : Input) : Entry :=
  { e with
    conn := e.conn.feed now input
    lastTimestampDiff :=
      match input with
      | .packet _ diff => diff
      | _ => e.lastTimestampDiff }

/-- The stream of a connection after an input. -/
def UtpStream.feed (st : UtpStream) (c : Connection) (now : ℕ) :
    Input → UtpStream
  | .packet p _ =>
    { st with
      accepted := st.accepted ++
        (c.handleIncoming p now).1.inBuf.drop c.inBuf.length }
  | .close => { st with gate := st.gate.close }
  | _ => st

/-- An input, and `collect_after`. -/
def Entry.drive (e : Entry) (st : UtpStream) (input : Input)
    (waiting : ℕ → Bool) (now : ℕ) : Collected :=
  (e.feed now input).collect (st.feed e.conn now input) waiting now

/-- The writer of a refused block gets its credit back. -/
def UtpStream.refund (st : UtpStream) (n : ℕ) : UtpStream :=
  { st with gate := st.gate.release n }

namespace Connection

variable {c : Connection} {input : Input} {p : Packet}

/-- What the packets in flight carry. -/
def contents (c : Connection) : List (PacketType × Bytes) :=
  c.inFlight.map fun x => (x.packet.packetType, x.packet.payload)

/-- A FIN is in flight. -/
def FinInFlight (c : Connection) : Prop :=
  ∃ x ∈ c.inFlight, x.packet.packetType = .fin

instance (c : Connection) : Decidable c.FinInFlight :=
  inferInstanceAs (Decidable (∃ x ∈ c.inFlight, _))

theorem finInFlight_iff : c.FinInFlight ↔ .fin ∈ c.contents.map Prod.fst := by
  simp [FinInFlight, contents]

theorem length_contents (c : Connection) :
    c.contents.length = c.inFlight.length := length_map _

theorem outstandingSendBytes_eq (c : Connection) : c.outstandingSendBytes =
      c.outLen + (c.contents.map fun x => x.2.length).sum := by
  simp [outstandingSendBytes, payloadBytes, contents, Function.comp_def]

/-- The packet of an input that the connection takes acknowledgements
from. -/
def hears (c : Connection) : Input → Option Packet
  | .packet p _ =>
    if c.matchesIncoming p = true ∧ p.packetType ≠ .reset then some p
    else none
  | _ => none

theorem hears_eq_some :
    c.hears input = some p ↔ (∃ diff, input = .packet p diff) ∧
      c.matchesIncoming p = true ∧ p.packetType ≠ .reset := by
  cases input with
  | packet q diff =>
    simp only [hears, Option.ite_none_right_eq_some, Option.some.injEq,
      Input.packet.injEq, exists_and_left, exists_eq', and_true]
    constructor
    · rintro ⟨h, rfl⟩
      exact ⟨rfl, h⟩
    · rintro ⟨rfl, h⟩
      exact ⟨h, rfl⟩
  | block | close | tick => simp [hears]

/-! ## What an input does -/

theorem feed_sound {number : UInt16} (h : c.Sound number) (now : ℕ)
    (input : Input) : (c.feed now input).Sound number := by
  cases input with
  | packet p diff => exact handleIncoming_sound h p now
  | block data => exact enqueueSendBlock_sound h data
  | close => exact (close_sound h).1
  | tick => exact (tick_sound h now).1

theorem feed_of_hears (h : c.hears input = some p) (now : ℕ) :
    ∃ state, (c.feed now input).outbound =
        c.outbound.become state (remaining p c.inFlight) ∧
      (c.state.Ended → state.Ended) := by
  obtain ⟨⟨diff, rfl⟩, hmatch, htype⟩ := hears_eq_some.mp h
  obtain ⟨-, ⟨state, hout, hended, -⟩, -⟩ :=
    handleIncoming_spec hmatch htype now
  exact ⟨state, hout, hended⟩

theorem feed_inFlight (h : c.hears input = some p) (now : ℕ) :
    (c.feed now input).inFlight = remaining p c.inFlight := by
  obtain ⟨state, hout, -⟩ := feed_of_hears h now
  exact congrArg Outbound.flight hout

theorem handleIncoming_of_hears_none {diff : UInt32}
    (h : c.hears (.packet p diff) = none) (now : ℕ) :
    (c.handleIncoming p now).1 = c ∨
      (c.handleIncoming p now).1 = { c with state := .reset } := by
  cases hmatch : c.matchesIncoming p with
  | false => simp [handleIncoming, hmatch]
  | true =>
    have hreset : p.packetType = .reset := by
      simpa [hears, hmatch] using h
    right
    simp [handleIncoming, hmatch, hreset]

theorem Resent.contents {entries : List InFlight} {packets : List Packet}
    (h : c.Resent entries packets) :
    entries.map (fun x => (x.packet.packetType, x.packet.payload)) =
      c.contents := by
  symm
  rw [Connection.contents, ← forall₂_eq_eq_eq, forall₂_map_left_iff,
    forall₂_map_right_iff]
  refine h.same.imp ?_
  rintro e e' ⟨-, ack, heq⟩
  rw [heq]

theorem feed_contents (h : c.hears input = none) (now : ℕ) :
    (c.feed now input).contents = c.contents := by
  cases input with
  | packet p diff =>
    rcases handleIncoming_of_hears_none h now with heq | heq
    · rw [feed, heq]
    · rw [feed, heq]
      rfl
  | block data =>
    obtain ⟨blocks, len, heq⟩ := enqueueSendBlock_eq c data
    rw [feed, heq]
    rfl
  | close =>
    obtain ⟨state, heq⟩ := close_eq c
    rw [feed, heq]
    rfl
  | tick =>
    obtain ⟨state, entries, packets, heq, hagain, -⟩ := tick_cases c now
    rw [feed, heq]
    exact hagain.contents

theorem enqueueSendBlock_cases (c : Connection) (data : Bytes) :
    (data = [] ∨ c.state.Ended) ∧ c.enqueueSendBlock data = (c, false) ∨
      data ≠ [] ∧ ¬ c.state.Ended ∧ c.enqueueSendBlock data =
        ({ c with
            outLen := c.outLen + data.length
            outBlocks := c.outBlocks ++ [data] }, true) := by
  unfold enqueueSendBlock
  split_ifs with hended hempty
  · exact .inl ⟨.inr hended, rfl⟩
  · exact .inl ⟨.inl hempty, rfl⟩
  · exact .inr ⟨hempty, hended, rfl⟩

theorem enqueueSendBlock_of_live {data : Bytes} (hdata : data ≠ [])
    (hfin : c.state ≠ .finSent) (hlive : c.isClosed = false) :
    c.enqueueSendBlock data =
      ({ c with
          outLen := c.outLen + data.length
          outBlocks := c.outBlocks ++ [data] }, true) := by
  obtain ⟨hclosed, hreset⟩ := isClosed_eq_false.mp hlive
  rcases enqueueSendBlock_cases c data with
    ⟨hempty | hover | hover | hover, -⟩ | ⟨-, -, heq⟩
  · exact absurd hempty hdata
  · exact absurd hover hfin
  · exact absurd hover hclosed
  · exact absurd hover hreset
  · exact heq

theorem feed_outLen (now : ℕ) (hblock : ∀ data, input = .block data →
      (c.enqueueSendBlock data).2 = false) :
    (c.feed now input).outLen = c.outLen := by
  cases input with
  | packet p diff =>
    cases hhears : c.hears (.packet p diff) with
    | none =>
      rcases handleIncoming_of_hears_none hhears now with heq | heq
      all_goals rw [feed, heq]
    | some q =>
      obtain ⟨state, hout, -⟩ := feed_of_hears hhears now
      exact congrArg Outbound.len hout
  | block data =>
    have hrefused := hblock data rfl
    rcases enqueueSendBlock_cases c data with ⟨-, heq⟩ | ⟨-, -, heq⟩
    · rw [feed, heq]
    · rw [heq] at hrefused
      cases hrefused
  | close =>
    obtain ⟨state, heq⟩ := close_eq c
    rw [feed, heq]
  | tick =>
    obtain ⟨state, entries, packets, heq, -⟩ := tick_cases c now
    rw [feed, heq]

theorem enqueueSendBlock_of_finSent (h : c.state = .finSent)
    (data : Bytes) : c.enqueueSendBlock data = (c, false) := by
  simp [enqueueSendBlock, h]

theorem feed_state (c : Connection) (now : ℕ) (input : Input) :
    (c.feed now input).state = c.state ∨
      c.state = .synSent ∧ (c.feed now input).state = .connected ∨
      (c.feed now input).isClosed = true ∨
      input = .close ∧ (c.feed now input).state = .finSent := by
  cases input with
  | packet p diff =>
    have hack := processAck_state c p now
    dsimp only [feed]
    unfold handleIncoming
    split_ifs
    · exact .inl rfl
    · cases p.packetType with
      | reset => exact .inr (.inr (.inl rfl))
      | syn => exact .inl hack
      | state =>
        dsimp only
        split_ifs with hsyn
        · exact .inr (.inl ⟨hack.symm.trans hsyn, rfl⟩)
        · exact .inl hack
      | data =>
        dsimp only
        rw [receiveData_withInbound]
        exact .inl hack
      | fin =>
        dsimp only
        split_ifs
        · exact .inr (.inr (.inl rfl))
        · exact .inl hack
  | block data =>
    obtain ⟨blocks, len, heq⟩ := enqueueSendBlock_eq c data
    rw [feed, heq]
    exact .inl rfl
  | close =>
    dsimp only [feed]
    unfold close
    split_ifs
    · exact .inl rfl
    · exact .inr (.inr (.inr ⟨rfl, rfl⟩))
  | tick =>
    obtain ⟨state, entries, packets, heq, -, rfl | rfl⟩ := tick_cases c now
    · exact .inl (by rw [feed, heq])
    · exact .inr (.inr (.inl (by rw [feed, heq]; rfl)))

/-- A connection that has begun to close takes no more bytes and goes on
closing. -/
theorem feed_finSent (h : c.state = .finSent) {now : ℕ}
    (hlive : (c.feed now input).isClosed = false) :
    (c.feed now input).state = .finSent ∧
      (c.feed now input).outLen = c.outLen := by
  refine ⟨?_, feed_outLen now fun data _ => ?_⟩
  · rcases feed_state c now input with
      hsame | ⟨hsyn, -⟩ | hclosed | ⟨-, hfin⟩
    · exact hsame.trans h
    · cases h.symm.trans hsyn
    · cases hlive.symm.trans hclosed
    · exact hfin
  · rw [enqueueSendBlock_of_finSent h]

/-- A packet ends a connection exactly if it is a FIN that finds nothing
queued and leaves nothing in flight. -/
theorem feed_isClosed_iff (hlive : c.isClosed = false)
    (h : c.hears input = some p) (now : ℕ) :
    (c.feed now input).isClosed = true ↔
      p.packetType = .fin ∧ c.outLen = 0 ∧ remaining p c.inFlight = [] := by
  obtain ⟨⟨diff, rfl⟩, hmatch, htype⟩ := hears_eq_some.mp h
  have hopen := isClosed_eq_false.mp hlive
  have hiff := handleIncoming_closed_iff hopen.1 p now
  constructor
  · intro hclosed
    by_cases hfin : p.packetType = .fin
    · by_contra hnot
      have hstate := processAck_state c p now
      have hne : (c.handleIncoming p now).1.state ≠ .closed := fun heq =>
        hnot (hiff.mp heq).2
      have hsame : (c.handleIncoming p now).1.state = c.state := by
        unfold handleIncoming at hne ⊢
        simp only [hmatch, hfin, Bool.not_true, Bool.false_eq_true,
          if_false] at hne ⊢
        split_ifs at hne ⊢
        · exact absurd rfl hne
        · exact hstate
      have halive : (c.handleIncoming p now).1.isClosed = false := by
        rw [isClosed_eq_false, hsame]
        exact hopen
      rw [feed, halive] at hclosed
      cases hclosed
    · have halive := handleIncoming_open hlive hfin htype now
      rw [feed, halive] at hclosed
      cases hclosed
  · intro hdone
    rw [feed, isClosed, hiff.mpr ⟨hmatch, hdone⟩]
    rfl

/-! ## What sending does -/

/-- What `pending_send_packets` puts in flight for the first time: bytes of
the queue, and behind the last of them a FIN if the connection is closing and
has none in flight. -/
theorem Sending.contents {now : ℕ} {packets : List Packet} {c c' : Connection}
    (h : Sending now c packets c')
    (hqueue : ∃ unsent, Queue c.outbound unsent) :
    ∃ payloads : List Bytes,
      c.outLen = c'.outLen + (payloads.map List.length).sum ∧
      (c'.contents = c.contents ++ payloads.map (Prod.mk .data) ∧
        (c.state = .finSent → c'.outLen = 0 → c.FinInFlight) ∨
      c'.contents = c.contents ++ payloads.map (Prod.mk .data) ++
          [(.fin, [])] ∧
        c.state = .finSent ∧ c'.outLen = 0 ∧ ¬ c.FinInFlight) := by
  induction h with
  | @done c hwants _ =>
    refine ⟨[], by simp, .inl ⟨by simp, fun hfin hlen => ?_⟩⟩
    simpa [wantsFin, hfin, hlen, FinInFlight] using hwants
  | @again c c' entries _ _ hagain _ ih =>
    obtain ⟨unsent, hq⟩ := hqueue
    obtain ⟨payloads, hlen, hcases⟩ := ih ⟨unsent, hq.congr rfl rfl rfl⟩
    have hcontents : ({ c with
        fastRtxSeq := none, inFlight := entries } : Connection).contents =
          c.contents := hagain.contents
    rw [finInFlight_iff, hcontents, ← finInFlight_iff] at hcases
    exact ⟨payloads, hlen, hcases⟩
  | @data c c' blocks head len payload _ _ hnext _ ih =>
    obtain ⟨unsent, hq⟩ := hqueue
    obtain ⟨-, -, rest, hsplit, hrest⟩ := nextPayload_spec hq hnext
    obtain ⟨payloads, hlen, hcases⟩ := ih ⟨rest, hrest.congr rfl rfl rfl⟩
    have hcut : c.outLen = payload.length + len := by
      have hbefore : c.outLen = unsent.length := hq.len_eq
      have hafter : len = rest.length := hrest.len_eq
      rw [hbefore, hafter, hsplit, length_append]
    have hlen' : len = _ := hlen
    have hstate : ((c.cut blocks head len).emit .data payload now).1.state =
        c.state := rfl
    have hcontents : ((c.cut blocks head len).emit .data payload
        now).1.contents = c.contents ++ [(.data, payload)] := map_append
    refine ⟨payload :: payloads, ?_, ?_⟩
    · rw [map_cons, sum_cons]
      omega
    · rw [finInFlight_iff, hcontents, hstate] at hcases
      simpa [finInFlight_iff] using hcases
  | @fin c hwants =>
    simp only [wantsFin, Bool.and_eq_true, decide_eq_true_eq, Bool.not_eq_true',
      any_eq_false] at hwants
    obtain ⟨⟨hstate, hlen⟩, hnone⟩ := hwants
    refine ⟨[], by simp [emit], .inr ⟨?_, hstate, hlen, ?_⟩⟩
    · simp [Connection.contents, emit, packet]
    · rintro ⟨x, hx, hfin⟩
      exact hnone x hx hfin

theorem pendingSendPackets_outstanding
    (hqueue : ∃ unsent, Queue c.outbound unsent) (now : ℕ) :
    (c.pendingSendPackets now).1.outstandingSendBytes =
      c.outstandingSendBytes := by
  obtain ⟨payloads, hlen, hcases⟩ := (pendingSendPackets_sending c now).contents hqueue
  rw [outstandingSendBytes_eq, outstandingSendBytes_eq, hlen]
  have hsum : ((payloads.map (Prod.mk PacketType.data)).map
      fun x => x.2.length).sum = (payloads.map List.length).sum := by
    rw [map_map]
    rfl
  rcases hcases with ⟨hcontents, -⟩ | ⟨hcontents, -⟩
  · rw [hcontents, map_append, sum_append, hsum]
    omega
  · rw [hcontents, map_append, map_append, sum_append, sum_append, hsum]
    simp
    omega

end Connection

/-! ## Streams that are handed over or dropped -/

/-- A stream is handed over, dropped or left alone; the commands are those of
its drop. -/
structure UtpStream.Passed (st st' : UtpStream) (commands : List Command) :
    Prop where
  key : st'.key = st.key
  gone : st.holder = .gone → st'.holder = .gone
  closes : ∀ c ∈ commands, c = .close st.key
  dropped : commands ≠ [] → st.holder ≠ .gone ∧ st'.holder = .gone

namespace UtpStream

theorem Passed.of_eq {st st' : UtpStream} (hkey : st'.key = st.key)
    (hholder : st'.holder = st.holder) : st.Passed st' [] :=
  ⟨hkey, fun h => hholder.trans h, nofun, fun h => absurd rfl h⟩

theorem Passed.trans {st st' st'' : UtpStream}
    {commands commands' : List Command} (h : st.Passed st' commands)
    (h' : st'.Passed st'' commands') :
    st.Passed st'' (commands ++ commands') := by
  refine ⟨h'.key.trans h.key, fun hgone => h'.gone (h.gone hgone), ?_, ?_⟩
  · intro c hc
    rcases mem_append.mp hc with hc | hc
    · exact h.closes c hc
    · rw [h'.closes c hc, h.key]
  · intro hne
    by_cases hfirst : commands = []
    · obtain ⟨hheld, hgone⟩ := h'.dropped fun hnil =>
        hne (by rw [hfirst, hnil]; rfl)
      exact ⟨fun hbefore => hheld (h.gone hbefore), hgone⟩
    · obtain ⟨hheld, hgone⟩ := h.dropped hfirst
      exact ⟨hheld, h'.gone hgone⟩

theorem drop_passed {st : UtpStream} (h : st.holder ≠ .gone) :
    st.Passed st.drop.1 st.drop.2 := by
  refine ⟨rfl, fun _ => rfl, ?_, fun _ => ⟨h, rfl⟩⟩
  unfold drop
  split_ifs <;> simp

theorem handOver_passed {st : UtpStream} (h : st.holder ≠ .gone)
    (wanted : Bool) :
    st.Passed (st.handOver wanted).1 (st.handOver wanted).2 := by
  unfold handOver
  split_ifs
  · exact ⟨rfl, fun hgone => absurd hgone h, nofun, fun h => absurd rfl h⟩
  · exact drop_passed h

variable (st : UtpStream)

theorem notify_passed (state : State) (waiting : ℕ → Bool) :
    st.Passed (st.notify state waiting).1 (st.notify state waiting).2 := by
  unfold notify
  split
  next hholder => exact handOver_passed (by rw [hholder]; nofun) _
  next => exact .of_eq rfl rfl

theorem reap_passed (conn : Connection) :
    st.Passed (st.reap conn).1 (st.reap conn).2 := by
  unfold reap
  cases hholder : st.holder with
  | dial number =>
    exact ⟨rfl, fun _ => rfl, nofun, fun h => absurd rfl h⟩
  | accept =>
    refine ⟨rfl, fun _ => rfl, ?_, fun _ => ⟨by rw [hholder]; nofun, rfl⟩⟩
    dsimp only [drop]
    split_ifs <;> simp
  | application | gone => exact .of_eq rfl hholder.symm

theorem handOver_gate (wanted : Bool) :
    (st.handOver wanted).1.gate = st.gate := by
  unfold handOver
  split_ifs <;> rfl

theorem notify_gate (state : State) (waiting : ℕ → Bool)
    : (st.notify state waiting).1.gate = st.gate := by
  unfold notify
  split
  · exact st.handOver_gate _
  · rfl

theorem reap_gate (conn : Connection) : (st.reap conn).1.gate =
      (st.gate.release conn.outstandingSendBytes).close := by
  unfold reap
  cases st.holder <;> rfl

end UtpStream

theorem SendGate.release_closed (g : SendGate) (n : ℕ) :
    (g.release n).closed = g.closed := by
  unfold SendGate.release
  split_ifs <;> rfl

/-! ## One step for one connection -/

namespace Entry

open UtpStream

variable {e e' : Entry} {number : UInt16} {st : UtpStream} {input : Input}
  {waiting : ℕ → Bool} {now : ℕ}

/-- The stream after the delivery loop, with the credit of what left the
connection. -/
def collecting (e : Entry) (st : UtpStream) (queue : List Bytes)
    (placed : Bytes) (conn : Connection) : UtpStream :=
  { st with
    queue := queue
    placed := placed
    gate := st.gate.release (e.lastOutstanding - conn.outstandingSendBytes) }

/-- All that a step of the driver leaves of a connection and its stream: it
delivers, sends and reaps a connection that is done. -/
theorem drive_cases (e : Entry) (st : UtpStream) (input : Input)
    (waiting : ℕ → Bool) (now : ℕ) :
    ∃ buf queue placed conn sent,
      conn = (({ e.conn.feed now input with inBuf := buf } :
        Connection).pendingSendPackets now).1 ∧
      let told := (e.collecting (st.feed e.conn now input) queue placed
        conn).notify conn.state waiting
      e.drive st input waiting now =
        if conn.isClosed || conn.finComplete then
          ⟨none, (told.1.reap conn).1, told.2 ++ (told.1.reap conn).2, sent⟩
        else
          ⟨some { e.feed now input with
              conn := conn
              lastOutstanding := conn.outstandingSendBytes },
            told.1, told.2, sent⟩ := by
  obtain ⟨buf, queue, placed, hd⟩ :=
    deliver_frame (st.feed e.conn now input).capacity (e.feed now input).conn
      (st.feed e.conn now input)
  let c : Connection := { e.conn.feed now input with inBuf := buf }
  refine ⟨buf, queue, placed, _, (c.pendingSendPackets now).2, rfl, ?_⟩
  simp only [drive, collect, hd]
  rfl

/-- What is left of a connection and of the gate of its stream: a connection
that its input has ended is reaped, and another delivers and sends.  The gate
gets the credit of the bytes that left the connection, and is closed with the
rest of it when the connection is reaped. -/
def Driven (e : Entry) (input : Input) (now : ℕ) (gate : SendGate)
    (entry : Option Entry) (gate' : SendGate) : Prop :=
  let out := (e.conn.feed now input).outstandingSendBytes
  let credited := gate.release (e.lastOutstanding - out)
  ((e.conn.feed now input).isClosed = true ∧ entry = none ∧
    gate' = (credited.release out).close) ∨
  ((e.conn.feed now input).isClosed = false ∧ gate' = credited ∧ ∃ buf conn,
    conn = (({ e.conn.feed now input with inBuf := buf } :
      Connection).pendingSendPackets now).1 ∧
    conn.outstandingSendBytes = out ∧
    entry = some { e.feed now input with
      conn := conn
      lastOutstanding := conn.outstandingSendBytes })

theorem drive_spec (h : e.conn.Sound number) (st : UtpStream)
    (input : Input) (waiting : ℕ → Bool) (now : ℕ) :
    e.Driven input now (st.feed e.conn now input).gate
      (e.drive st input waiting now).entry
      (e.drive st input waiting now).stream.gate := by
  obtain ⟨buf, queue, placed, conn, sent, hconn, heq⟩ :=
    e.drive_cases st input waiting now
  let c : Connection := { e.conn.feed now input with inBuf := buf }
  have hqueue : ∃ unsent, Connection.Queue c.outbound unsent :=
    (feed_sound h now input).queue
  have hreap : (conn.isClosed || conn.finComplete) =
      (e.conn.feed now input).isClosed :=
    hconn ▸ pendingSendPackets_reaped_iff hqueue now
  have hout : conn.outstandingSendBytes =
      (e.conn.feed now input).outstandingSendBytes :=
    hconn ▸ pendingSendPackets_outstanding hqueue now
  dsimp only at heq
  rw [heq, hreap, Driven]
  cases (e.conn.feed now input).isClosed with
  | true =>
    refine .inl ⟨rfl, rfl, ?_⟩
    rw [if_pos rfl, reap_gate, notify_gate, collecting, hout]
  | false =>
    refine .inr ⟨rfl, ?_, buf, conn, hconn, hout, rfl⟩
    rw [if_neg Bool.false_ne_true, notify_gate, collecting, hout]

theorem drive_stream (h : (e.drive st input waiting now).entry = some e') :
    e'.stream = e.stream := by
  have hid := collect_stream h
  exact hid

theorem drive_passed (e : Entry) (st : UtpStream) (input : Input)
    (waiting : ℕ → Bool) (now : ℕ) :
    st.Passed (e.drive st input waiting now).stream
      (e.drive st input waiting now).commands := by
  obtain ⟨buf, queue, placed, conn, sent, -, heq⟩ :=
    e.drive_cases st input waiting now
  have hfeed : st.Passed (e.collecting (st.feed e.conn now input) queue placed
      conn) [] := by
    cases input <;> exact .of_eq rfl rfl
  have htold := hfeed.trans (notify_passed _ conn.state waiting)
  rw [heq]
  split_ifs
  · exact htold.trans (reap_passed _ _)
  · exact htold

theorem drive_silent (h : (e.drive st input waiting now).entry = some e')
    (hstate : e'.conn.state ≠ .connected) :
    (e.drive st input waiting now).stream.holder = st.holder := by
  obtain ⟨buf, queue, placed, conn, sent, -, heq⟩ :=
    e.drive_cases st input waiting now
  have hfeed : (st.feed e.conn now input).holder = st.holder := by
    cases input <;> rfl
  rw [heq] at h ⊢
  split_ifs at h ⊢
  cases h
  unfold notify
  split
  next hconnected _ => exact absurd hconnected hstate
  next => exact hfeed

end Entry

/-! ## What the application does -/

namespace UtpStream

variable (st : UtpStream)

theorem pollRead_frame (room : ℕ) :
    ∃ queue rem, (st.pollRead room).1 =
      { st with queue := queue, readRem := rem } := by
  unfold pollRead
  split
  · exact ⟨_, _, rfl⟩
  · split <;> exact ⟨_, _, rfl⟩

theorem peekFirstByte_frame : ∃ queue rem, st.peekFirstByte.1 =
      { st with queue := queue, readRem := rem } := by
  unfold peekFirstByte
  split
  · exact ⟨_, _, rfl⟩
  · split <;> exact ⟨_, _, rfl⟩

/-- What a write reserves is the length of the block it puts into the
channel. -/
theorem pollWrite_frame (id : ℕ) (buf : Bytes) :
    ∃ gate, (st.pollWrite id buf).1 = { st with gate := gate } ∧
      gate.closed = st.gate.closed ∧
      (gate.used = st.gate.used ∧ (st.pollWrite id buf).2.1 = [] ∨
        ∃ data, data ≠ [] ∧ data.length ≤ st.gate.available ∧
          gate.used = st.gate.used + data.length ∧
          (st.pollWrite id buf).2.1 = [.send st.key data id]) := by
  unfold pollWrite SendGate.reserve
  dsimp only
  split_ifs with hclosed hempty hroom
  · exact ⟨_, rfl, rfl, .inl ⟨rfl, rfl⟩⟩
  · exact ⟨_, rfl, rfl, .inl ⟨rfl, rfl⟩⟩
  · have hlen : (buf.take (min buf.length st.gate.available)).length =
        min buf.length st.gate.available := by
      rw [length_take]
      omega
    refine ⟨_, rfl, rfl, .inr ⟨_, ?_, ?_, ?_, rfl⟩⟩
    · exact ne_nil_of_length_pos (by omega)
    · omega
    · rw [hlen]
  · exact ⟨_, rfl, rfl, .inl ⟨rfl, rfl⟩⟩

theorem pollShutdown_frame :
    ∃ sent, st.pollShutdown.1 = { st with shutdownSent := sent } := by
  unfold pollShutdown
  split_ifs <;> exact ⟨_, rfl⟩

end UtpStream

end RustyTorrent.Utp
