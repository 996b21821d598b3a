import RustyTorrent.Peer.Utp.Feeding

/-!
# Closing a connection

The endpoint is followed with a record of each stream: how many sequence
numbers its connection has assigned to a FIN, and whether it has processed a
FIN of its peer.  `pending_send_packets` looks for a FIN among the packets in
flight, where it no longer is once it was acknowledged, and `collect_after`
calls it before it tests whether the FIN is complete; `handle_incoming` only
closes a connection on a FIN of the peer.  So every close is a clean one
exactly if our FIN and the last of our data are acknowledged by a FIN of the
peer (`proper_iff_clean`).
-/

namespace RustyTorrent.Utp

open List

namespace Connection

variable {c : Connection} {input : Input} {n now : ℕ}

/-- How many FINs are in flight in `c'` behind the packets of `c`. -/
def newFins (c c' : Connection) : ℕ :=
  (c'.inFlight.drop c.inFlight.length).countP fun x =>
    x.packet.packetType = .fin

/-- Nothing is queued or in flight. -/
def Quiet (c : Connection) : Prop := c.outLen = 0 ∧ c.inFlight = []

instance (c : Connection) : Decidable c.Quiet :=
  inferInstanceAs (Decidable (_ ∧ _))

/-- A connection that has assigned a number of sequence numbers to a FIN
between the steps of the driver. -/
structure Counted (c : Connection) (n : ℕ) : Prop where
  fresh : n = 0 → ¬ c.FinInFlight
  sent : 0 < n → c.FinInFlight ∧ c.state = .finSent ∧ c.outLen = 0

theorem newFins_eq (c c' : Connection) :
    newFins c c' = ((c'.contents.drop c.contents.length).countP fun x =>
      x.1 = .fin) := by
  rw [newFins, length_contents, contents, ← map_drop, countP_map]
  rfl

theorem quiet_iff : c.Quiet ↔ c.outLen = 0 ∧ c.contents = [] := by
  simp [Quiet, contents]

theorem countP_data (payloads : List Bytes) :
    ((payloads.map (Prod.mk PacketType.data)).countP fun x => x.1 = .fin) =
      0 := by
  simp [countP_eq_zero]

theorem finInFlight_of_feed (h : (c.feed now input).FinInFlight) :
    c.FinInFlight := by
  cases hhears : c.hears input with
  | none =>
    rw [finInFlight_iff, feed_contents hhears] at h
    exact finInFlight_iff.mpr h
  | some p =>
    obtain ⟨x, hx, hfin⟩ := h
    rw [feed_inFlight hhears] at hx
    exact ⟨x, (remaining_sublist p _).subset hx, hfin⟩

/-- Sending assigns a number to a FIN exactly if the connection is closing,
has nothing queued any more and no FIN in flight. -/
theorem send_fins (hqueue : ∃ unsent, Queue c.outbound unsent) (now : ℕ) :
    (newFins c (c.pendingSendPackets now).1 = 0 ∧
      ((c.pendingSendPackets now).1.FinInFlight ↔ c.FinInFlight) ∧
      (c.state = .finSent → (c.pendingSendPackets now).1.outLen = 0 →
        c.FinInFlight)) ∨
    (newFins c (c.pendingSendPackets now).1 = 1 ∧
      (c.pendingSendPackets now).1.FinInFlight ∧ c.state = .finSent ∧
      (c.pendingSendPackets now).1.outLen = 0 ∧ ¬ c.FinInFlight) := by
  obtain ⟨payloads, -, hcases⟩ :=
    (pendingSendPackets_sending c now).contents hqueue
  simp only [newFins_eq, finInFlight_iff (c := (c.pendingSendPackets now).1)]
  rcases hcases with ⟨hcontents, hnone⟩ | ⟨hcontents, hfin, hlen, hno⟩
  · refine .inl ⟨?_, ?_, hnone⟩
    · rw [hcontents, drop_left, countP_data]
    · rw [hcontents, finInFlight_iff]
      simp
  · refine .inr ⟨?_, ?_, hfin, hlen, hno⟩
    · rw [hcontents, append_assoc, drop_left, countP_append, countP_data]
      rfl
    · rw [hcontents]
      simp

/-- A driver step that does not end the connection assigns another number to
a FIN exactly if its input has taken the FIN out of flight. -/
theorem Counted.drive (h : c.Counted n)
    (hlive : (c.feed now input).isClosed = false)
    (hqueue : ∃ unsent, Queue (c.feed now input).outbound unsent)
    (buf : Bytes) {conn : Connection}
    (hconn : conn = (({ c.feed now input with inBuf := buf } :
      Connection).pendingSendPackets now).1) :
    conn.Counted (n + newFins (c.feed now input) conn) ∧
      (n ≤ 1 → (n + newFins (c.feed now input) conn ≤ 1 ↔
        (c.FinInFlight → (c.feed now input).FinInFlight))) := by
  have hstate : conn.state = (c.feed now input).state := by
    rw [hconn]
    exact (pendingSendPackets_sent _ now).state
  have hlen : (c.feed now input).outLen = 0 → conn.outLen = 0 := by
    intro hzero
    obtain ⟨payloads, hsum, -⟩ := (pendingSendPackets_sending
      { c.feed now input with inBuf := buf } now).contents hqueue
    rw [← hconn] at hsum
    have hsum' : (c.feed now input).outLen = _ := hsum
    omega
  have hsend : (newFins (c.feed now input) conn = 0 ∧
      (conn.FinInFlight ↔ (c.feed now input).FinInFlight) ∧
      ((c.feed now input).state = .finSent → conn.outLen = 0 →
        (c.feed now input).FinInFlight)) ∨
      (newFins (c.feed now input) conn = 1 ∧ conn.FinInFlight ∧
        (c.feed now input).state = .finSent ∧ conn.outLen = 0 ∧
        ¬ (c.feed now input).FinInFlight) := by
    rw [hconn]
    exact send_fins (c := { c.feed now input with inBuf := buf }) hqueue now
  rcases Nat.eq_zero_or_pos n with rfl | hpos
  · -- no FIN was in flight, and none is before sending
    have hno := h.fresh rfl
    have hnofed : ¬ (c.feed now input).FinInFlight := fun hfin =>
      hno (finInFlight_of_feed hfin)
    rcases hsend with ⟨hzero, hiff, -⟩ | ⟨hone, hfin, hfinSent, hout, -⟩
    · rw [hzero]
      refine ⟨⟨fun _ hfin => hnofed (hiff.mp hfin), nofun⟩, fun _ => ?_⟩
      exact iff_of_true (by omega) fun hfin => absurd hfin hno
    · rw [hone]
      refine ⟨⟨nofun, fun _ => ⟨hfin, hstate.trans hfinSent, hout⟩⟩,
        fun _ => ?_⟩
      exact iff_of_true (by omega) fun hfin => absurd hfin hno
  · obtain ⟨hfin, hfinSent, hout⟩ := h.sent hpos
    obtain ⟨hfed, hfedLen⟩ := feed_finSent hfinSent hlive
    have hconnLen := hlen (hfedLen.trans hout)
    rcases hsend with ⟨hzero, hiff, hneeds⟩ | ⟨hone, hagain, -, -, hgone⟩
    · have hstill := hneeds hfed hconnLen
      rw [hzero]
      refine ⟨⟨fun h0 => by omega, fun _ => ?_⟩, fun hle => ?_⟩
      · exact ⟨hiff.mpr hstill, hstate.trans hfed, hconnLen⟩
      · exact iff_of_true (by omega) fun _ => hstill
    · rw [hone]
      refine ⟨⟨fun h0 => by omega, fun _ => ?_⟩, fun hle => ?_⟩
      · exact ⟨hagain, hstate.trans hfed, hconnLen⟩
      · exact iff_of_false (by omega) fun hstill => hgone (hstill hfin)

theorem quiet_of_send (hqueue : ∃ unsent, Queue c.outbound unsent)
    (h : (c.pendingSendPackets now).1.Quiet) : c.Quiet := by
  obtain ⟨hzero, hempty⟩ := quiet_iff.mp h
  have hout := pendingSendPackets_outstanding hqueue now
  rw [outstandingSendBytes_eq, outstandingSendBytes_eq, hzero, hempty] at hout
  obtain ⟨payloads, -, hcases⟩ :=
    (pendingSendPackets_sending c now).contents hqueue
  have hcontents : c.contents = [] := by
    rcases hcases with ⟨heq, -⟩ | ⟨heq, -⟩
    · rw [hempty] at heq
      exact (append_eq_nil_iff.mp heq.symm).1
    · rw [hempty] at heq
      simp at heq
  refine quiet_iff.mpr ⟨?_, hcontents⟩
  rw [hcontents] at hout
  simpa using hout.symm

theorem quiet_of_feed (h : c.hears input = none)
    (hquiet : (c.feed now input).Quiet) : c.Quiet := by
  obtain ⟨hzero, hempty⟩ := quiet_iff.mp hquiet
  rw [feed_contents h] at hempty
  have hother (hblock : ∀ data, input ≠ .block data) : c.outLen = 0 :=
    (feed_outLen now fun data h => absurd h (hblock data)).symm.trans hzero
  refine quiet_iff.mpr ⟨?_, hempty⟩
  cases input with
  | block data =>
    rcases enqueueSendBlock_cases c data with ⟨-, heq⟩ | ⟨-, -, heq⟩
    · rwa [feed, heq] at hzero
    · rw [feed, heq] at hzero
      exact (Nat.add_eq_zero_iff.mp hzero).1
  | packet | close | tick => exact hother (by simp)

end Connection

namespace Endpoint

/-- An endpoint with a record of its streams: how many sequence numbers the
connection of a stream has assigned to a FIN, and whether it has processed a
FIN of its peer. -/
structure Chronicle where
  endpoint : Endpoint
  fins : ℕ → ℕ
  peerFin : ℕ → Bool

namespace Chronicle

open Connection

/-- A socket that has just been bound. -/
def start : Chronicle := ⟨Endpoint.start, fun _ => 0, fun _ => false⟩

/-- How many sequence numbers the connection of a stream assigns to a FIN in
an event. -/
def finsSent (s : Endpoint) (a : Event) (i : ℕ) : ℕ :=
  match s.fed a i, (s.next a).entryOf i with
  | some (e, input, now), some e' => (e.conn.feed now input).newFins e'.conn
  | _, _ => 0

/-- Whether the connection of a stream processes a FIN in an event. -/
def finHeard (s : Endpoint) (a : Event) (i : ℕ) : Bool :=
  (s.fed a i).any fun r =>
    (r.1.conn.hears r.2.1).any fun p => p.packetType = .fin

/-- An event, and what is recorded of it. -/
def next (w : Chronicle) (a : Event) : Chronicle where
  endpoint := w.endpoint.next a
  fins i := w.fins i + finsSent w.endpoint a i
  peerFin i := w.peerFin i || finHeard w.endpoint a i

/-- The endpoint with its record as a system of events. -/
def chronicles : System Chronicle Event :=
  ⟨next, fun w a => w.endpoint.may a = true⟩

instance (w : Chronicle) (a : Event) : Decidable (chronicles.may w a) :=
  inferInstanceAs (Decidable (w.endpoint.may a = true))

/-- An event keeps the rules of closing: no connection has assigned a second
number to a FIN; the connection whose FIN is acknowledged with nothing else
outstanding is removed; once the peer's FIN was processed, the connection
whose outgoing data and FIN are acknowledged is removed; and no connection
stays behind that has processed its peer's FIN and has nothing outstanding. -/
structure Proper (w : Chronicle) (a : Event) : Prop where
  once : ∀ i, (w.next a).fins i ≤ 1
  acknowledged : ∀ i e input now p,
    w.endpoint.fed a i = some (e, input, now) →
    e.conn.hears input = some p → e.conn.FinInFlight → e.conn.outLen = 0 →
    Connection.remaining p e.conn.inFlight = [] →
    (w.next a).endpoint.entryOf i = none
  finished : ∀ i e input now p,
    w.endpoint.fed a i = some (e, input, now) →
    e.conn.hears input = some p → (w.next a).peerFin i = true →
    e.conn.outLen = 0 → Connection.remaining p e.conn.inFlight = [] →
    (w.next a).endpoint.entryOf i = none
  settled : ∀ i e, (w.next a).endpoint.entryOf i = some e →
    (w.next a).peerFin i = true → ¬ e.conn.Quiet

/-- A packet that takes our FIN out of flight is a FIN of the peer and leaves
nothing in flight, and so is, once a FIN of the peer was processed, the packet
that acknowledges the last of what we have sent. -/
def Clean (w : Chronicle) (a : Event) : Prop :=
  ∀ i e input now p, w.endpoint.fed a i = some (e, input, now) →
    e.conn.hears input = some p →
    (e.conn.FinInFlight →
      (∀ x ∈ Connection.remaining p e.conn.inFlight,
        x.packet.packetType ≠ .fin) →
      p.packetType = .fin ∧ Connection.remaining p e.conn.inFlight = []) ∧
    (w.peerFin i = true → e.conn.outLen = 0 →
      Connection.remaining p e.conn.inFlight = [] → p.packetType = .fin)

theorem clean_iff {w : Chronicle} {a : Event} :
    w.Clean a ↔ ∀ i < w.endpoint.streams.length, ∀ r ∈ w.endpoint.fed a i,
      ∀ p ∈ r.1.conn.hears r.2.1, (r.1.conn.FinInFlight →
          (∀ x ∈ remaining p r.1.conn.inFlight, x.packet.packetType ≠ .fin) →
          p.packetType = .fin ∧ remaining p r.1.conn.inFlight = []) ∧
        (w.peerFin i = true → r.1.conn.outLen = 0 →
          remaining p r.1.conn.inFlight = [] → p.packetType = .fin) := by
  constructor
  · rintro h i - ⟨e, input, now⟩ hfed p hhears
    exact h i e input now p hfed hhears
  · intro h i e input now p hfed hhears
    exact h i (fed_lt hfed) (e, input, now) hfed p hhears

instance (w : Chronicle) (a : Event) : Decidable (w.Clean a) :=
  decidable_of_iff' _ clean_iff

/-- What holds between the events of a run that keeps the rules. -/
structure Good (w : Chronicle) : Prop where
  keyed : w.endpoint.Keyed
  inv : w.endpoint.Inv
  counted : ∀ i e, w.endpoint.entryOf i = some e →
    e.conn.Counted (w.fins i)
  unborn : ∀ i, w.endpoint.streams.length ≤ i →
    w.fins i = 0 ∧ w.peerFin i = false
  once : ∀ i, w.fins i ≤ 1
  settled : ∀ i e, w.endpoint.entryOf i = some e → w.peerFin i = true →
    ¬ e.conn.Quiet

variable {w : Chronicle} {a : Event} {i now : ℕ} {e : Entry} {input : Input}
  {p : Packet}

theorem Good.live (h : w.Good) (he : w.endpoint.entryOf i = some e) :
    e.conn.isClosed = false ∧ ∃ number, e.conn.Sound number := by
  obtain ⟨v, hv, hentry⟩ := entryOf_eq_some.mp he
  have hgood := h.inv.good_of_view hv hentry
  exact ⟨hgood.live, _, hgood.sound⟩

variable {s : Endpoint}

theorem entryOf_of_fed (h : s.fed a i = some (e, input, now)) :
    s.entryOf i = some e := by
  obtain ⟨v, hv, he, -⟩ := fed_eq_some.mp h
  exact entryOf_eq_some.mpr ⟨v, hv, he⟩

theorem finsSent_of_fed {e' : Entry} (hfed : s.fed a i = some (e, input, now))
    (he' : (s.next a).entryOf i = some e') :
    finsSent s a i = (e.conn.feed now input).newFins e'.conn := by
  rw [finsSent, hfed, he']

theorem finsSent_of_none (h : s.fed a i = none ∨ (s.next a).entryOf i = none) :
    finsSent s a i = 0 := by
  unfold finsSent
  rcases h with h | h
  · rw [h]
  · rw [h]
    split
    next heq => cases heq
    next => rfl

theorem finHeard_of_fed (hfed : s.fed a i = some (e, input, now)) :
    finHeard s a i = (e.conn.hears input).any fun p => p.packetType = .fin := by
  rw [finHeard, hfed]
  rfl

theorem finHeard_of_not_fed (hfed : s.fed a i = none) :
    finHeard s a i = false := by
  rw [finHeard, hfed]
  rfl

/-! ## One event -/

theorem Born.counted {v : View} (h : Born i v) (he : v.entry = some e) :
    e.conn.Counted 0 := by
  refine ⟨fun _ => ?_, nofun⟩
  rintro ⟨x, hx, hfin⟩
  cases h with
  | dial peer recvId now number =>
    cases he
    simp only [newInitiator, mem_singleton] at hx
    rw [hx] at hfin
    cases hfin
  | inbound peer diff hnew =>
    cases he
    unfold newReceiverWithSeq at hnew
    split_ifs at hnew
    cases hnew
    cases hx

theorem Good.counted_fed (h : w.Good) (hmay : w.endpoint.may a = true)
    (hfed : w.endpoint.fed a i = some (e, input, now)) :
    ((e.conn.feed now input).isClosed = true ∧
      (w.next a).endpoint.entryOf i = none ∧
      (w.next a).fins i = w.fins i) ∨
    ((e.conn.feed now input).isClosed = false ∧ ∃ e',
      (w.next a).endpoint.entryOf i = some e' ∧
      e'.conn.Counted ((w.next a).fins i) ∧
      ((w.next a).fins i ≤ 1 ↔
        (e.conn.FinInFlight → (e.conn.feed now input).FinInFlight)) ∧
      (e'.conn.Quiet → (e.conn.feed now input).Quiet)) := by
  have he := entryOf_of_fed hfed
  obtain ⟨-, number, hsound⟩ := h.live he
  have hqueue := (feed_sound hsound now input).queue
  rcases entryOf_next_of_fed h.keyed h.inv hmay hfed with
    ⟨hclosed, hnone⟩ | ⟨hlive, buf, conn, hconn, hsome⟩
  · refine .inl ⟨hclosed, hnone, ?_⟩
    exact congrArg (w.fins i + ·) (finsSent_of_none (.inr hnone))
  · obtain ⟨hcounted, honce⟩ :=
      (h.counted i e he).drive hlive hqueue buf hconn
    have hfins : (w.next a).fins i =
        w.fins i + (e.conn.feed now input).newFins conn :=
      congrArg (w.fins i + ·) (finsSent_of_fed hfed hsome)
    refine .inr ⟨hlive, _, hsome, ?_, ?_, ?_⟩
    · rw [hfins]
      exact hcounted
    · rw [hfins]
      exact honce (h.once i)
    · intro hquiet
      have hquiet' : conn.Quiet := hquiet
      rw [hconn] at hquiet'
      exact quiet_of_send
        (c := { e.conn.feed now input with inBuf := buf }) hqueue hquiet'

theorem Good.fins_not_fed (hfed : w.endpoint.fed a i = none) :
    (w.next a).fins i = w.fins i :=
  congrArg (w.fins i + ·) (finsSent_of_none (.inl hfed))

theorem peerFin_not_fed (hfed : w.endpoint.fed a i = none) :
    (w.next a).peerFin i = w.peerFin i := by
  have hnone := finHeard_of_not_fed hfed
  simp [next, hnone]

section

variable (h : w.Good) (hmay : w.endpoint.may a = true)

include h hmay

theorem Proper.clean (hproper : w.Proper a) : w.Clean a := by
  intro i e input now p hfed hhears
  have he := entryOf_of_fed hfed
  have hlive := (h.live he).1
  have hends := feed_isClosed_iff hlive hhears now
  have hleft := feed_inFlight hhears now
  refine ⟨fun hfin hgone => ?_, fun hheard hzero hempty => ?_⟩
  · -- another FIN would be sent if the connection stayed
    rcases h.counted_fed hmay hfed with ⟨hclosed, -⟩ | ⟨-, e', -, -, honce, -⟩
    · obtain ⟨htype, -, hempty⟩ := hends.mp hclosed
      exact ⟨htype, hempty⟩
    · obtain ⟨x, hx, hxfin⟩ := honce.mp (hproper.once i) hfin
      rw [hleft] at hx
      exact absurd hxfin (hgone x hx)
  · have hheard' : (w.next a).peerFin i = true := by
      simp [next, hheard]
    have hnone := hproper.finished i e input now p hfed hhears hheard' hzero
      hempty
    rcases h.counted_fed hmay hfed with ⟨hclosed, -⟩ | ⟨-, e', hsome, -⟩
    · exact (hends.mp hclosed).1
    · cases hnone.symm.trans hsome

theorem Clean.removed (hclean : w.Clean a)
    (hfed : w.endpoint.fed a i = some (e, input, now))
    (hhears : e.conn.hears input = some p)
    (hdone : e.conn.FinInFlight ∨ (w.next a).peerFin i = true)
    (hzero : e.conn.outLen = 0) (hempty : remaining p e.conn.inFlight = []) :
    (w.next a).endpoint.entryOf i = none := by
  have hlive := (h.live (entryOf_of_fed hfed)).1
  obtain ⟨hours, hpeers⟩ := hclean i e input now p hfed hhears
  have htype : p.packetType = .fin := by
    rcases hdone with hfin | hheard
    · refine (hours hfin ?_).1
      rw [hempty]
      exact nofun
    · have hrecord : w.peerFin i = true ∨ p.packetType = .fin := by
        simpa [next, finHeard_of_fed hfed, hhears] using hheard
      rcases hrecord with hbefore | hnow
      · exact hpeers hbefore hzero hempty
      · exact hnow
  have hclosed := (feed_isClosed_iff hlive hhears now).mpr
    ⟨htype, hzero, hempty⟩
  rcases h.counted_fed hmay hfed with ⟨-, hnone, -⟩ | ⟨hopen, -⟩
  · exact hnone
  · cases hclosed.symm.trans hopen

theorem Clean.once (hclean : w.Clean a) (i : ℕ) : (w.next a).fins i ≤ 1 := by
  cases hfed : w.endpoint.fed a i with
  | none =>
    rw [Good.fins_not_fed hfed]
    exact h.once i
  | some r =>
    obtain ⟨e, input, now⟩ := r
    rcases h.counted_fed hmay hfed with
      ⟨-, -, hsame⟩ | ⟨hopen, e', -, -, honce, -⟩
    · rw [hsame]
      exact h.once i
    · rw [honce]
      intro hfin
      by_contra hgone
      cases hhears : e.conn.hears input with
      | none =>
        rw [finInFlight_iff, feed_contents hhears] at hgone
        exact hgone (finInFlight_iff.mp hfin)
      | some p =>
        have he := entryOf_of_fed hfed
        have hpos : 0 < w.fins i := by
          by_contra hzero
          exact (h.counted i e he).fresh (by omega) hfin
        obtain ⟨-, -, hzero⟩ := (h.counted i e he).sent hpos
        have hleft := feed_inFlight hhears now
        obtain ⟨htype, hempty⟩ :=
          (hclean i e input now p hfed hhears).1 hfin fun x hx hxfin =>
            hgone ⟨x, hleft ▸ hx, hxfin⟩
        have hclosed := (feed_isClosed_iff (h.live he).1
          hhears now).mpr ⟨htype, hzero, hempty⟩
        cases hclosed.symm.trans hopen

theorem Clean.settled (hclean : w.Clean a) {e' : Entry}
    (he' : (w.next a).endpoint.entryOf i = some e')
    (hheard : (w.next a).peerFin i = true) : ¬ e'.conn.Quiet := by
  intro hquiet
  cases hfed : w.endpoint.fed a i with
  | none =>
    rw [peerFin_not_fed hfed] at hheard
    rcases entryOf_next_of_not_fed h.keyed hmay hfed he' with
      hold | ⟨hi, -⟩
    · exact h.settled i e' hold hheard hquiet
    · rw [(h.unborn i hi.ge).2] at hheard
      cases hheard
  | some r =>
    obtain ⟨e, input, now⟩ := r
    rcases h.counted_fed hmay hfed with
      ⟨-, hnone, -⟩ | ⟨-, e'', hsome, -, -, hkept⟩
    · cases hnone.symm.trans he'
    · cases he'.symm.trans hsome
      have hfeed := hkept hquiet
      cases hhears : e.conn.hears input with
      | none =>
        have hbefore : w.peerFin i = true := by
          simpa [next, finHeard_of_fed hfed, hhears] using hheard
        exact h.settled i e (entryOf_of_fed hfed) hbefore
          (quiet_of_feed hhears hfeed)
      | some p =>
        obtain ⟨state, hout, -⟩ := feed_of_hears hhears now
        have hlen : (e.conn.feed now input).outLen = e.conn.outLen :=
          congrArg Connection.Outbound.len hout
        have hflight := feed_inFlight hhears now
        have hnone := hclean.removed h hmay hfed hhears (.inr hheard)
          (hlen ▸ hfeed.1) (hflight ▸ hfeed.2)
        cases hnone.symm.trans he'

theorem proper_iff_clean_step : w.Proper a ↔ w.Clean a := by
  refine ⟨Proper.clean h hmay, fun hclean => ⟨hclean.once h hmay, ?_, ?_, ?_⟩⟩
  · intro i e input now p hfed hhears hfin
    exact hclean.removed h hmay hfed hhears (.inl hfin)
  · intro i e input now p hfed hhears hheard
    exact hclean.removed h hmay hfed hhears (.inr hheard)
  · intro i e' he' hheard
    exact hclean.settled h hmay he' hheard

theorem Good.next (hproper : w.Proper a) : (w.next a).Good where
  keyed := h.keyed.next hmay
  inv := h.inv.next h.keyed hmay
  counted i e' he' := by
    cases hfed : w.endpoint.fed a i with
    | none =>
      rw [Good.fins_not_fed hfed]
      rcases entryOf_next_of_not_fed h.keyed hmay hfed he' with
        hold | ⟨hi, v, hborn, hentry⟩
      · exact h.counted i e' hold
      · rw [(h.unborn i hi.ge).1]
        exact Born.counted hborn hentry
    | some r =>
      obtain ⟨e, input, now⟩ := r
      rcases h.counted_fed hmay hfed with
        ⟨-, hnone, -⟩ | ⟨-, e'', hsome, hcounted, -⟩
      · have hgone : (w.next a).endpoint.entryOf i = some e' := he'
        cases hnone.symm.trans hgone
      · have hstays : (w.next a).endpoint.entryOf i = some e' := he'
        rw [hsome, Option.some.injEq] at hstays
        rw [← hstays]
        exact hcounted
  unborn i hi := by
    have hlt : w.endpoint.streams.length ≤ i :=
      (streams_length_next h.keyed hmay).trans hi
    cases hfed : w.endpoint.fed a i with
    | none =>
      rw [Good.fins_not_fed hfed, peerFin_not_fed hfed]
      exact h.unborn i hlt
    | some r => exact absurd (fed_lt hfed) (not_lt.mpr hlt)
  once := hproper.once
  settled := hproper.settled

end

theorem good_start : start.Good where
  keyed := keyed_start
  inv := inv_start
  counted i e h := by cases h
  unborn _ _ := ⟨rfl, rfl⟩
  once _ := Nat.zero_le 1
  settled i e h := by cases h

/-! ## Runs -/

/-- In every run of an endpoint, each event keeps the rules of closing exactly
if each hears only clean acknowledgements. -/
theorem proper_iff_clean (events : List Event)
    (h : chronicles.Allowed start events) :
    chronicles.Along Proper start events ↔
      chronicles.Along Clean start events :=
  System.along_iff_along (I := Good)
    (fun _ _ hgood hmay hproper => hgood.next hmay hproper)
    (fun _ _ hgood hmay => proper_iff_clean_step hgood hmay) good_start h

/-- A peer connects and confirms, and the application shuts its stream
down. -/
def farewell : List Event :=
  [.datagram (Packet.new .syn 7 1 0) somePeer 0 100,
    .datagram (Packet.new .state 8 2 99) somePeer 0 0,
    .shutdown 0, .command 0 0]

/-- The peer answers the FIN. -/
def farewellRun (answer : Packet) : List Event :=
  farewell ++ [.datagram answer somePeer 0 0]

/-- The acknowledgement of the FIN makes the connection send a second one, and
the connection stays. -/
theorem second_fin_sent :
    chronicles.Allowed start (farewellRun (Packet.new .state 8 2 100)) ∧
      ¬ chronicles.Along Proper start
        (farewellRun (Packet.new .state 8 2 100)) ∧
      ((chronicles.after start (farewellRun
        (Packet.new .state 8 2 100))).endpoint.entryOf 0).map
          (fun e => e.conn.inFlight.map fun x =>
            (x.packet.packetType, x.seqNr)) = some [(.fin, 101)] := by
  refine ⟨by decide +kernel, fun hproper => ?_, by decide +kernel⟩
  have hlast := (System.along_append.mp hproper).2
  have htwo : (chronicles.after start (farewellRun
      (Packet.new .state 8 2 100))).fins 0 = 2 := by decide +kernel
  have hone : (chronicles.after start (farewellRun
      (Packet.new .state 8 2 100))).fins 0 ≤ 1 := by
    rw [farewellRun, System.after_append]
    exact hlast.once 0
  omega

/-- A peer that answers the FIN with its own. -/
theorem proper_iff_clean_answered : chronicles.Along Proper start
      (farewellRun (Packet.new .fin 8 2 100)) := by
  refine (proper_iff_clean _ (by decide +kernel)).mpr ?_
  decide +kernel

end Chronicle

end Endpoint

end RustyTorrent.Utp
