import RustyTorrent.Peer.Utp.DriverViews

/-!
# Clean ends of streams

The application reads the end of a stream when the driver has dropped its half
of the delivery queue.  `Endpoint.Truthful` says that no clean end hides a byte
that the connection had accepted before.  A run keeps it exactly if each FIN
that closes a connection finds room in the delivery queue for everything that
is still in the buffer (`truthful_iff_fits`).  The queue holds sixteen messages
of any size, so sixteen unread bytes are enough to lose the seventeenth
(`unread_byte_lost`).
-/

namespace RustyTorrent.Utp.Endpoint

open Connection List Option

/-- The connections and their streams: different connections have different
streams. -/
structure Linked (conns : AList fun _ : ConnKey => Entry)
    (streams : List UtpStream) : Prop where
  good : ∀ key e, conns.lookup key = some e →
    ∃ st, streams[e.stream]? = some st ∧ Entry.Good key e st
  distinct : ∀ key key' e e', conns.lookup key = some e →
    conns.lookup key' = some e' → e.stream = e'.stream → key = key'

/-- What holds between the steps of the driver. -/
def Inv (s : Endpoint) : Prop := Linked s.conns s.streams

/-- No clean end hides a byte. -/
def Truthful (s : Endpoint) : Prop := ∀ st ∈ s.streams, st.Truthful

instance (st : UtpStream) : Decidable st.Truthful :=
  inferInstanceAs (Decidable (st.ending = some .eof → st.placed = st.accepted))

instance (s : Endpoint) : Decidable s.Truthful :=
  inferInstanceAs (Decidable (∀ st ∈ s.streams, st.Truthful))

/-- A FIN that closes a connection of the application finds room in the
delivery queue for all of the buffer. -/
def Fits (s : Endpoint) : Event → Prop
  | .datagram p peer _ _ =>
    p.packetType = .fin →
    ∀ e st, s.find (peer, p.connectionId) = some (e, st) →
    st.holder = .application → e.conn.outLen = 0 →
    Connection.remaining p e.conn.inFlight = [] →
    e.conn.inBuf.length ≤ deliverMsgBytes * st.capacity
  | _ => True

variable {s : Endpoint} {a : Event} {key : ConnKey} {e : Entry}
  {st : UtpStream} {i : ℕ} {v : View}

/-! ## Connections and streams -/

theorem Entry.Good.truthful (h : Entry.Good key e st) : st.Truthful := by
  intro hend
  cases h.running.symm.trans hend

/-- The connection of a stream, if it has one, is in order. -/
def View.Good (v : View) : Prop :=
  ∀ e, v.entry = some e → Entry.Good v.stream.key e v.stream

theorem Inv.good_of_view (h : s.Inv) (hv : s.view i = some v)
    (he : v.entry = some e) : Entry.Good v.stream.key e v.stream := by
  obtain ⟨hlookup, hid⟩ := (view_entry_eq_some hv).mp he
  obtain ⟨st, hst, hgood⟩ := h.good _ e hlookup
  rw [hid, (view_eq_some.mp hv).1, some.injEq] at hst
  rw [hst] at hgood ⊢
  exact hgood

theorem inv_of_views (h : s.Keyed)
    (hgood : ∀ i v, s.view i = some v → View.Good v) : s.Inv where
  good key e he := by
    obtain ⟨v, hv, hentry, hkey⟩ := h.view_of_lookup he
    exact ⟨v.stream, (view_eq_some.mp hv).1, hkey ▸ hgood _ v hv e hentry⟩
  distinct key key' e e' he he' hid := by
    obtain ⟨st, hst, hkey⟩ := h key e he
    obtain ⟨st', hst', hkey'⟩ := h key' e' he'
    rw [hid, hst', some.injEq] at hst
    rw [← hkey, ← hkey', hst]

theorem truthful_iff_views :
    s.Truthful ↔ ∀ i v, s.view i = some v → v.stream.Truthful := by
  constructor
  · intro h i v hv
    exact h _ (mem_of_getElem? (view_eq_some.mp hv).1)
  · intro h st hst
    obtain ⟨i, hi, rfl⟩ := getElem_of_mem hst
    obtain ⟨v, hv⟩ := view_isSome hi
    have hsome := (view_eq_some.mp hv).1
    rw [getElem?_eq_getElem hi, some.injEq] at hsome
    rw [hsome]
    exact h i v hv

/-! ## One stream -/

theorem Entry.Good.feed (h : Entry.Good key e st) (now : ℕ) (input : Input) :
    Entry.Ready key (e.feed now input) (st.feed e.conn now input) := by
  have hsame {c : Connection} (hin : c.inbound = e.conn.inbound)
      (hheld : st.holder ≠ .gone) : st.accepted = st.placed ++ c.inBuf :=
    (h.bytes hheld).trans (congrArg (st.placed ++ ·)
      (congrArg Connection.Inbound.buffer hin).symm)
  refine ⟨Connection.feed_sound h.sound now input, ?_, ?_⟩
  · cases input <;> exact h.running
  · cases input with
    | packet p diff =>
      intro hheld
      obtain ⟨fresh, hfresh⟩ := Connection.handleIncoming_extends e.conn p now
      have hbytes := h.bytes hheld
      simp only [UtpStream.feed, Entry.feed, Connection.feed, ← hfresh,
        drop_left, hbytes, append_assoc]
    | block data =>
      exact hsame (Connection.enqueueSendBlock_frame e.conn data).1
    | close => exact hsame (Connection.close_frame e.conn).1
    | tick =>
      intro hheld
      have hbuf := (Connection.tick_sound h.sound now).2.1
      exact (h.bytes hheld).trans (congrArg (st.placed ++ ·) hbuf.symm)

/-- The bytes in the buffer of a connection that an input has closed fit into
the free slots of its queue, if it has been handed to the application. -/
def FitsAt (v : View) (input : Input) (now : ℕ) : Prop :=
  ∀ e, v.entry = some e → (e.conn.feed now input).state = .closed →
    v.stream.holder = .application →
    (e.conn.feed now input).inBuf.length ≤
      deliverMsgBytes * v.stream.capacity

theorem View.Good.drive (h : View.Good v) (input : Input)
    (waiting : ℕ → Bool) (now : ℕ) :
    View.Good (v.drive input waiting now) ∧
      ((v.drive input waiting now).stream.Truthful ↔
        v.stream.Truthful ∧ FitsAt v input now) := by
  cases he : v.entry with
  | none =>
    rw [View.drive_of_none he]
    refine ⟨h, (and_iff_left fun e hsome => ?_).symm⟩
    cases he.symm.trans hsome
  | some e =>
    obtain ⟨hentry, htruth⟩ :=
      (Entry.Good.feed (h e he) now input).collect waiting now
    have hshape : (v.stream.feed e.conn now input).holder =
        v.stream.holder ∧ (v.stream.feed e.conn now input).capacity =
          v.stream.capacity := by
      cases input <;> exact ⟨rfl, rfl⟩
    rw [hshape.1, hshape.2] at htruth
    rw [View.drive_of_some he]
    refine ⟨fun e' he' => ?_, htruth.trans ?_⟩
    · have hkey := (e.drive_passed v.stream input waiting now).key
      dsimp only
      rw [hkey]
      exact (hentry e' he').2
    · rw [and_iff_right (Entry.Good.truthful (h e he))]
      constructor
      · intro hfits e' he'
        rw [he, some.injEq] at he'
        rw [← he']
        exact hfits
      · intro hfits
        exact hfits e he

theorem View.Good.act (h : View.Good v) {f : UtpStream → UtpStream}
    (hkey : (f v.stream).key = v.stream.key)
    (hkept : v.stream.Kept (f v.stream)) :
    View.Good (v.act f) ∧ ((v.act f).stream.Truthful ↔ v.stream.Truthful) := by
  refine ⟨fun e he => ?_, hkept.truthful_iff⟩
  have hold := h e he
  dsimp only [View.act]
  rw [hkey]
  exact ⟨hold.toReady.kept hkept, hold.live⟩

theorem View.Good.surface (h : View.Good v) (listening : Bool) :
    View.Good (v.surface listening) ∧
      ((v.surface listening).stream.Truthful ↔ v.stream.Truthful) := by
  rcases v.surface_cases listening with heq | ⟨hheld, heq⟩
  · rw [heq]
    exact ⟨h, .rfl⟩
  · have hne : v.stream.holder ≠ .gone := by
      rw [hheld]
      nofun
    rw [heq]
    exact h.act (UtpStream.handOver_passed hne _).key
      (UtpStream.handOver_kept hne _)

theorem touch_kept (s : Endpoint) (i : ℕ) (a : Event) (st : UtpStream) :
    (s.touch i a st).key = st.key ∧ st.Kept (s.touch i a st) := by
  rcases touch_cases s i a st with ⟨queue, rem, sent, heq⟩ |
    ⟨now, recvId, key, data, rest, -, -, -, heq⟩ | ⟨buf, -, heq⟩ | ⟨-, heq⟩
  · rw [heq]
    exact ⟨rfl, rfl, rfl, rfl, id⟩
  · rw [heq]
    exact ⟨rfl, rfl, rfl, rfl, id⟩
  · obtain ⟨gate, hgate, -⟩ := st.pollWrite_frame i buf
    rw [heq, hgate]
    exact ⟨rfl, rfl, rfl, rfl, id⟩
  · rw [heq]
    exact ⟨rfl, st.drop_kept⟩

theorem View.Good.localNext (h : View.Good v) (s : Endpoint) (i : ℕ)
    (a : Event) :
    View.Good (s.localNext i v a) ∧
      ((s.localNext i v a).stream.Truthful ↔ v.stream.Truthful ∧
        ∀ input now, s.inputOf v.stream.key a = some (input, now) →
          FitsAt v input now) := by
  obtain ⟨hkey, hkept⟩ := touch_kept s i a v.stream
  obtain ⟨htouched, htouch⟩ := h.act hkey hkept
  let v' := (v.act (s.touch i a)).driveWith (s.inputOf v.stream.key a) s.waiting
  have hdriven : View.Good v' ∧ (v'.stream.Truthful ↔ v.stream.Truthful ∧
      ∀ input now, s.inputOf v.stream.key a = some (input, now) →
        FitsAt v input now) := by
    dsimp only [v']
    cases hinput : s.inputOf v.stream.key a with
    | none => exact ⟨htouched, htouch.trans (and_iff_left nofun).symm⟩
    | some r =>
      obtain ⟨input, now⟩ := r
      obtain ⟨gate, hgate⟩ := touch_of_input hinput i v.stream
      obtain ⟨hgood, htruth⟩ := htouched.drive input s.waiting now
      have hfits : FitsAt (v.act (s.touch i a)) input now ↔
          FitsAt v input now := by
        unfold FitsAt View.act
        rw [hgate]
        rfl
      refine ⟨hgood, htruth.trans (and_congr htouch (hfits.trans ?_))⟩
      constructor
      · rintro hfit input' now' ⟨⟩
        exact hfit
      · intro hfit
        exact hfit input now rfl
  have hnext : s.localNext i v a =
      if addresses v.stream.key a then v'.surface s.listening else v' := rfl
  rw [hnext]
  split_ifs
  · obtain ⟨hgood, htruth⟩ := hdriven.1.surface s.listening
    exact ⟨hgood, htruth.trans hdriven.2⟩
  · exact hdriven

theorem Born.good (h : Born i v) : View.Good v := by
  intro e he
  cases h with
  | dial peer recvId now number =>
    cases he
    exact ⟨⟨newInitiator_sound recvId now, rfl, fun _ => rfl⟩, rfl⟩
  | inbound peer diff hnew =>
    cases he
    obtain ⟨hsound, hstate, hbuf⟩ :=
      newReceiverWithSeq_sound hnew
    refine ⟨⟨hsound, rfl, fun _ => ?_⟩, ?_⟩
    · simp [UtpStream.new, hbuf]
    · simp [isClosed, hstate]

/-! ## One event -/

theorem Inv.next (h : s.Inv) (hkeyed : s.Keyed) (hmay : s.may a = true) :
    (s.next a).Inv := by
  refine inv_of_views (hkeyed.next hmay) fun i v' hv' => ?_
  rcases view_next_cases hkeyed hmay hv' with ⟨v, hv, rfl⟩ | ⟨-, hborn⟩
  · have hgood : View.Good v := fun e he => h.good_of_view hv he
    exact (hgood.localNext s i a).1
  · exact hborn.good

theorem fits_iff (h : s.Inv) (hkeyed : s.Keyed) :
    s.Fits a ↔ ∀ i v, s.view i = some v → ∀ input now,
      s.inputOf v.stream.key a = some (input, now) →
      FitsAt v input now := by
  constructor
  · intro hfits i v hv input now hinput e he hclosed happ
    have hgood := h.good_of_view hv he
    have hopen := isClosed_eq_false.mp hgood.live
    rcases inputOf_eq_some hinput with ⟨p, peer, initSeq, rfl, rfl, hkey⟩ |
      ⟨recvId, data, writer, rest, rfl, -, rfl⟩ |
      ⟨recvId, rest, rfl, -, rfl⟩ | ⟨rfl, rfl⟩
    · obtain ⟨hmatch, hfin, hout, hrem⟩ :=
        (handleIncoming_closed_iff hopen.1 p now).mp hclosed
      have hdirect : v.stream.key = (peer, p.connectionId) := by
        rcases hkey with hkey | ⟨hsyn, -⟩
        · exact hkey
        · cases hfin.symm.trans hsyn
      have hid := ((view_entry_eq_some hv).mp he).2
      have hview : s.view e.stream = some ⟨some e, v.stream⟩ := by
        rw [hid, hv, ← he]
      have hfind := hkeyed.find_iff.mpr ⟨hview, hdirect⟩
      have hfit := hfits hfin e v.stream hfind happ hout hrem
      rw [feed, handleIncoming_fin_inBuf hmatch hfin]
      exact hfit
    · have hstate := (enqueueSendBlock_frame e.conn data).2.2
      exact absurd (hstate.symm.trans hclosed) hopen.1
    · have hsame := (close_sound hgood.sound).2
      rw [hgood.live, isClosed_eq_false] at hsame
      exact absurd hclosed hsame.1
    · exact absurd ((tick_sound hgood.sound now).2.2 hclosed) hopen.1
  · intro hfits
    cases a with
    | datagram p peer now initSeq =>
      intro hfin e st hfind happ hout hrem
      obtain ⟨hview, hkey⟩ := hkeyed.find_iff.mp hfind
      have hgood := h.good_of_view hview rfl
      have hmatch : e.conn.matchesIncoming p = true := by
        have hid : e.conn.recvId = p.connectionId :=
          hgood.sound.recvId.trans (congrArg Prod.snd hkey)
        simp [matchesIncoming, hid]
      have hopen := isClosed_eq_false.mp hgood.live
      have hclosed := (handleIncoming_closed_iff hopen.1 p
        now).mpr ⟨hmatch, hfin, hout, hrem⟩
      have hfit := hfits e.stream _ hview _ now (if_pos (.inl hkey)) e rfl
        hclosed happ
      rw [feed, handleIncoming_fin_inBuf hmatch hfin] at hfit
      exact hfit
    | command | tick | connect | giveUp | dropSocket | read | peek | write |
        shutdown | drop =>
      trivial

theorem truthful_next_iff (hkeyed : s.Keyed) (h : s.Inv)
    (hmay : s.may a = true) :
    (s.next a).Truthful ↔ s.Truthful ∧ s.Fits a := by
  have hlocal (i : ℕ) (v : View) (hv : s.view i = some v) :=
    (View.Good.localNext (fun _ he => h.good_of_view hv he) s i a).2
  rw [fits_iff h hkeyed, truthful_iff_views, truthful_iff_views]
  constructor
  · intro htrue
    have hboth (i : ℕ) (v : View) (hv : s.view i = some v) :=
      (hlocal i v hv).mp (htrue i _ (view_next hkeyed hmay hv))
    exact ⟨fun i v hv => (hboth i v hv).1, fun i v hv => (hboth i v hv).2⟩
  · rintro ⟨htrue, hfits⟩ i v' hv'
    rcases view_next_cases hkeyed hmay hv' with ⟨v, hv, rfl⟩ | ⟨-, hborn⟩
    · exact (hlocal i v hv).mpr ⟨htrue i v hv, hfits i v hv⟩
    · cases hborn <;> exact nofun

theorem inv_start : start.Inv :=
  inv_of_views keyed_start fun _ _ hv => by cases hv

/-! ## Runs -/

/-- In every run of the driver and the applications of its streams, no clean
end of a stream hides an accepted byte, exactly if each FIN that closes a
connection finds room in the delivery queue for all of its buffer. -/
theorem truthful_iff_fits (events : List Event)
    (h : driver.Allowed start events) :
    (driver.after start events).Truthful ↔
      driver.Along Fits start events := by
  have hrun : (driver.after start events).Truthful ↔
      start.Truthful ∧ driver.Along Fits start events :=
    System.after_iff_along (I := fun s => s.Keyed ∧ s.Inv)
      (fun s a hs ha => ⟨hs.1.next ha, hs.2.next hs.1 ha⟩)
      (fun s a hs ha => truthful_next_iff hs.1 hs.2 ha)
      ⟨keyed_start, inv_start⟩ h
  refine hrun.trans (and_iff_right ?_)
  intro st hst
  cases hst

/-! ## A queue of single bytes -/

/-- A peer and its packets: a SYN, single bytes, and a FIN. -/
def somePeer : SocketAddr := ⟨.localhost, 1⟩

def byteAt (seqNr : UInt16) : Packet :=
  { Packet.new .data 8 seqNr 99 with payload := [1] }

/-- A peer connects, sends as many single bytes as given and then its FIN,
while the application reads nothing. -/
def unreadRun (bytes : ℕ) : List Event :=
  .datagram (Packet.new .syn 7 1 0) somePeer 0 100 ::
    (List.range bytes).map
      (fun i => .datagram (byteAt (UInt16.ofNat (i + 2))) somePeer 0 0) ++
    [.datagram (Packet.new .fin 8 (UInt16.ofNat (bytes + 2)) 99) somePeer 0 0]

/-- The seventeenth byte was accepted and acknowledged, and is lost behind the
end of the stream. -/
theorem unread_byte_lost : driver.Allowed start (unreadRun 17) ∧
      ¬ (driver.after start (unreadRun 17)).Truthful ∧
      (driver.after start (unreadRun 17)).streams.map
        (fun st => (st.holder, st.ending, st.accepted.length,
          st.placed.length)) =
        [(.application, some .eof, 17, 16)] := by
  decide +kernel

/-- Sixteen bytes fit. -/
theorem truthful_iff_fits_sixteen :
    (driver.after start (unreadRun 16)).Truthful ∧
      driver.Along Fits start (unreadRun 16) := by
  have hrun : driver.Allowed start (unreadRun 16) := by decide +kernel
  have htrue : (driver.after start (unreadRun 16)).Truthful := by
    decide +kernel
  exact ⟨htrue, (truthful_iff_fits _ hrun).1 htrue⟩

end RustyTorrent.Utp.Endpoint
