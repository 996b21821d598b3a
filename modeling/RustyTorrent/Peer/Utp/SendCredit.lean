import RustyTorrent.Peer.Utp.Feeding

/-!
# Send credit

`poll_write` reserves credit in the gate of its stream, and the driver gives
it back when the bytes leave the connection, when the connection is reaped, or
when a block is refused.  Between events the credit in use is that of the
blocks in the channel and of the bytes the connection holds.  The driver gives
it back by how much the bytes of a connection have become fewer, so credit is
conserved exactly if every block that is taken from the channel finds under
its key, if anything, the connection of its own stream or one that refuses it
(`conserved_iff_delivered`).
-/

namespace RustyTorrent.Utp

open List Option Nat Command View

/-- The bytes of a command that belong to a stream. -/
def Command.bytesOf (i : ℕ) : Command → ℕ
  | .send _ data writer => if writer = i then data.length else 0
  | _ => 0

/-- The bytes that the connection of a stream has not got rid of. -/
def View.outstanding (v : View) : ℕ :=
  match v.entry with
  | some e => e.conn.outstandingSendBytes
  | none => 0

namespace Endpoint

/-- The bytes of a stream in the channel. -/
def inChannel (s : Endpoint) (i : ℕ) : ℕ :=
  (s.commands.map (Command.bytesOf i)).sum

/-- Every stream uses the credit of its bytes in the channel and of those its
connection holds, and not more than there is. -/
def Balanced (s : Endpoint) : Prop :=
  ∀ i v, s.view i = some v →
    v.stream.gate.used = s.inChannel i + v.outstanding ∧
      v.stream.gate.used ≤ sendBufCapBytes

/-- The credit that an event gives back to a stream for a refused block. -/
def refundOf (s : Endpoint) (i : ℕ) : Event → ℕ
  | .command _ _ =>
    match s.commands with
    | .send key data writer :: _ =>
      if !s.accepts key data ∧ writer = i then data.length else 0
    | _ => 0
  | _ => 0

/-- An event conserves credit: afterwards all streams are balanced; no
`release` gives back more than is in use, neither for a refused block, nor for
the bytes that have left a connection, nor for those it still holds when it is
reaped; and if it frees credit of a stream or closes its gate, a blocked
writer is woken. -/
structure Conserved (s : Endpoint) (a : Event) : Prop where
  balanced : (s.next a).Balanced
  refunded : ∀ i v, s.view i = some v →
    s.refundOf i a ≤ v.stream.gate.used
  released : ∀ i v e input now, s.view i = some v → v.entry = some e →
    s.inputOf v.stream.key a = some (input, now) →
    let held := (e.conn.feed now input).outstandingSendBytes
    let used := v.stream.gate.used - s.refundOf i a
    e.lastOutstanding - held ≤ used ∧
      ((e.conn.feed now input).isClosed = true →
        held ≤ used - (e.lastOutstanding - held))
  woken : ∀ i v v', s.view i = some v → (s.next a).view i = some v' →
    v.stream.gate.waiter = true →
    v'.stream.gate.used < v.stream.gate.used ∨
      v.stream.gate.closed = false ∧ v'.stream.gate.closed = true →
    v'.stream.gate.waiter = false

/-- A block finds under its key, if anything, the connection of its stream or
one that has begun to close. -/
def Reaches (s : Endpoint) : Command → Prop
  | .send key _ writer => ∀ e ∈ s.conns.lookup key,
      e.stream = writer ∨ e.conn.state = .finSent
  | _ => True

instance (s : Endpoint) : (c : Command) → Decidable (s.Reaches c)
  | .send key _ _ =>
    inferInstanceAs (Decidable (∀ e ∈ s.conns.lookup key, _))
  | .connect _ _ => inferInstanceAs (Decidable True)
  | .close _ => inferInstanceAs (Decidable True)

/-- The command that an event takes from the channel reaches its own
connection. -/
def Delivered (s : Endpoint) (a : Event) : Prop :=
  a.isCommand = true → ∀ c ∈ s.commands.head?, s.Reaches c

instance (s : Endpoint) (a : Event) : Decidable (s.Delivered a) :=
  inferInstanceAs (Decidable (_ → ∀ c ∈ s.commands.head?, _))

/-- A peer does not open a connection under the key of a stream that somebody
still has. -/
def NoReuse (s : Endpoint) : Event → Prop
  | .datagram p peer _ _ => p.packetType = .syn →
      s.contains (peer, p.connectionId) = false →
      s.contains (peer, p.connectionId + 1) = false →
      ∀ st ∈ s.streams, st.key = (peer, p.connectionId + 1) →
        st.holder = .gone
  | _ => True

instance (s : Endpoint) : (a : Event) → Decidable (s.NoReuse a)
  | .datagram _ _ _ _ => inferInstanceAs (Decidable (_ → _ → _ → _))
  | .command _ _ | .tick _ _ | .connect _ | .giveUp _ | .dropSocket
  | .read _ _ | .peek _ | .write _ _ | .shutdown _ | .drop _ =>
    inferInstanceAs (Decidable True)

end Endpoint

/-! ## Gates -/

namespace SendGate

variable (g : SendGate)

theorem release_used (n : ℕ) : (g.release n).used = g.used - n := by
  unfold release
  split_ifs with hzero
  · rw [hzero, Nat.sub_zero]
  · rfl

/-- A gate that is as it was or has nobody waiting. -/
def Fair (g g' : SendGate) : Prop := g' = g ∨ g'.waiter = false

theorem Fair.trans {g g' g'' : SendGate} (h : g.Fair g')
    (h' : g'.Fair g'') : g.Fair g'' := by
  rcases h' with rfl | hwoken
  · exact h
  · exact .inr hwoken

theorem fair_release (n : ℕ) : g.Fair (g.release n) := by
  unfold release
  split_ifs
  · exact .inl rfl
  · exact .inr rfl

end SendGate

theorem UtpStream.feed_gate (st : UtpStream) (c : Connection) (now : ℕ)
    (input : Input) :
    (st.feed c now input).gate.used = st.gate.used ∧
      st.gate.Fair (st.feed c now input).gate := by
  cases input with
  | packet | block | tick => exact ⟨rfl, .inl rfl⟩
  | close => exact ⟨rfl, .inr rfl⟩

theorem UtpStream.pollWrite_credit (st : UtpStream) (id : ℕ) (buf : Bytes) :
    ∃ n, (st.pollWrite id buf).1.gate.used = st.gate.used + n ∧
      n ≤ st.gate.available ∧
      ∀ i, ((st.pollWrite id buf).2.1.map (bytesOf i)).sum =
        if id = i then n else 0 := by
  obtain ⟨gate, heq, -, ⟨hused, hnone⟩ | ⟨data, -, hfits, hused, hone⟩⟩ :=
    st.pollWrite_frame id buf
  · refine ⟨0, by rw [heq, hused]; rfl, zero_le _, fun i => ?_⟩
    simp [hnone]
  · refine ⟨data.length, by rw [heq, hused], hfits, fun i => ?_⟩
    simp [hone, bytesOf]

namespace Connection

theorem feed_outstanding_le (c : Connection) {input : Input} (now : ℕ)
    (hblock : ∀ data, input = .block data → (c.enqueueSendBlock data).2 = false)
    :
    (c.feed now input).outstandingSendBytes ≤ c.outstandingSendBytes := by
  have hlen := feed_outLen now hblock
  cases hhears : c.hears input with
  | none =>
    rw [outstandingSendBytes_eq, outstandingSendBytes_eq, hlen,
      feed_contents hhears]
  | some p =>
    have hsub : ((c.feed now input).inFlight.map fun x =>
        x.packet.payload.length).Sublist
          (c.inFlight.map fun x => x.packet.payload.length) := by
      rw [feed_inFlight hhears now]
      exact (remaining_sublist p c.inFlight).map _
    have hsum := hsub.sum_le_sum fun _ _ => zero_le _
    simp only [outstandingSendBytes, payloadBytes, hlen]
    omega

theorem feed_outstanding_block {c : Connection} {data : Bytes}
    (h : (c.enqueueSendBlock data).2 = true) (now : ℕ) :
    (c.feed now (.block data)).outstandingSendBytes =
        c.outstandingSendBytes + data.length ∧
      (c.feed now (.block data)).isClosed = c.isClosed := by
  rcases enqueueSendBlock_cases c data with ⟨-, heq⟩ | ⟨-, -, heq⟩
  · rw [heq] at h
    cases h
  · rw [feed, heq]
    refine ⟨?_, rfl⟩
    simp only [outstandingSendBytes]
    omega

end Connection

namespace Endpoint

open SendGate

open Connection

variable {s : Endpoint} {a : Event} {i now : ℕ} {v : View} {e : Entry}
  {input : Input}

/-! ## The channel -/

/-- The bytes of a stream that an event takes from the channel. -/
def taken (s : Endpoint) (i : ℕ) (a : Event) : ℕ :=
  if a.isCommand then
    (s.commands.head?.map (Command.bytesOf i)).getD 0
  else 0

/-- The bytes of a stream that an event puts into the channel. -/
def given (s : Endpoint) (i : ℕ) : Event → ℕ
  | .write id buf =>
    ((s.streams[id]?).map fun st =>
      ((st.pollWrite id buf).2.1.map (Command.bytesOf i)).sum).getD 0
  | _ => 0

theorem inChannel_pending (s : Endpoint) (i : ℕ) (a : Event) :
    ((s.pending a).map (bytesOf i)).sum + s.taken i a = s.inChannel i := by
  unfold taken inChannel
  split_ifs with ha
  · obtain ⟨now, recvId, rfl⟩ := isCommand_iff.mp ha
    unfold pending
    cases s.commands with
    | nil => rfl
    | cons c rest => simp [add_comm]
  · rw [pending_of_not_command ha, add_zero]

theorem bytesOf_eq_zero {c : Command}
    (h : ∀ target data writer, c ≠ .send target data writer) :
    c.bytesOf i = 0 := by
  cases c with
  | connect | close => rfl
  | send key data writer => exact absurd rfl (h key data writer)

theorem given_of_ne_write (h : ∀ id buf, a ≠ .write id buf) :
    s.given i a = 0 := by
  cases a <;> first | rfl | exact absurd rfl (h _ _)

theorem inChannel_next (h : s.Keyed) (hmay : s.may a = true) (i : ℕ) :
    (s.next a).inChannel i + s.taken i a = s.inChannel i + s.given i a := by
  obtain ⟨new, hnew, hissued⟩ := next_commands h hmay
  have hpending := inChannel_pending s i a
  have hgiven : (new.map (bytesOf i)).sum = s.given i a := by
    by_cases hwrite : ∀ id buf, a ≠ .write id buf
    · rw [given_of_ne_write hwrite]
      refine sum_eq_zero fun x hx => ?_
      obtain ⟨c, hc, rfl⟩ := mem_map.mp hx
      exact bytesOf_eq_zero (hissued.ne_send hwrite hc)
    · rcases hissued with ⟨id, buf, st, rfl, hst, rfl⟩ | ⟨hnot, -⟩
      · rw [given, hst]
        rfl
      · exact absurd hnot hwrite
  rw [inChannel, hnew, map_append, sum_append, hgiven]
  omega

/-! ## One stream -/

theorem touch_used (s : Endpoint) (i : ℕ) (a : Event) {st : UtpStream}
    (hst : s.streams[i]? = some st) :
    (s.touch i a st).gate.used =
      st.gate.used - s.refundOf i a + s.given i a := by
  cases a with
  | command now recvId =>
    dsimp only [touch, refundOf, given]
    cases s.commands with
    | nil => rfl
    | cons c rest =>
      cases c with
      | connect peer dial => rfl
      | close key => rfl
      | send key data writer =>
        dsimp only
        split_ifs
        · exact release_used _ _
        · rfl
  | write id buf =>
    dsimp only [touch, refundOf, given]
    split_ifs with hid
    · subst hid
      obtain ⟨n, hused, -, hsum⟩ := st.pollWrite_credit id buf
      rw [hused, hst, map_some, getD_some, hsum, if_pos rfl]
      rfl
    · cases hother : s.streams[id]? with
      | none => rfl
      | some st' =>
        obtain ⟨n, -, -, hsum⟩ := st'.pollWrite_credit id buf
        rw [map_some, getD_some, hsum, if_neg hid]
        rfl
  | read id room =>
    obtain ⟨queue, rem, heq⟩ := st.pollRead_frame room
    dsimp only [touch]
    rw [heq]
    split_ifs <;> rfl
  | peek id =>
    obtain ⟨queue, rem, heq⟩ := st.peekFirstByte_frame
    dsimp only [touch]
    rw [heq]
    split_ifs <;> rfl
  | shutdown id =>
    obtain ⟨sent, heq⟩ := st.pollShutdown_frame
    dsimp only [touch]
    rw [heq]
    split_ifs <;> rfl
  | drop id =>
    dsimp only [touch]
    split_ifs <;> rfl
  | datagram | tick | connect | giveUp | dropSocket => rfl

theorem touch_fair (h : s.inputOf v.stream.key a = some (input, now))
    (i : ℕ) (st : UtpStream) : st.gate.Fair (s.touch i a st).gate := by
  rcases touch_cases s i a st with ⟨queue, rem, sent, heq⟩ |
    ⟨t, recvId, key, data, rest, -, -, -, heq⟩ | ⟨buf, rfl, -⟩ | ⟨rfl, -⟩
  · rw [heq]
    exact .inl rfl
  · rw [heq]
    exact fair_release _ _
  · cases h
  · cases h

theorem given_le (s : Endpoint) (i : ℕ) (a : Event) {st : UtpStream}
    (hst : s.streams[i]? = some st) : s.given i a ≤ st.gate.available := by
  unfold given
  split
  next id buf =>
    cases hother : s.streams[id]? with
    | none => exact zero_le _
    | some st' =>
      obtain ⟨n, -, hle, hsum⟩ := st'.pollWrite_credit id buf
      rw [map_some, getD_some, hsum]
      split_ifs with hid
      · rw [← hid, hother, some.injEq] at hst
        rw [← hst]
        exact hle
      · exact zero_le _
  next => exact zero_le _

/-- The bytes of a stream that are taken from the channel are refunded, or the
connection under their key takes them. -/
theorem refundOf_cases (s : Endpoint) (i : ℕ) (a : Event) :
    s.refundOf i a = s.taken i a ∨
      s.refundOf i a = 0 ∧ ∃ now recvId key data rest,
        a = .command now recvId ∧ s.commands = .send key data i :: rest ∧
        s.accepts key data = true := by
  by_cases ha : a.isCommand = true
  · obtain ⟨now, recvId, rfl⟩ := isCommand_iff.mp ha
    unfold refundOf taken
    cases hcommands : s.commands with
    | nil => exact .inl rfl
    | cons c rest =>
      cases c with
      | connect peer dial => exact .inl rfl
      | close key => exact .inl rfl
      | send key data writer =>
        by_cases hwriter : writer = i
        · subst hwriter
          cases haccepts : s.accepts key data with
          | true =>
            exact .inr ⟨by simp [haccepts], now, recvId, key, data,
              rest, rfl, rfl, haccepts⟩
          | false =>
            left
            simp [Event.isCommand, bytesOf, haccepts]
        · left
          simp [Event.isCommand, bytesOf, hwriter]
  · left
    rw [taken, if_neg ha]
    cases a <;> first | rfl | exact absurd rfl ha

theorem localNext_used_of_not_fed (i : ℕ)
    (h : s.inputOf v.stream.key a = none ∨ v.entry = none) :
    (s.localNext i v a).stream.gate.used = (s.touch i a v.stream).gate.used ∧
      (s.localNext i v a).outstanding = v.outstanding := by
  obtain ⟨hentry, hgate⟩ := localNext_of_not_fed i h
  rw [hgate]
  refine ⟨rfl, ?_⟩
  unfold outstanding
  rw [hentry]

theorem localNext_used_of_fed (hinv : s.Inv) (hv : s.view i = some v)
    (he : v.entry = some e)
    (hinput : s.inputOf v.stream.key a = some (input, now)) :
    let held := (e.conn.feed now input).outstandingSendBytes
    let used := (s.touch i a v.stream).gate.used - (e.lastOutstanding - held)
    ((e.conn.feed now input).isClosed = true ∧
      (s.localNext i v a).stream.gate.used = used - held ∧
      (s.localNext i v a).outstanding = 0) ∨
    ((e.conn.feed now input).isClosed = false ∧
      (s.localNext i v a).stream.gate.used = used ∧
      (s.localNext i v a).outstanding = held) := by
  have hfeed := (UtpStream.feed_gate (s.touch i a v.stream) e.conn now input).1
  dsimp only
  unfold outstanding
  rcases localNext_fed_cases hinv hv he hinput with
    ⟨hclosed, hnone, hgate⟩ | ⟨hlive, hgate, buf, conn, -, hout, hsome⟩
  · refine .inl ⟨hclosed, ?_, by rw [hnone]⟩
    rw [hgate]
    change (release _ _).used = _
    rw [release_used, release_used, hfeed]
  · refine .inr ⟨hlive, ?_, by rw [hsome]; exact hout⟩
    rw [hgate, release_used, hfeed]

/-- What holds between the events of a run that conserves credit. -/
structure Solvent (s : Endpoint) : Prop where
  keyed : s.Keyed
  inv : s.Inv
  balanced : s.Balanced
  last : ∀ i v e, s.view i = some v → v.entry = some e →
    e.lastOutstanding = e.conn.outstandingSendBytes
  sends : ∀ key data writer, .send key data writer ∈ s.commands →
    data ≠ [] ∧ writer < s.streams.length

variable {data : Bytes}

theorem accepts_eq_true {key : ConnKey} :
    s.accepts key data = true ↔ ∃ e, s.conns.lookup key = some e ∧
      (e.conn.enqueueSendBlock data).2 = true := by
  simp [accepts, Option.any_eq_true]

theorem Reaches.own {key : ConnKey} {writer : ℕ}
    (h : s.Reaches (.send key data writer)) (he : s.conns.lookup key = some e)
    (haccepted : (e.conn.enqueueSendBlock data).2 = true) :
    e.stream = writer := by
  rcases h e he with hown | hfin
  · exact hown
  · rw [enqueueSendBlock_of_finSent hfin] at haccepted
    cases haccepted

/-- What is taken from the channel and not refunded goes to the connection of
the stream. -/
theorem Delivered.fed (h : s.Delivered a) (hkeyed : s.Keyed)
    (hv : s.view i = some v) (hne : s.refundOf i a ≠ s.taken i a) :
    ∃ e data now, v.entry = some e ∧
      s.inputOf v.stream.key a = some (.block data, now) ∧
      (e.conn.enqueueSendBlock data).2 = true ∧ s.refundOf i a = 0 ∧
      s.taken i a = data.length := by
  rcases refundOf_cases s i a with heq | ⟨hzero, now, recvId, key, data,
    rest, rfl, hcommands, haccepts⟩
  · exact absurd heq hne
  · obtain ⟨e, he, haccepted⟩ := accepts_eq_true.mp haccepts
    have hreaches : s.Reaches (.send key data i) :=
      h rfl _ (by rw [hcommands]; rfl)
    have hown := hreaches.own he haccepted
    obtain ⟨v', hv', hentry, hkey⟩ := hkeyed.view_of_lookup he
    rw [hown, hv, some.injEq] at hv'
    subst hv'
    refine ⟨e, data, now, hentry, ?_, haccepted, hzero, ?_⟩
    · simp [inputOf, hcommands, hkey]
    · simp [taken, Event.isCommand, hcommands, bytesOf]

theorem Delivered.block_own (h : s.Delivered a) (hv : s.view i = some v)
    (he : v.entry = some e)
    (hinput : s.inputOf v.stream.key a = some (.block data, now))
    (haccepted : (e.conn.enqueueSendBlock data).2 = true) :
    s.refundOf i a = 0 ∧ s.taken i a = data.length := by
  obtain ⟨hlookup, hid⟩ := (view_entry_eq_some hv).mp he
  rcases inputOf_eq_some hinput with ⟨p, peer, initSeq, -, hne, -⟩ |
    ⟨recvId, data', writer, rest, rfl, hcommands, heq⟩ |
    ⟨recvId, rest, -, -, hne⟩ | ⟨-, hne⟩
  · cases hne
  · cases heq
    have hreaches : s.Reaches (.send v.stream.key data writer) :=
      h rfl _ (by rw [hcommands]; rfl)
    have hwriter : writer = i :=
      (hreaches.own hlookup haccepted).symm.trans hid
    have haccepts : s.accepts v.stream.key data = true :=
      accepts_eq_true.mpr ⟨e, hlookup, haccepted⟩
    simp [refundOf, taken, hcommands, haccepts, Event.isCommand,
      bytesOf, hwriter]
  · cases hne
  · cases hne

/-! ## One event -/

theorem Solvent.taken_le (h : s.Solvent) (hv : s.view i = some v)
    (a : Event) : s.taken i a + v.outstanding ≤ v.stream.gate.used := by
  have hpending := inChannel_pending s i a
  have hbalanced := (h.balanced i v hv).1
  omega

/-- What an event makes of the credit and the bytes of a connection that gets
an input: bytes leave it, or it takes a block of its stream. -/
theorem Solvent.fed_cases (h : s.Solvent) (hdelivered : s.Delivered a)
    (hv : s.view i = some v) (he : v.entry = some e)
    (hinput : s.inputOf v.stream.key a = some (input, now)) :
    (s.refundOf i a = s.taken i a ∧
      (e.conn.feed now input).outstandingSendBytes ≤ v.outstanding) ∨
    (s.refundOf i a = 0 ∧ (e.conn.feed now input).outstandingSendBytes =
        v.outstanding + s.taken i a ∧
      (e.conn.feed now input).isClosed = false) := by
  have hout : v.outstanding = e.conn.outstandingSendBytes := by
    rw [outstanding, he]
  have hlive := (h.inv.good_of_view hv he).live
  by_cases hblock : ∀ data, input = .block data →
      (e.conn.enqueueSendBlock data).2 = false
  · left
    refine ⟨?_, hout ▸ feed_outstanding_le e.conn now hblock⟩
    by_contra hne
    obtain ⟨e', data, now', he', hinput', haccepted, -⟩ :=
      hdelivered.fed h.keyed hv hne
    rw [he, some.injEq] at he'
    cases hinput.symm.trans hinput'
    rw [← he', hblock data rfl] at haccepted
    cases haccepted
  · right
    simp only [not_forall, Bool.not_eq_false] at hblock
    obtain ⟨data, rfl, haccepted⟩ := hblock
    obtain ⟨hzero, htaken⟩ := hdelivered.block_own hv he hinput haccepted
    obtain ⟨hmore, hsame⟩ :=
      feed_outstanding_block haccepted now
    exact ⟨hzero, by rw [hmore, hout, htaken], hsame.trans hlive⟩

theorem Solvent.balanced_view (h : s.Solvent) (hmay : s.may a = true)
    (hdelivered : s.Delivered a) (hv : s.view i = some v) :
    (s.localNext i v a).stream.gate.used =
        (s.next a).inChannel i + (s.localNext i v a).outstanding ∧
      (s.localNext i v a).stream.gate.used ≤ sendBufCapBytes := by
  have hst := (view_eq_some.mp hv).1
  have htouch := touch_used s i a hst
  have hgiven := given_le s i a hst
  have hchannel := inChannel_next h.keyed hmay i
  have htaken := h.taken_le hv a
  obtain ⟨hbalanced, hcap⟩ := h.balanced i v hv
  rw [available] at hgiven
  rcases not_fed_or_fed s v a with hfed | ⟨e, input, now, he, hinput⟩
  · obtain ⟨hused, hout⟩ := localNext_used_of_not_fed i hfed
    have hrefund : s.refundOf i a = s.taken i a := by
      by_contra hne
      obtain ⟨e, data, now, he, hinput, -⟩ := hdelivered.fed h.keyed hv hne
      rcases hfed with hnone | hnone
      · cases hinput.symm.trans hnone
      · cases he.symm.trans hnone
    omega
  · have hlast : e.lastOutstanding = v.outstanding := by
      rw [h.last i v e hv he, outstanding, he]
    rcases h.fed_cases hdelivered hv he hinput with
      ⟨hrefund, hless⟩ | ⟨hrefund, hmore, hlive⟩
    · rcases localNext_used_of_fed h.inv hv he hinput with
        ⟨-, hused, hout⟩ | ⟨-, hused, hout⟩
      · omega
      · omega
    · rcases localNext_used_of_fed h.inv hv he hinput with
        ⟨hclosed, -⟩ | ⟨-, hused, hout⟩
      · cases hlive.symm.trans hclosed
      · omega

theorem Solvent.inChannel_unborn (h : s.Solvent)
    (hi : s.streams.length ≤ i) : s.inChannel i = 0 := by
  refine sum_eq_zero fun x hx => ?_
  obtain ⟨c, hc, rfl⟩ := mem_map.mp hx
  cases c with
  | connect | close => rfl
  | send key data writer =>
    have hlt := (h.sends key data writer hc).2
    exact if_neg (by omega)

theorem given_unborn (hi : s.streams.length ≤ i) : s.given i a = 0 := by
  unfold given
  split
  next id buf =>
    cases hst : s.streams[id]? with
    | none => rfl
    | some st =>
      have hlt := (List.getElem?_eq_some_iff.mp hst).1
      obtain ⟨n, -, -, hsum⟩ := st.pollWrite_credit id buf
      rw [map_some, getD_some, hsum, if_neg (by omega)]
  next => rfl

theorem Born.solvent {v : View} (h : Born i v) :
    v.stream.gate.used = 0 ∧ v.outstanding = 0 ∧ ∀ e, v.entry = some e →
        e.lastOutstanding = e.conn.outstandingSendBytes := by
  cases h with
  | dial peer recvId now number =>
    refine ⟨rfl, rfl, fun e he => ?_⟩
    cases he
    rfl
  | inbound peer diff hnew =>
    unfold newReceiverWithSeq at hnew
    split_ifs at hnew
    cases hnew
    refine ⟨rfl, rfl, fun e he => ?_⟩
    cases he
    rfl

section

variable (h : s.Solvent)

include h

theorem Solvent.balanced_next (hmay : s.may a = true)
    (hdelivered : s.Delivered a) : (s.next a).Balanced := by
  intro i v' hv'
  rcases view_next_cases h.keyed hmay hv' with ⟨v, hv, rfl⟩ | ⟨hi, hborn⟩
  · exact h.balanced_view hmay hdelivered hv
  · obtain ⟨hused, hout, -⟩ := hborn.solvent
    have hchannel := inChannel_next h.keyed hmay i
    have hbefore := h.inChannel_unborn hi.ge
    have hgiven := given_unborn (a := a) hi.ge
    have hcap : 0 ≤ sendBufCapBytes := zero_le _
    omega

theorem Solvent.last_next (hmay : s.may a = true) {v' : View} {e' : Entry}
    (hv' : (s.next a).view i = some v') (he' : v'.entry = some e') :
    e'.lastOutstanding = e'.conn.outstandingSendBytes := by
  rcases view_next_cases h.keyed hmay hv' with ⟨v, hv, rfl⟩ | ⟨-, hborn⟩
  · obtain ⟨e, he⟩ := entry_of_localNext he'
    cases hinput : s.inputOf v.stream.key a with
    | none =>
      have hsame := (localNext_of_not_fed i (.inl hinput)).1
      rw [he', he, some.injEq] at hsame
      rw [hsame]
      exact h.last i v e hv he
    | some r =>
      obtain ⟨input, now⟩ := r
      rcases localNext_fed_cases h.inv hv he hinput with
        ⟨-, hnone, -⟩ | ⟨-, -, buf, conn, -, -, hsome⟩
      · cases he'.symm.trans hnone
      · rw [he', some.injEq] at hsome
        rw [hsome]
  · exact hborn.solvent.2.2 e' he'

theorem Solvent.next (hmay : s.may a = true) (hbalanced : (s.next a).Balanced)
    : (s.next a).Solvent where
  keyed := h.keyed.next hmay
  inv := h.inv.next h.keyed hmay
  balanced := hbalanced
  last _ _ _ hv' he' := h.last_next hmay hv' he'
  sends key data writer hmem := by
    have hgrow := streams_length_next h.keyed hmay
    rcases send_of_next h.keyed hmay hmem with hold | ⟨hdata, hlt⟩
    · obtain ⟨hdata, hlt⟩ := h.sends key data writer hold
      exact ⟨hdata, lt_of_lt_of_le hlt hgrow⟩
    · exact ⟨hdata, lt_of_lt_of_le hlt hgrow⟩

/-- A gate that an event leaves with less credit in use, or closes, has nobody
waiting. -/
theorem Solvent.woken (hv : s.view i = some v)
    (hfreed : (s.localNext i v a).stream.gate.used < v.stream.gate.used ∨
      v.stream.gate.closed = false ∧
        (s.localNext i v a).stream.gate.closed = true) :
    (s.localNext i v a).stream.gate.waiter = false := by
  suffices hfair : v.stream.gate.Fair (s.localNext i v a).stream.gate by
    rcases hfair with hsame | hwoken
    · rw [hsame] at hfreed
      rcases hfreed with hless | ⟨hopen, hclosed⟩
      · exact absurd hless (lt_irrefl _)
      · cases hopen.symm.trans hclosed
    · exact hwoken
  rcases not_fed_or_fed s v a with hfed | ⟨e, input, now, he, hinput⟩
  · rw [(localNext_of_not_fed i hfed).2] at hfreed ⊢
    rcases touch_cases s i a v.stream with ⟨queue, rem, sent, heq⟩ |
      ⟨t, recvId, key, data, rest, -, -, -, heq⟩ | ⟨buf, -, heq⟩ | ⟨-, heq⟩
    · rw [heq]
      exact .inl rfl
    · rw [heq]
      exact fair_release _ _
    · -- a write frees nothing
      obtain ⟨gate, hgate, hclosed, hused⟩ := v.stream.pollWrite_frame i buf
      have hmore : v.stream.gate.used ≤ gate.used := by
        rcases hused with ⟨hsame, -⟩ | ⟨data, -, -, hsum, -⟩
        · exact hsame.ge
        · omega
      rw [heq, hgate] at hfreed
      rcases hfreed with hless | ⟨hopen, hshut⟩
      · exact absurd hless (not_lt.mpr hmore)
      · dsimp only at hshut
        rw [hclosed, hopen] at hshut
        cases hshut
    · rw [heq]
      exact .inl rfl
  · have htouch := touch_fair hinput i v.stream
    have hfeed := (UtpStream.feed_gate (s.touch i a v.stream) e.conn now
      input).2
    rcases localNext_fed_cases h.inv hv he hinput with
      ⟨-, -, hgate⟩ | ⟨-, hgate, -⟩
    · rw [hgate]
      exact .inr rfl
    · rw [hgate]
      exact (htouch.trans hfeed).trans (fair_release _ _)

theorem Delivered.conserved (hmay : s.may a = true) (hdelivered : s.Delivered a)
    : s.Conserved a where
  balanced := h.balanced_next hmay hdelivered
  refunded i v hv := by
    have htaken := h.taken_le hv a
    rcases refundOf_cases s i a with heq | ⟨hzero, -⟩
    · omega
    · omega
  released i v e input now hv he hinput := by
    have htaken := h.taken_le hv a
    have hlast : e.lastOutstanding = v.outstanding := by
      rw [h.last i v e hv he, outstanding, he]
    rcases h.fed_cases hdelivered hv he hinput with
      ⟨hrefund, hless⟩ | ⟨hrefund, hmore, hlive⟩
    · refine ⟨?_, fun _ => ?_⟩
      · omega
      · omega
    · refine ⟨?_, fun hclosed => ?_⟩
      · omega
      · cases hlive.symm.trans hclosed
  woken i v v' hv hv' _ hfreed := by
    rw [view_next h.keyed hmay hv, some.injEq] at hv'
    subst hv'
    exact h.woken hv hfreed

/-- A block that another connection takes is counted there and released
nowhere. -/
theorem Conserved.delivered (hmay : s.may a = true) (hconserved : s.Conserved a)
    : s.Delivered a := by
  intro hcommand c hc
  obtain ⟨now, recvId, rfl⟩ := isCommand_iff.mp hcommand
  obtain ⟨rest, hcommands⟩ := List.head?_eq_some_iff.mp hc
  cases c with
  | connect | close => trivial
  | send key data writer =>
    intro e he
    by_contra hnot
    rw [not_or] at hnot
    obtain ⟨hne, hnotFin⟩ := hnot
    obtain ⟨v, hv, hentry, hkey⟩ := h.keyed.view_of_lookup he
    have hlive := (h.inv.good_of_view hv hentry).live
    have hdata := (h.sends key data writer
      (by rw [hcommands]; exact mem_cons_self)).1
    have haccepted : (e.conn.enqueueSendBlock data).2 = true := by
      rw [enqueueSendBlock_of_live hdata hnotFin hlive]
    have hinput : s.inputOf v.stream.key (.command now recvId) =
        some (.block data, now) := by
      rw [inputOf, hcommands]
      exact if_pos hkey
    obtain ⟨hmore, hstill⟩ :=
      feed_outstanding_block haccepted now
    have hout : v.outstanding = e.conn.outstandingSendBytes := by
      rw [outstanding, hentry]
    have hlast := h.last _ v e hv hentry
    have hpos := length_pos_of_ne_nil hdata
    -- nothing of this block is the credit of the stream that gets it
    have hrefund : s.refundOf e.stream (.command now recvId) = 0 := by
      rw [refundOf, hcommands]
      exact if_neg fun hown => hne hown.2.symm
    have htaken : s.taken e.stream (.command now recvId) = 0 := by
      simp [taken, Event.isCommand, hcommands, bytesOf, Ne.symm hne]
    have htouch := touch_used s e.stream (.command now recvId)
      (view_eq_some.mp hv).1
    have hchannel := inChannel_next h.keyed hmay e.stream
    have hgiven : s.given e.stream (.command now recvId) = 0 := rfl
    have hbefore := (h.balanced _ v hv).1
    have hafter := (hconserved.balanced _ _ (view_next h.keyed hmay hv)).1
    rcases localNext_used_of_fed h.inv hv hentry hinput with
      ⟨hclosed, -⟩ | ⟨-, hused, hheld⟩
    · rw [hstill, hlive] at hclosed
      cases hclosed
    · omega

end

theorem solvent_start : start.Solvent where
  keyed := keyed_start
  inv := inv_start
  balanced i v hv := by cases hv
  last i v e hv := by cases hv
  sends key data writer hmem := by cases hmem

/-! ## Runs -/

/-- In every run of an endpoint, credit is conserved exactly if each block
that is taken from the channel finds under its key, if anything, the
connection of its own stream or one that has begun to close. -/
theorem conserved_iff_delivered (events : List Event)
    (h : driver.Allowed start events) :
    driver.Along Conserved start events ↔
      driver.Along Delivered start events :=
  System.along_iff_along (I := Solvent)
    (fun _ _ hs hmay hconserved => hs.next hmay hconserved.balanced)
    (fun _ _ hs hmay => ⟨fun hconserved => hconserved.delivered hs hmay,
      fun hdelivered => hdelivered.conserved hs hmay⟩) solvent_start h

/-- A peer connects and confirms; the application writes a byte and drops the
stream; the peer resets the connection and connects again. -/
def rewritten : List Event :=
  [.datagram (Packet.new .syn 7 1 0) somePeer 0 100,
    .datagram (Packet.new .state 8 2 99) somePeer 0 0,
    .write 0 [1], .drop 0,
    .datagram (Packet.new .reset 8 2 99) somePeer 0 0,
    .datagram (Packet.new .syn 7 1 0) somePeer 0 200]

/-- The byte of the stream that is gone enters the new connection, whose
stream has no credit in use for it. -/
theorem stale_block_uncredited :
    driver.Allowed start (rewritten ++ [.command 0 0]) ∧
      driver.Along NoReuse start (rewritten ++ [.command 0 0]) ∧
      ¬ driver.Along Conserved start (rewritten ++ [.command 0 0]) := by
  refine ⟨by decide +kernel, by decide +kernel, fun hconserved => ?_⟩
  have hlast : (driver.after start rewritten).Conserved (.command 0 0) :=
    (System.along_append.mp hconserved).2
  have hafter : (((driver.after start rewritten).next (.command 0 0)).view
      1).map (fun v => (v.stream.gate.used, v.outstanding)) =
        some (0, 1) := by decide +kernel
  obtain ⟨v, hv, heq⟩ := Option.map_eq_some_iff.mp hafter
  rw [Prod.mk.injEq] at heq
  have hbalanced := (hlast.balanced 1 v hv).1
  omega

/-- A byte that reaches its own connection. -/
theorem conserved_iff_delivered_single : driver.Along Conserved start
      [.datagram (Packet.new .syn 7 1 0) somePeer 0 100,
        .datagram (Packet.new .state 8 2 99) somePeer 0 0,
        .write 0 [1], .command 0 0] :=
  (conserved_iff_delivered _ (by decide +kernel)).mpr (by decide +kernel)

end Endpoint

end RustyTorrent.Utp
