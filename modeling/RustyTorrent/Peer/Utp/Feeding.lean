import RustyTorrent.Peer.Utp.CleanEnd

/-!
# Connections that get an input

An event hands an input to the connection of at most one stream
(`fed_unique`).  What is left of that connection follows from the input alone
(`localNext_fed_cases`), and all other connections stay as they are.
-/

namespace RustyTorrent.Utp.Endpoint

open Option

open SendGate

variable {s : Endpoint} {a : Event} {i j now : ℕ} {v : View}
  {e e' : Entry} {input : Input}

/-- The connection of a stream. -/
def entryOf (s : Endpoint) (i : ℕ) : Option Entry :=
  (s.view i).bind View.entry

/-- The connection of a stream that an event hands an input to. -/
def fed (s : Endpoint) (a : Event) (i : ℕ) : Option (Entry × Input × ℕ) :=
  (s.view i).bind fun v => v.entry.bind fun e =>
    (s.inputOf v.stream.key a).map fun r => (e, r)

theorem entryOf_eq_some :
    s.entryOf i = some e ↔ ∃ v, s.view i = some v ∧ v.entry = some e := by
  simp [entryOf, bind_eq_some_iff]

theorem fed_eq_some : s.fed a i = some (e, input, now) ↔
      ∃ v, s.view i = some v ∧ v.entry = some e ∧
        s.inputOf v.stream.key a = some (input, now) := by
  simp only [fed, bind_eq_some_iff, map_eq_some_iff, Prod.mk.injEq]
  constructor
  · rintro ⟨v, hv, e', he, r, hinput, rfl, rfl⟩
    exact ⟨v, hv, he, hinput⟩
  · rintro ⟨v, hv, he, hinput⟩
    exact ⟨v, hv, e, he, _, hinput, rfl, rfl⟩

theorem fed_lt (h : s.fed a i = some (e, input, now)) :
    i < s.streams.length := by
  obtain ⟨v, hv, -⟩ := fed_eq_some.mp h
  exact view_lt hv

theorem fed_unique {r r' : Entry × Input × ℕ} (h : s.fed a i = some r)
    (h' : s.fed a j = some r') : i = j := by
  obtain ⟨e, input, now⟩ := r
  obtain ⟨e', input', now'⟩ := r'
  obtain ⟨v, hv, he, hinput⟩ := fed_eq_some.mp h
  obtain ⟨v', hv', he', hinput'⟩ := fed_eq_some.mp h'
  obtain ⟨hlookup, hid⟩ := (view_entry_eq_some hv).mp he
  obtain ⟨hlookup', hid'⟩ := (view_entry_eq_some hv').mp he'
  suffices hkey : v.stream.key = v'.stream.key by
    rw [hkey, hlookup', some.injEq] at hlookup
    rw [← hid, ← hid', hlookup]
  have hthere := contains_of_view hv he
  have hthere' := contains_of_view hv' he'
  rcases inputOf_eq_some hinput with ⟨p, peer, initSeq, rfl, -, hkey⟩ |
    ⟨recvId, data, writer, rest, rfl, hcommands, -⟩ |
    ⟨recvId, rest, rfl, hcommands, -⟩ | ⟨rfl, -⟩
  · simp only [inputOf, ite_none_right_eq_some] at hinput'
    rcases hkey with hkey | ⟨-, hfree, hkey⟩ <;>
      rcases hinput'.1 with hkey' | ⟨-, hfree', hkey'⟩
    · rw [hkey, hkey']
    · rw [hkey, hfree'] at hthere
      cases hthere
    · rw [hkey', hfree] at hthere'
      cases hthere'
    · rw [hkey, hkey']
  · simp only [inputOf, hcommands, ite_none_right_eq_some] at hinput'
    exact hinput'.1.symm
  · simp only [inputOf, hcommands, ite_none_right_eq_some] at hinput'
    exact hinput'.1.symm
  · simp only [inputOf, ite_none_right_eq_some] at hinput'
    exact hinput'.1.symm

/-! ## What is left of a connection -/

theorem touch_closed (s : Endpoint) (i : ℕ) (a : Event) (st : UtpStream) :
    (s.touch i a st).gate.closed = st.gate.closed := by
  rcases touch_cases s i a st with ⟨queue, rem, sent, heq⟩ |
    ⟨t, recvId, key, data, rest, -, -, -, heq⟩ | ⟨buf, -, heq⟩ | ⟨-, heq⟩
  · rw [heq]
  · rw [heq]
    exact release_closed _ _
  · obtain ⟨gate, hgate, hclosed, -⟩ := st.pollWrite_frame i buf
    rw [heq, hgate]
    exact hclosed
  · rw [heq]
    rfl

theorem localNext_eq (s : Endpoint) (i : ℕ) (v : View) (a : Event) :
    (s.localNext i v a).entry =
        ((v.act (s.touch i a)).driveWith (s.inputOf v.stream.key a)
          s.waiting).entry ∧
      (s.localNext i v a).stream.gate =
        ((v.act (s.touch i a)).driveWith (s.inputOf v.stream.key a)
          s.waiting).stream.gate := by
  unfold localNext
  dsimp only
  split_ifs
  · exact ⟨View.surface_entry _ _, View.surface_gate _ _⟩
  · exact ⟨rfl, rfl⟩

theorem not_fed_or_fed (s : Endpoint) (v : View) (a : Event) :
    (s.inputOf v.stream.key a = none ∨ v.entry = none) ∨
      ∃ e input now, v.entry = some e ∧
        s.inputOf v.stream.key a = some (input, now) := by
  cases hinput : s.inputOf v.stream.key a with
  | none => exact .inl (.inl rfl)
  | some r =>
    cases he : v.entry with
    | none => exact .inl (.inr rfl)
    | some e => exact .inr ⟨e, r.1, r.2, rfl, rfl⟩

theorem localNext_of_not_fed (i : ℕ)
    (h : s.inputOf v.stream.key a = none ∨ v.entry = none) :
    (s.localNext i v a).entry = v.entry ∧
      (s.localNext i v a).stream.gate = (s.touch i a v.stream).gate := by
  obtain ⟨hentry, hgate⟩ := localNext_eq s i v a
  rw [hentry, hgate]
  rcases h with hinput | he
  · rw [hinput]
    exact ⟨rfl, rfl⟩
  · have he' : (v.act (s.touch i a)).entry = none := he
    rw [View.driveWith_of_none he']
    exact ⟨rfl, rfl⟩

theorem touch_holder (s : Endpoint) {i : ℕ} {a : Event} (h : a ≠ .drop i)
    (st : UtpStream) : (s.touch i a st).holder = st.holder := by
  rcases touch_cases s i a st with ⟨queue, rem, sent, heq⟩ |
    ⟨t, recvId, key, data, rest, -, -, -, heq⟩ | ⟨buf, -, heq⟩ | ⟨hdrop, -⟩
  · rw [heq]
  · rw [heq]
    rfl
  · obtain ⟨gate, hgate, -⟩ := st.pollWrite_frame i buf
    rw [heq, hgate]
  · exact absurd hdrop h

theorem localNext_holder_of_not_fed
    (h : s.inputOf v.stream.key a = none ∨ v.entry = none)
    (hdrop : a ≠ .drop i) :
    (s.localNext i v a).stream.holder = v.stream.holder := by
  refine Eq.trans ?_ (touch_holder s hdrop v.stream)
  unfold localNext
  rcases h with hinput | he
  · have haddress : addresses v.stream.key a = false := by
      unfold addresses
      split
      next p peer t initSeq =>
        refine decide_eq_false fun hkey => ?_
        rw [inputOf, if_pos (.inl hkey)] at hinput
        cases hinput
      next => rfl
    rw [hinput, haddress]
    rfl
  · have he' : (v.act (s.touch i a)).entry = none := he
    rw [View.driveWith_of_none he']
    dsimp only
    rw [View.surface_of_none he', ite_self]
    rfl

theorem entry_of_localNext (h : (s.localNext i v a).entry = some e') :
    ∃ e, v.entry = some e := by
  cases he : v.entry with
  | none =>
    rw [(localNext_of_not_fed i (.inr he)).1, he] at h
    cases h
  | some e => exact ⟨e, rfl⟩

theorem localNext_fed_cases (h : s.Inv) (hv : s.view i = some v)
    (he : v.entry = some e)
    (hinput : s.inputOf v.stream.key a = some (input, now)) :
    e.Driven input now ((s.touch i a v.stream).feed e.conn now input).gate
      (s.localNext i v a).entry (s.localNext i v a).stream.gate := by
  have he' : (v.act (s.touch i a)).entry = some e := he
  obtain ⟨hentry, hgate⟩ := localNext_eq s i v a
  rw [hentry, hgate, hinput]
  dsimp only [View.driveWith]
  rw [View.drive_of_some he']
  exact Entry.drive_spec (h.good_of_view hv he).sound _ input s.waiting now

theorem localNext_fed (hinv : s.Inv) (hv : s.view i = some v)
    (he : v.entry = some e)
    (hinput : s.inputOf v.stream.key a = some (input, now))
    (he' : (s.localNext i v a).entry = some e') :
    (e.conn.feed now input).isClosed = false ∧
      e'.conn.state = (e.conn.feed now input).state ∧
      e'.conn.outstandingSendBytes =
        (e.conn.feed now input).outstandingSendBytes ∧
      (s.localNext i v a).stream.gate.closed =
        (v.stream.gate.closed || input = .close) := by
  rcases localNext_fed_cases hinv hv he hinput with
    ⟨-, hnone, -⟩ | ⟨hlive, hgate, buf, conn, hconn, hout, hsome⟩
  · cases he'.symm.trans hnone
  · cases he'.symm.trans hsome
    refine ⟨hlive, ?_, hout, ?_⟩
    · rw [hconn]
      exact (Connection.pendingSendPackets_sent _ now).state
    · rw [hgate, release_closed, ← s.touch_closed i a v.stream]
      cases input <;> simp [UtpStream.feed, close, wake]

theorem localNext_closed_of_input_none
    (hinput : s.inputOf v.stream.key a = none) :
    (s.localNext i v a).stream.gate.closed = v.stream.gate.closed := by
  rw [(localNext_of_not_fed i (.inl hinput)).2]
  exact s.touch_closed i a v.stream

theorem entryOf_next_of_fed (h : s.Keyed) (hinv : s.Inv)
    (hmay : s.may a = true) (hfed : s.fed a i = some (e, input, now)) :
    ((e.conn.feed now input).isClosed = true ∧ (s.next a).entryOf i = none) ∨
    ((e.conn.feed now input).isClosed = false ∧ ∃ buf conn,
      conn = (({ e.conn.feed now input with inBuf := buf } :
        Connection).pendingSendPackets now).1 ∧
      (s.next a).entryOf i = some { e.feed now input with
        conn := conn
        lastOutstanding := conn.outstandingSendBytes }) := by
  obtain ⟨v, hv, he, hinput⟩ := fed_eq_some.mp hfed
  rw [entryOf, view_next h hmay hv, bind_some]
  rcases localNext_fed_cases hinv hv he hinput with
    ⟨hclosed, hnone, -⟩ | ⟨hlive, -, buf, conn, hconn, -, hsome⟩
  · exact .inl ⟨hclosed, hnone⟩
  · exact .inr ⟨hlive, buf, conn, hconn, hsome⟩

theorem entryOf_next_of_not_fed (h : s.Keyed) (hmay : s.may a = true)
    (hfed : s.fed a i = none) (he : (s.next a).entryOf i = some e) :
    s.entryOf i = some e ∨
      i = s.streams.length ∧ ∃ v, Born i v ∧ v.entry = some e := by
  obtain ⟨v', hv', he'⟩ := entryOf_eq_some.mp he
  rcases view_next_cases h hmay hv' with ⟨v, hv, rfl⟩ | ⟨hi, hborn⟩
  · left
    obtain ⟨e₀, hentry⟩ := entry_of_localNext he'
    have hinput : s.inputOf v.stream.key a = none := by
      cases hin : s.inputOf v.stream.key a with
      | none => rfl
      | some r =>
        rw [fed_eq_some.mpr ⟨v, hv, hentry, hin⟩] at hfed
        cases hfed
    rw [(localNext_of_not_fed i (.inl hinput)).1] at he'
    exact entryOf_eq_some.mpr ⟨v, hv, he'⟩
  · exact .inr ⟨hi, v', hborn, he'⟩

end RustyTorrent.Utp.Endpoint
