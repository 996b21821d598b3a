import RustyTorrent.Peer.Utp.Feeding

/-!
# Commands of other streams

A command in the channel names a connection by its key, and a key is used
again as soon as its connection is gone.  The channel is followed with the
stream that issued each command.  A Send or Close leaves the connections of
all other streams alone exactly if whatever has its key when it is taken from
the channel belongs to its issuer, or is closing already
(`isolated_iff_addressed`).
-/

namespace RustyTorrent.Utp

open List Option Connection View

/-- The key of the connection a command is for. -/
def Command.target : Command → Option ConnKey
  | .connect _ _ => none
  | .send key _ _ => some key
  | .close key => some key

namespace Endpoint

/-- The stream that acts in an event: the one the application uses, or the
one whose connection gets an input. -/
def actor (s : Endpoint) : Event → Option ℕ
  | .read id _ | .peek id | .write id _ | .shutdown id | .drop id => some id
  | a => (List.range s.streams.length).find? fun i => (s.fed a i).isSome

/-- The key of the command that is next in the channel. -/
def target (s : Endpoint) : Option ConnKey :=
  s.commands.head?.bind Command.target

/-- An endpoint with the issuers of the commands in its channel; a dial has
none. -/
structure Signed where
  endpoint : Endpoint
  issuers : List (Option ℕ)

namespace Signed

/-- A socket that has just been bound. -/
def start : Signed := ⟨Endpoint.start, []⟩

/-- The issuers that are left once the command of an event was taken. -/
def kept (w : Signed) : Event → List (Option ℕ)
  | .command _ _ => w.issuers.tail
  | _ => w.issuers

/-- An event; the commands it puts into the channel are those of the stream
that acts. -/
def next (w : Signed) (a : Event) : Signed where
  endpoint := w.endpoint.next a
  issuers := w.kept a ++ List.replicate
    ((w.endpoint.next a).commands.length - (w.endpoint.pending a).length)
    (w.endpoint.actor a)

/-- The endpoint with the issuers as a system of events. -/
def signing : System Signed Event :=
  ⟨next, fun w a => w.endpoint.may a = true⟩

instance (w : Signed) (a : Event) : Decidable (signing.may w a) :=
  inferInstanceAs (Decidable (w.endpoint.may a = true))

/-- The stream that issued the next command. -/
def issuer (w : Signed) : Option ℕ := w.issuers.head?.join

/-- If a command is taken from the channel, the connection of every stream
but its issuer stays, in the state it was in, with as many bytes to send and
its gate as open as before. -/
def Isolated (w : Signed) (a : Event) : Prop :=
  a.isCommand = true → ∀ i ∈ w.issuer, ∀ j v e, j ≠ i →
    w.endpoint.view j = some v → v.entry = some e →
    ∃ v' e', (w.next a).endpoint.view j = some v' ∧ v'.entry = some e' ∧
      e'.conn.state = e.conn.state ∧
      e'.conn.outstandingSendBytes = e.conn.outstandingSendBytes ∧
      v'.stream.gate.closed = v.stream.gate.closed

/-- If a command is taken from the channel, the connection under its key, if
there is one, is that of its issuer or has already begun to close. -/
def Addressed (w : Signed) (a : Event) : Prop :=
  a.isCommand = true → ∀ i ∈ w.issuer, ∀ key ∈ w.endpoint.target,
    ∀ e ∈ w.endpoint.conns.lookup key,
      e.stream = i ∨ e.conn.state = .finSent

instance (w : Signed) (a : Event) : Decidable (w.Addressed a) :=
  inferInstanceAs (Decidable (_ → ∀ i ∈ w.issuer, _))

/-- What holds between the events of a run whose commands reach their own
connections. -/
structure Good (w : Signed) : Prop where
  keyed : w.endpoint.Keyed
  inv : w.endpoint.Inv
  signed : List.Forall₂ (fun c issuer =>
    (Command.target c).isSome → Option.isSome issuer)
    w.endpoint.commands w.issuers
  known : ∀ i, some i ∈ w.issuers → i < w.endpoint.streams.length
  blocks : ∀ key data writer,
    .send key data writer ∈ w.endpoint.commands → data ≠ []
  closing : ∀ i v e, w.endpoint.view i = some v → v.entry = some e →
    e.conn.state = .finSent → v.stream.gate.closed = true
  dialing : ∀ i v e, w.endpoint.view i = some v → v.entry = some e →
    e.conn.state = .synSent → (∃ number, v.stream.holder = .dial number) ∧
      v.stream.gate.closed = false ∧ some i ∉ w.issuers

end Signed

/-! ## What an event does to one stream -/

variable {s : Endpoint} {a : Event} {i now : ℕ} {v : View} {e e' : Entry}
  {input : Input}

/-- A connection that is dialing after an event was dialing before, and its
stream has not moved. -/
theorem localNext_synSent (hinv : s.Inv) (hmay : s.may a = true)
    (hv : s.view i = some v) (he : v.entry = some e)
    (he' : (s.localNext i v a).entry = some e')
    (hstate : e'.conn.state = .synSent) :
    e.conn.state = .synSent ∧ ((∃ number, v.stream.holder = .dial number) →
        (s.localNext i v a).stream.holder = v.stream.holder) := by
  have hdrop {number : ℕ} (hholder : v.stream.holder = .dial number) :
      a ≠ .drop i := by
    rintro rfl
    simp [may, atApplication, (view_eq_some.mp hv).1, hholder] at hmay
  cases hinput : s.inputOf v.stream.key a with
  | none =>
    have hsame := (localNext_of_not_fed i (.inl hinput)).1
    rw [he', he, some.injEq] at hsame
    refine ⟨hsame ▸ hstate, ?_⟩
    rintro ⟨number, hholder⟩
    exact localNext_holder_of_not_fed (.inl hinput) (hdrop hholder)
  | some r =>
    obtain ⟨input, now⟩ := r
    obtain ⟨hlive, hfed, -⟩ := localNext_fed hinv hv he hinput he'
    rw [hstate] at hfed
    constructor
    · rcases feed_state e.conn now input with
        hsame | ⟨hsyn, -⟩ | hclosed | ⟨-, hfin⟩
      · rw [← hsame, ← hfed]
      · exact hsyn
      · cases hlive.symm.trans hclosed
      · cases hfed.trans hfin
    · rintro ⟨number, hholder⟩
      have htouch := touch_holder s (hdrop hholder) v.stream
      have hact : (v.act (s.touch i a)).entry = some e := he
      have hentry := (localNext_eq s i v a).1
      rw [he', hinput] at hentry
      dsimp only [driveWith] at hentry
      rw [drive_of_some hact] at hentry
      have hsilent := Entry.drive_silent hentry.symm (by simp [hstate])
      have hdriven : ((v.act (s.touch i a)).drive input s.waiting
          now).stream.holder = v.stream.holder := by
        rw [drive_of_some hact]
        exact hsilent.trans htouch
      rw [localNext, hinput]
      dsimp only [driveWith]
      split_ifs
      · -- only a stream held for `accept` surfaces
        rcases surface_cases ((v.act (s.touch i a)).drive input
          s.waiting now) s.listening with heq | ⟨haccept, -⟩
        · rw [heq, hdriven]
        · rw [hdriven, hholder] at haccept
          cases haccept
      · exact hdriven

/-! ## The stream that acts -/

theorem actor_eq (s : Endpoint) (a : Event) :
    s.actor a = a.user.or ((range s.streams.length).find? fun i =>
      (s.fed a i).isSome) := by
  cases a <;> rfl

theorem atApplication_of_user (hmay : s.may a = true)
    (h : a.user = some i) : s.atApplication i = true := by
  cases a <;> cases h <;> exact hmay

variable {key : ConnKey}

theorem inputOf_of_user (h : a.user.isSome = true) :
    s.inputOf key a = none := by
  cases a <;> first | rfl | cases h

/-- The stream that acts is used by the application, or its connection gets
an input. -/
theorem actor_cases (h : s.actor a = some i) :
    a.user = some i ∨ ∃ r, s.fed a i = some r := by
  rw [actor_eq] at h
  cases huser : a.user with
  | some id =>
    rw [huser, some_or, some.injEq] at h
    rw [h]
    exact .inl rfl
  | none =>
    rw [huser, none_or] at h
    have hsome := find?_some h
    exact .inr (isSome_iff_exists.mp hsome)

theorem actor_lt (hmay : s.may a = true) (h : s.actor a = some i) :
    i < s.streams.length := by
  rcases actor_cases h with huser | ⟨⟨e, input, now⟩, hfed⟩
  · have hat := atApplication_of_user hmay huser
    by_contra hge
    rw [atApplication, getElem?_eq_none (not_lt.mp hge)] at hat
    cases hat
  · exact fed_lt hfed

/-- A stream that an event has dropped is used by the application, or its
connection has got an input. -/
theorem user_or_fed_of_dropped (hv : s.view i = some v)
    (hheld : v.stream.holder ≠ .gone)
    (hgone : (s.localNext i v a).stream.holder = .gone) :
    a.user = some i ∨ ∃ r, s.fed a i = some r := by
  by_cases hdrop : a = .drop i
  · rw [hdrop]
    exact .inl rfl
  · right
    rcases not_fed_or_fed s v a with hnot | ⟨e, input, now, he, hinput⟩
    · rw [localNext_holder_of_not_fed hnot hdrop] at hgone
      exact absurd hgone hheld
    · exact ⟨_, fed_eq_some.mpr ⟨v, hv, he, hinput⟩⟩

theorem actor_isSome {new : List Command} (h : s.Issued a new) {c : Command}
    (hc : c ∈ new) (htarget : c.target.isSome) : (s.actor a).isSome := by
  have huser (h : a.user.isSome = true) : (s.actor a).isSome := by
    rw [actor_eq, isSome_or, h]
    rfl
  rcases h with ⟨id, buf, st, rfl, -⟩ | ⟨-, hall⟩
  · rfl
  · rcases hall c hc with ⟨peer, dial, -, rfl⟩ |
      ⟨-, hused | ⟨i, v, hv, hheld, hgone⟩⟩
    · cases htarget
    · exact huser hused
    · rcases user_or_fed_of_dropped hv hheld hgone with hused | ⟨r, hfed⟩
      · exact huser (by rw [hused]; rfl)
      · rw [actor_eq, isSome_or, Bool.or_eq_true]
        right
        rw [find?_isSome]
        exact ⟨i, mem_range.mpr (view_lt hv), by rw [hfed]; rfl⟩

theorem inputOf_target (ha : a.isCommand = true) (h : s.target = some key) :
    ∃ now, (∃ data writer, .send key data writer ∈ s.commands ∧
        s.inputOf key a = some (.block data, now)) ∨
      s.inputOf key a = some (.close, now) := by
  obtain ⟨now, recvId, rfl⟩ := isCommand_iff.mp ha
  refine ⟨now, ?_⟩
  obtain ⟨c, hhead, hc⟩ := bind_eq_some_iff.mp h
  obtain ⟨rest, hcommands⟩ := head?_eq_some_iff.mp hhead
  cases c with
  | connect peer dial => cases hc
  | send key' data writer =>
    cases hc
    refine .inl ⟨data, writer, ?_, ?_⟩
    · rw [hcommands]
      exact mem_cons_self
    · rw [inputOf, hcommands]
      exact if_pos rfl
  | close key' =>
    cases hc
    rw [inputOf, hcommands]
    exact .inr (if_pos rfl)

theorem target_of_inputOf (ha : a.isCommand = true)
    (h : s.inputOf key a = some (input, now)) :
    s.target = some key ∧ ((∃ data, input = .block data) ∨ input = .close) := by
  rcases inputOf_eq_some h with ⟨p, peer, initSeq, rfl, -⟩ |
    ⟨recvId, data, writer, rest, -, hcommands, rfl⟩ |
    ⟨recvId, rest, -, hcommands, rfl⟩ | ⟨rfl, -⟩
  · cases ha
  · rw [target, hcommands]
    exact ⟨rfl, .inl ⟨data, rfl⟩⟩
  · rw [target, hcommands]
    exact ⟨rfl, .inr rfl⟩
  · cases ha

theorem feed_of_finSent {c : Connection} (h : c.state = .finSent)
    (hinput : (∃ data, input = .block data) ∨ input = .close) (now : ℕ) :
    c.feed now input = c := by
  rcases hinput with ⟨data, rfl⟩ | rfl
  · rw [feed, enqueueSendBlock_of_finSent h]
  · simp [feed, close, h]

namespace Signed

variable {w : Signed}

/-! ## One command -/

theorem Addressed.isolated (h : w.Good) (hmay : w.endpoint.may a = true)
    (haddressed : w.Addressed a) : w.Isolated a := by
  intro hcommand i hissuer j v e hne hv he
  have hview := view_next h.keyed hmay hv
  obtain ⟨hlookup, hid⟩ := (view_entry_eq_some hv).mp he
  cases hinput : w.endpoint.inputOf v.stream.key a with
  | none =>
    have hentry := (localNext_of_not_fed j (.inl hinput)).1
    exact ⟨_, e, hview, hentry.trans he, rfl, rfl,
      localNext_closed_of_input_none hinput⟩
  | some r =>
    obtain ⟨input, t⟩ := r
    obtain ⟨htarget, hkind⟩ := target_of_inputOf hcommand hinput
    have hfin : e.conn.state = .finSent := by
      rcases haddressed hcommand i hissuer _ htarget e hlookup with
        hown | hfin
      · exact absurd (hid.symm.trans hown) hne
      · exact hfin
    have hfeed := feed_of_finSent hfin hkind t
    have hlive := (h.inv.good_of_view hv he).live
    rcases localNext_fed_cases h.inv hv he hinput with
      ⟨hover, -⟩ | ⟨-, -, buf, conn, -, -, he'⟩
    · rw [hfeed, hlive] at hover
      cases hover
    · obtain ⟨-, hstate, hout, hclosed⟩ :=
        localNext_fed h.inv hv he hinput he'
      rw [hfeed] at hstate hout
      refine ⟨_, _, hview, he', hstate, hout, ?_⟩
      rw [hclosed, h.closing j v e hv he hfin]
      rfl

theorem Isolated.addressed (h : w.Good) (hmay : w.endpoint.may a = true)
    (hisolated : w.Isolated a) : w.Addressed a := by
  intro hcommand i hissuer key htarget e hlookup
  by_contra hnot
  rw [not_or] at hnot
  obtain ⟨hne, hnotFin⟩ := hnot
  obtain ⟨v, hv, he, hkey⟩ := h.keyed.view_of_lookup hlookup
  have hlive := (h.inv.good_of_view hv he).live
  obtain ⟨v', e', hv', he', hstate, hout, hclosed⟩ :=
    hisolated hcommand i hissuer e.stream v e hne hv he
  have hview : (w.next a).endpoint.view e.stream = _ :=
    view_next h.keyed hmay hv
  cases hv'.symm.trans hview
  obtain ⟨now, ⟨data, writer, hmem, hinput⟩ | hinput⟩ :=
    inputOf_target hcommand htarget
  · -- the block enters the queue of the other connection
    rw [← hkey] at hinput
    have hfed := (localNext_fed h.inv hv he hinput he').2.2.1
    have hdata := h.blocks _ data writer hmem
    have hpos := length_pos_of_ne_nil hdata
    rw [hout, feed, enqueueSendBlock_of_live hdata hnotFin hlive] at hfed
    simp only [outstandingSendBytes] at hfed
    omega
  · rw [← hkey] at hinput
    obtain ⟨-, hfed, -, hshut⟩ := localNext_fed h.inv hv he hinput he'
    by_cases hsyn : e.conn.state = .synSent
    · -- the gate of a dialing connection is open
      rw [hclosed, (h.dialing _ v e hv he hsyn).2.1] at hshut
      simp at hshut
    · have hopen := isClosed_eq_false.mp hlive
      rw [hstate, feed, close,
        if_neg (by simp [hnotFin, hopen.1, hopen.2, hsyn])] at hfed
      exact hnotFin hfed

/-! ## Between events -/

theorem Good.issuer_isSome (h : w.Good) {key : ConnKey}
    (htarget : w.endpoint.target = some key) :
    ∃ i, w.issuer = some i ∧ some i ∈ w.issuers := by
  have hsigned := h.signed
  unfold target at htarget
  unfold issuer
  cases hcommands : w.endpoint.commands with
  | nil =>
    rw [hcommands] at htarget
    cases htarget
  | cons c rest =>
    rw [hcommands] at htarget hsigned
    cases hissuers : w.issuers with
    | nil =>
      rw [hissuers] at hsigned
      cases hsigned
    | cons o others =>
      rw [hissuers] at hsigned
      have htarget' : c.target = some key := htarget
      have hsome := (forall₂_cons.mp hsigned).1 (by rw [htarget']; rfl)
      obtain ⟨i, rfl⟩ := isSome_iff_exists.mp hsome
      exact ⟨i, rfl, mem_cons_self⟩

theorem mem_issuers_next {i : ℕ} (hi : some i ∈ (w.next a).issuers) :
    some i ∈ w.issuers ∨ w.endpoint.actor a = some i ∧
      (w.endpoint.next a).commands.length ≠ (w.endpoint.pending a).length := by
  rcases mem_append.mp hi with hold | hnew
  · left
    unfold kept at hold
    split at hold
    · exact mem_of_mem_tail hold
    · exact hold
  · right
    rw [mem_replicate] at hnew
    exact ⟨hnew.2.symm, by omega⟩

theorem kept_of_not_command (h : ¬ a.isCommand = true) :
    w.kept a = w.issuers := by
  cases a <;> first | rfl | exact absurd rfl h

section

variable (h : w.Good) (hmay : w.endpoint.may a = true)

include h hmay

theorem Good.signed_next :
    List.Forall₂ (fun c issuer =>
      (Command.target c).isSome → Option.isSome issuer)
      (w.next a).endpoint.commands (w.next a).issuers := by
  obtain ⟨new, hnew, hissued⟩ := next_commands h.keyed hmay
  have hcount : (w.endpoint.next a).commands.length -
      (w.endpoint.pending a).length = new.length := by
    rw [hnew, length_append]
    omega
  have hkept : List.Forall₂ (fun c issuer =>
      (Command.target c).isSome → Option.isSome issuer)
      (w.endpoint.pending a) (w.kept a) := by
    by_cases ha : a.isCommand = true
    · obtain ⟨now, recvId, rfl⟩ := isCommand_iff.mp ha
      have htail := forall₂_drop 1 h.signed
      rw [drop_one, drop_one] at htail
      exact htail
    · rw [pending_of_not_command ha, kept_of_not_command ha]
      exact h.signed
  change List.Forall₂ _ (w.endpoint.next a).commands _
  rw [next, hcount, hnew]
  refine rel_append hkept ?_
  rw [forall₂_iff_get]
  refine ⟨length_replicate.symm, fun k hk hk' htarget => ?_⟩
  rw [get_eq_getElem, getElem_replicate]
  exact actor_isSome hissued (get_mem new ⟨k, hk⟩) htarget

theorem Good.blocks_next {key : ConnKey} {data : Bytes} {writer : ℕ}
    (hmem : .send key data writer ∈ (w.next a).endpoint.commands) :
    data ≠ [] := by
  rcases send_of_next h.keyed hmay hmem with hold | ⟨hdata, -⟩
  · exact h.blocks key data writer hold
  · exact hdata

theorem Good.closing_next {j : ℕ} {v' : View} {e' : Entry}
    (hv' : (w.next a).endpoint.view j = some v') (he' : v'.entry = some e')
    (hfin : e'.conn.state = .finSent) : v'.stream.gate.closed = true := by
  rcases view_next_cases h.keyed hmay hv' with ⟨v, hv, rfl⟩ | ⟨-, hborn⟩
  · obtain ⟨e, he⟩ := entry_of_localNext he'
    cases hinput : w.endpoint.inputOf v.stream.key a with
    | none =>
      have hsame := (localNext_of_not_fed j (.inl hinput)).1
      rw [he', he, some.injEq] at hsame
      rw [localNext_closed_of_input_none hinput]
      exact h.closing j v e hv he (hsame ▸ hfin)
    | some r =>
      obtain ⟨input, now⟩ := r
      obtain ⟨hlive, hstate, -, hclosed⟩ :=
        localNext_fed h.inv hv he hinput he'
      rw [hfin] at hstate
      rw [hclosed]
      rcases feed_state e.conn now input with
        hsame | ⟨-, hconn⟩ | hover | ⟨hclose, -⟩
      · rw [h.closing j v e hv he (hsame ▸ hstate.symm)]
        rfl
      · rw [hconn] at hstate
        cases hstate
      · cases hlive.symm.trans hover
      · simp [hclose]
  · cases hborn with
    | dial peer recvId now number =>
      cases he'
      cases hfin
    | inbound peer diff hnew =>
      cases he'
      rw [(newReceiverWithSeq_sound hnew).2.1] at hfin
      cases hfin

end

theorem Good.not_close (h : w.Good) (haddressed : w.Addressed a) {j t : ℕ}
    {v : View} {e : Entry} (hv : w.endpoint.view j = some v)
    (he : v.entry = some e) (hsyn : e.conn.state = .synSent) :
    w.endpoint.inputOf v.stream.key a ≠ some (.close, t) := by
  intro hinput
  obtain ⟨hlookup, hid⟩ := (view_entry_eq_some hv).mp he
  have hunissued := (h.dialing j v e hv he hsyn).2.2
  have hcommand : a.isCommand = true := by
    rcases inputOf_eq_some hinput with ⟨p, peer, initSeq, -, hne, -⟩ |
      ⟨recvId, data, writer, rest, -, -, hne⟩ | ⟨recvId, rest, rfl, -⟩ |
      ⟨-, hne⟩
    · cases hne
    · cases hne
    · rfl
    · cases hne
  obtain ⟨htarget, -⟩ := target_of_inputOf hcommand hinput
  obtain ⟨i, hissuer, hmem⟩ := h.issuer_isSome htarget
  rcases haddressed hcommand i hissuer _ htarget e hlookup with hown | hfin
  · rw [← hown, hid] at hmem
    exact hunissued hmem
  · cases hsyn.symm.trans hfin

/-- No command of a dialing connection is in the channel, so none closes its
gate. -/
theorem Good.dialing_next (h : w.Good) (hmay : w.endpoint.may a = true)
    (haddressed : w.Addressed a) {j : ℕ} {v' : View} {e' : Entry}
    (hv' : (w.next a).endpoint.view j = some v')
    (he' : v'.entry = some e') (hsyn : e'.conn.state = .synSent) :
    (∃ number, v'.stream.holder = .dial number) ∧
      v'.stream.gate.closed = false ∧ some j ∉ (w.next a).issuers := by
  rcases view_next_cases h.keyed hmay hv' with ⟨v, hv, rfl⟩ | ⟨hj, hborn⟩
  · obtain ⟨e, he⟩ := entry_of_localNext he'
    obtain ⟨hbefore, hstays⟩ :=
      localNext_synSent h.inv hmay hv he he' hsyn
    obtain ⟨⟨number, hholder⟩, hopen, hunissued⟩ :=
      h.dialing j v e hv he hbefore
    refine ⟨⟨number, (hstays ⟨number, hholder⟩).trans hholder⟩, ?_, ?_⟩
    · cases hinput : w.endpoint.inputOf v.stream.key a with
      | none => rw [localNext_closed_of_input_none hinput, hopen]
      | some r =>
        obtain ⟨input, now⟩ := r
        rw [(localNext_fed h.inv hv he hinput he').2.2.2, hopen,
          Bool.false_or, decide_eq_false_iff_not]
        rintro rfl
        exact h.not_close haddressed hv he hbefore hinput
    · intro hissued
      rcases mem_issuers_next hissued with hold | ⟨hactor, hmore⟩
      · exact hunissued hold
      · obtain ⟨new, hnew, hissued⟩ := next_commands h.keyed hmay
        obtain ⟨c, hc⟩ : ∃ c, c ∈ new := by
          refine exists_mem_of_ne_nil new fun hnil => hmore ?_
          rw [hnew, hnil, append_nil]
        have hunused : a.user ≠ some j := by
          intro huser
          have happ := atApplication_of_user hmay huser
          simp [atApplication, (view_eq_some.mp hv).1, hholder] at happ
        obtain ⟨⟨e₂, input, t⟩, hfed⟩ := (actor_cases hactor).resolve_left
          hunused
        obtain ⟨v₂, -, -, hinput⟩ := fed_eq_some.mp hfed
        have hused : ¬ a.user.isSome = true := fun huser => by
          rw [inputOf_of_user huser] at hinput
          cases hinput
        rcases hissued with ⟨id, buf, st, rfl, -⟩ | ⟨-, hall⟩
        · exact hused rfl
        · rcases hall c hc with ⟨peer, dial, rfl, -⟩ |
            ⟨-, huser | ⟨k, v₃, hv₃, hheld, hgone⟩⟩
          · cases hinput
          · exact hused huser
          · -- the stream that was dropped is the one that acts
            rcases user_or_fed_of_dropped hv₃ hheld hgone with
              huser | ⟨r, hfed₃⟩
            · exact hused (by rw [huser]; rfl)
            · obtain rfl := fed_unique hfed hfed₃
              cases hv.symm.trans hv₃
              rw [hstays ⟨number, hholder⟩, hholder] at hgone
              cases hgone
  · have hissued : some j ∉ (w.next a).issuers := by
      intro hissued
      have hlt : j < w.endpoint.streams.length := by
        rcases mem_issuers_next hissued with hold | ⟨hactor, -⟩
        · exact h.known j hold
        · exact actor_lt hmay hactor
      omega
    cases hborn with
    | dial peer recvId now number => exact ⟨⟨number, rfl⟩, rfl, hissued⟩
    | inbound peer diff hnew =>
      cases he'
      rw [(newReceiverWithSeq_sound hnew).2.1] at hsyn
      cases hsyn

theorem Good.next (h : w.Good) (hmay : w.endpoint.may a = true)
    (haddressed : w.Addressed a) : (w.next a).Good where
  keyed := h.keyed.next hmay
  inv := h.inv.next h.keyed hmay
  signed := h.signed_next hmay
  known i hi := by
    refine lt_of_lt_of_le ?_ (streams_length_next h.keyed hmay)
    rcases mem_issuers_next hi with hold | ⟨hactor, -⟩
    · exact h.known i hold
    · exact actor_lt hmay hactor
  blocks _ _ _ hmem := h.blocks_next hmay hmem
  closing _ _ _ hv' he' hfin := h.closing_next hmay hv' he' hfin
  dialing _ _ _ hv' he' hsyn := h.dialing_next hmay haddressed hv' he' hsyn

theorem good_start : start.Good where
  keyed := keyed_start
  inv := inv_start
  signed := .nil
  known i hi := by cases hi
  blocks key data writer h := by cases h
  closing i v e hv := by cases hv
  dialing i v e hv := by cases hv

/-! ## Runs -/

/-- In every run of an endpoint, each command leaves the connections of other
streams alone exactly if each one finds under its key, if anything, the
connection of its own stream or one that has begun to close. -/
theorem isolated_iff_addressed (events : List Event)
    (h : signing.Allowed start events) :
    signing.Along Isolated start events ↔
      signing.Along Addressed start events :=
  System.along_iff_along (I := Good) (fun _ _ hgood hmay hisolated =>
      hgood.next hmay (hisolated.addressed hgood hmay))
    (fun _ _ hgood hmay => ⟨fun hisolated => hisolated.addressed hgood hmay,
      fun haddressed => haddressed.isolated hgood hmay⟩) good_start h

/-- A peer connects and confirms, resets the connection and connects again
with the same identifier, while the application holds the first stream. -/
def reconnection : List Event :=
  [.datagram (Packet.new .syn 7 1 0) somePeer 0 100,
    .datagram (Packet.new .state 8 2 99) somePeer 0 0,
    .datagram (Packet.new .reset 8 2 99) somePeer 0 0,
    .datagram (Packet.new .syn 7 1 0) somePeer 0 200,
    .datagram (Packet.new .state 8 2 199) somePeer 0 0]

/-- The application drops the first stream. -/
def dropped : Signed := signing.after start (reconnection ++ [.drop 0])

def droppedRun : List Event := (reconnection ++ [.drop 0]) ++ [.command 0 0]

/-- The Close of the first stream closes the connection of the second, which
is then in `FinSent` with its gate closed. -/
theorem stale_close_hits_next : signing.Allowed start droppedRun ∧
      ¬ signing.Along Isolated start droppedRun ∧
      (signing.after start droppedRun).endpoint.streams.map
        (fun st => (st.holder, st.gate.closed)) =
        [(.gone, true), (.application, true)] := by
  refine ⟨by decide +kernel, fun hisolated => ?_, by decide +kernel⟩
  have hlast : dropped.Isolated (.command 0 0) :=
    (System.along_append.mp hisolated).2
  have hbefore : (dropped.endpoint.entryOf 1).map (fun e => e.conn.state) =
      some .connected := by decide +kernel
  have hafter : ((dropped.next (.command 0 0)).endpoint.entryOf 1).map
      (fun e => e.conn.state) = some .finSent := by decide +kernel
  obtain ⟨e, he, hconnected⟩ := map_eq_some_iff.mp hbefore
  obtain ⟨v, hv, hentry⟩ := entryOf_eq_some.mp he
  obtain ⟨v', e', hv', he', hstate, -⟩ :=
    hlast rfl 0 (by decide +kernel) 1 v e (by decide) hv hentry
  rw [entryOf_eq_some.mpr ⟨v', hv', he'⟩, map_some, hstate,
    hconnected] at hafter
  cases hafter

/-- The application drops its only stream. -/
theorem isolated_iff_addressed_single : signing.Along Isolated start
      [.datagram (Packet.new .syn 7 1 0) somePeer 0 100,
        .datagram (Packet.new .state 8 2 99) somePeer 0 0, .drop 0,
        .command 0 0] :=
  (isolated_iff_addressed _ (by decide +kernel)).mpr (by decide +kernel)

end Signed

end Endpoint

end RustyTorrent.Utp
