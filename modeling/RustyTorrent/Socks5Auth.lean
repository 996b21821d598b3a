import RustyTorrent.Socks5

/-!
# Authentication in the SOCKS5 handshake

A hop with credentials offers USER/PASS only.  The handshake then goes as it
should with every proxy but one: a proxy that selects NO_AUTH, a method it was
not offered, is believed, and the CONNECT request goes out without the
credentials (`connectChain_authenticated_iff`, `downgraded_hop_accepted`).
-/

namespace RustyTorrent.Socks5

open Program List Act ByteStream

/-! ## What the handshake should guarantee -/

/-- The conversation that authenticates a hop: USER/PASS is offered and
selected, the credentials are sent and accepted. -/
def authenticated (creds : Credentials) : List (Act UInt8) :=
  [.wrote [verSocks5, 1, methodUserpass],
   .received [verSocks5, methodUserpass],
   .wrote (userpassRequest creds),
   .received [verUserpass, 0x00]]

/-- With credentials, CONNECT is written and success is reported only after
the authenticating conversation; a method that was not offered ends the
handshake with an error. -/
structure HopRun.Authenticated (r : HopRun) : Prop where
  connect : ∀ creds, r.hop.credentials = some creds → ∀ before after,
    r.acts = before ++ .wrote (buildConnectRequest r.target) :: after →
    before = authenticated creds
  success : ∀ creds, r.hop.credentials = some creds → r.result = .ok () →
    ∃ after, r.acts = authenticated creds ++
      .wrote (buildConnectRequest r.target) :: after
  offered : ∀ ver method rest,
    r.acts = .wrote (greeting r.hop) :: .received [ver, method] :: rest →
    method ∉ offeredMethods r.hop → ∃ e, r.result = .error e

/-- The same for every handshake of a chain; and a chain that is reported as
connected has completed the handshake with each of its proxies. -/
structure ChainRun.Authenticated (chain : List ProxyConfig) (c : ChainRun) :
    Prop where
  each : ∀ r ∈ c.hops, r.Authenticated
  whole : ∀ stream, c.result = .ok stream →
    c.hops.map HopRun.hop = chain ∧ ∀ r ∈ c.hops, r.result = .ok ()

/-- A hop with credentials whose proxy, once greeted, selects NO_AUTH. -/
def HopRun.Downgraded (r : HopRun) : Prop :=
  r.hop.credentials.isSome ∧ r.found.nextFault = none ∧
    [verSocks5, methodNoAuth] <+: r.found.symbols

/-! ## The steps of the handshake -/

section Steps

variable {proxy : ProxyConfig} {target : SocketAddr} {w : Connection}

theorem length_buildConnectRequest (target : SocketAddr) :
    10 ≤ (buildConnectRequest target).length := by
  unfold buildConnectRequest
  cases target.ip with
  | v4 | v6 => simp [length_toBytesBe]

theorem greeting_ne_connect : greeting proxy ≠ buildConnectRequest target := by
  intro heq
  have hlen := length_buildConnectRequest target
  rw [← heq] at hlen
  unfold greeting offeredMethods at hlen
  split_ifs at hlen <;> simp at hlen

theorem userpassRequest_ne_connect (creds : Credentials) (target : SocketAddr) :
    userpassRequest creds ≠ buildConnectRequest target := by
  intro heq
  have hhead : verUserpass = verSocks5 := (cons.inj heq).1
  exact absurd hhead (by decide)

theorem readExact_two {left : List (List UInt8)} {b : Bytes}
    (h : readExact 2 w.incoming = some (b, left)) :
    ∃ x y, b = [x, y] ∧ [x, y] <+: w.symbols := by
  obtain ⟨hlen, hsplit⟩ := readExact_eq_some h
  obtain ⟨x, y, rfl⟩ := length_eq_two.mp hlen
  exact ⟨x, y, rfl, left.flatten, hsplit.symm⟩

theorem drainBindAddrPort_silent (atyp : UInt8) :
    (drainBindAddrPort atyp).Silent := by
  unfold drainBindAddrPort
  split_ifs
  · exact fun _ => trivial
  · exact fun _ => trivial
  · exact fun _ _ => trivial
  · trivial

theorem requestConnect_acts (target : SocketAddr) (w : Connection) :
    ∃ rest, ((requestConnect target).run w).acts =
        .wrote (buildConnectRequest target) :: rest ∧
      ∀ b, wrote b ∉ rest := by
  unfold requestConnect
  rw [writeAll_bind, readExact_bind]
  cases hw : w.nextFault with
  | some e => exact ⟨[], by rw [run_write_some hw], by simp⟩
  | none =>
    rw [run_write_none hw]
    refine ⟨_, rfl, Silent.not_wrote ?_ _⟩
    intro head
    dsimp only
    split_ifs
    · trivial
    · trivial
    · exact drainBindAddrPort_silent _

/-- A message and a reply of two bytes: the connection fails before the reply
is there, or the rest goes on with it. -/
theorem exchange_cases {α : Type} (msg : Bytes) (next : Bytes → Session α)
    (w : Connection) :
    ((∃ e, ((write msg (.read 2 next)).run w).result = .error e) ∧
      ((write msg (.read 2 next)).run w).acts = [.wrote msg]) ∨
    ∃ x y left, w.nextFault = none ∧ [x, y] <+: w.symbols ∧
      (write msg (.read 2 next)).run w =
        ((next [x, y]).run (w.afterWrite.afterRead left)).after
          [.wrote msg, .received [x, y]] := by
  cases hw : w.nextFault with
  | some e =>
    rw [run_write_some hw]
    exact .inl ⟨⟨e, rfl⟩, rfl⟩
  | none =>
    rw [run_write_none hw]
    cases hr : readExact 2 w.afterWrite.incoming with
    | none =>
      rw [run_read_none hr]
      exact .inl ⟨⟨_, rfl⟩, rfl⟩
    | some r =>
      obtain ⟨b, left⟩ := r
      obtain ⟨x, y, rfl, hreply⟩ := readExact_two hr
      rw [run_read_some hr]
      exact .inr ⟨x, y, left, rfl, hreply, rfl⟩

theorem doUserpassAuth_cases (creds : Credentials) (w : Connection) :
    ((∃ e, ((doUserpassAuth creds).run w).result = .error e) ∧
        ∀ target, wrote (buildConnectRequest target) ∉
          ((doUserpassAuth creds).run w).acts) ∨
    (((doUserpassAuth creds).run w).result = .ok () ∧
      ((doUserpassAuth creds).run w).acts =
        [.wrote (userpassRequest creds), .received [verUserpass, 0x00]]) := by
  unfold doUserpassAuth
  split_ifs with hlong
  · exact .inl ⟨⟨_, rfl⟩, by simp [run]⟩
  · rw [writeAll_bind, readExact_bind]
    have hne (target : SocketAddr) :
        ¬ buildConnectRequest target = userpassRequest creds :=
      (userpassRequest_ne_connect creds target).symm
    rcases exchange_cases (userpassRequest creds) _ w with
      ⟨hfail, hacts⟩ | ⟨x, y, left, -, -, hrun⟩
    · refine .inl ⟨hfail, fun target => ?_⟩
      rw [hacts]
      simp [hne]
    · rw [hrun]
      simp only [getD_cons_zero, getD_cons_succ]
      split_ifs with hver hstatus
      · exact .inl ⟨⟨_, rfl⟩, by simp [run, Trace.after, hne]⟩
      · exact .inl ⟨⟨_, rfl⟩, by simp [run, Trace.after, hne]⟩
      · rw [not_not] at hver hstatus
        subst hver hstatus
        exact .inr ⟨rfl, rfl⟩

theorem negotiate_cases (proxy : ProxyConfig) (w : Connection) :
    ((∃ e, ((negotiate proxy).run w).result = .error e) ∧
        ∀ target, wrote (buildConnectRequest target) ∉
          ((negotiate proxy).run w).acts) ∨
    (((negotiate proxy).run w).result = .ok () ∧ w.nextFault = none ∧
        [verSocks5, methodNoAuth] <+: w.symbols ∧
        ((negotiate proxy).run w).acts = [.wrote (greeting proxy),
          .received [verSocks5, methodNoAuth]]) ∨
    ∃ creds, proxy.credentials = some creds ∧
      ((negotiate proxy).run w).result = .ok () ∧
      ((negotiate proxy).run w).acts = authenticated creds := by
  unfold negotiate
  rw [writeAll_bind, readExact_bind]
  have hne (target : SocketAddr) :
      ¬ buildConnectRequest target = greeting proxy :=
    greeting_ne_connect.symm
  rcases exchange_cases (greeting proxy) _ w with
    ⟨hfail, hacts⟩ | ⟨x, y, left, hw, hreply, hrun⟩
  · refine .inl ⟨hfail, fun target => ?_⟩
    rw [hacts]
    simp [hne]
  rw [hrun]
  simp only [getD_cons_zero, getD_cons_succ]
  split_ifs with hver
  · exact .inl ⟨⟨_, rfl⟩, by simp [run, Trace.after, hne]⟩
  · rw [not_not] at hver
    subst hver
    unfold takeMethod
    split_ifs with hnoAuth huserpass hnone
    · subst hnoAuth
      exact .inr (.inl ⟨rfl, hw, hreply, rfl⟩)
    · subst huserpass
      split
      next => exact .inl ⟨⟨_, rfl⟩, by simp [run, Trace.after, hne]⟩
      next creds hcreds =>
        rcases doUserpassAuth_cases creds (w.afterWrite.afterRead left) with
          ⟨⟨e, he⟩, hacts⟩ | h
        · refine .inl ⟨⟨e, he⟩, fun target => ?_⟩
          simpa [Trace.after, hne] using hacts target
        · refine .inr (.inr ⟨creds, hcreds, h.1, ?_⟩)
          have hgreeting : greeting proxy = [verSocks5, 1, methodUserpass] := by
            simp [greeting, offeredMethods, hcreds]
          simp [Trace.after, h.2, authenticated, hgreeting]
    · exact .inl ⟨⟨_, rfl⟩, by simp [run, Trace.after, hne]⟩
    · exact .inl ⟨⟨_, rfl⟩, by simp [run, Trace.after, hne]⟩

/-- The negotiation is over before CONNECT is written, and CONNECT is written
once. -/
theorem doHandshakeOnStream_acts (target : SocketAddr)
    (hok : ((negotiate proxy).run w).result = .ok ()) :
    ∃ rest, ((doHandshakeOnStream proxy target).run w).acts =
        ((negotiate proxy).run w).acts ++
          .wrote (buildConnectRequest target) :: rest ∧
      ∀ b, wrote b ∉ rest := by
  obtain ⟨rest, hacts, hrest⟩ :=
    requestConnect_acts target ((negotiate proxy).run w).wire
  refine ⟨rest, ?_, hrest⟩
  rw [doHandshakeOnStream, run_bind, hok]
  simp only [Trace.after, hacts]

theorem doHandshakeOnStream_failed (target : SocketAddr) {e : Socks5Error}
    (herr : ((negotiate proxy).run w).result = .error e) :
    ((doHandshakeOnStream proxy target).run w).acts =
        ((negotiate proxy).run w).acts ∧
      ((doHandshakeOnStream proxy target).run w).result = .error e := by
  rw [doHandshakeOnStream, run_bind, herr]
  exact ⟨rfl, rfl⟩

theorem negotiate_downgraded (proxy : ProxyConfig) (hw : w.nextFault = none)
    (hreply : [verSocks5, methodNoAuth] <+: w.symbols) :
    ((negotiate proxy).run w).result = .ok () ∧
      ((negotiate proxy).run w).acts = [.wrote (greeting proxy),
        .received [verSocks5, methodNoAuth]] := by
  obtain ⟨rest, hrest⟩ := hreply
  obtain ⟨left, hread, -⟩ := readExact_append hrest.symm
  have hread' : readExact 2 w.afterWrite.incoming =
      some ([verSocks5, methodNoAuth], left) := hread
  unfold negotiate
  rw [writeAll_bind, readExact_bind, run_write_none hw, run_read_some hread']
  exact ⟨rfl, rfl⟩

end Steps

/-! ## One hop -/

/-- A handshake over a connection. -/
def hopRun (hop : ProxyConfig) (target : SocketAddr) (found : Connection) :
    HopRun :=
  let t := (doHandshakeOnStream hop target).run found
  ⟨hop, target, found, t.acts, t.result⟩

section Hop

variable {r : HopRun}

theorem HopRun.Authenticated.of_failed {e : Socks5Error}
    (hres : r.result = .error e)
    (hquiet : wrote (buildConnectRequest r.target) ∉ r.acts) :
    r.Authenticated where
  connect creds _ before after hsplit := by
    rw [hsplit] at hquiet
    simp at hquiet
  success creds _ hok := by
    cases hres.symm.trans hok
  offered _ _ _ _ _ := ⟨e, hres⟩

theorem HopRun.Authenticated.of_noAuth {rest : List (Act UInt8)}
    (hnone : r.hop.credentials = none)
    (hacts : r.acts = .wrote (greeting r.hop) ::
      .received [verSocks5, methodNoAuth] :: rest) : r.Authenticated where
  connect creds hcreds := by
    cases hnone.symm.trans hcreds
  success creds hcreds := by
    cases hnone.symm.trans hcreds
  offered ver method rest' hsplit hmethod := by
    have hreply : [verSocks5, methodNoAuth] = [ver, method] := by
      rw [hacts] at hsplit
      injection hsplit with _ hsplit
      injection hsplit with hreply
      injection hreply
    obtain ⟨-, rfl⟩ : verSocks5 = ver ∧ methodNoAuth = method := by
      simpa using hreply
    simp [offeredMethods, hnone] at hmethod

theorem HopRun.Authenticated.of_userpass {creds : Credentials}
    {rest : List (Act UInt8)} (hcreds : r.hop.credentials = some creds)
    (hacts : r.acts = authenticated creds ++
      .wrote (buildConnectRequest r.target) :: rest)
    (hrest : ∀ b, wrote b ∉ rest) : r.Authenticated where
  connect creds' hcreds' before after hsplit := by
    obtain rfl : creds = creds' := by
      rw [hcreds] at hcreds'
      injection hcreds'
    have hearly : wrote (buildConnectRequest r.target) ∉
        authenticated creds := by
      have hlen := length_buildConnectRequest r.target
      have hne := userpassRequest_ne_connect creds r.target
      simp only [authenticated, mem_cons, not_mem_nil, or_false,
        wrote.injEq, reduceCtorEq, false_or, not_or]
      refine ⟨fun heq => ?_, hne.symm⟩
      simp [heq] at hlen
    rw [hacts] at hsplit
    exact ((append_cons_inj_of_notMem hearly (hrest _)).mp hsplit).1.symm
  success creds' hcreds' _ := by
    obtain rfl : creds = creds' := by
      rw [hcreds] at hcreds'
      injection hcreds'
    exact ⟨rest, hacts⟩
  offered ver method rest' hsplit hmethod := by
    have hreply : [verSocks5, methodUserpass] = [ver, method] := by
      rw [hacts] at hsplit
      injection hsplit with _ hsplit
      injection hsplit with hreply
      injection hreply
    obtain ⟨-, rfl⟩ : verSocks5 = ver ∧ methodUserpass = method := by
      simpa using hreply
    simp [offeredMethods, hcreds] at hmethod

end Hop

/-- A handshake goes as it should exactly when its proxy does not answer an
offer of USER/PASS with NO_AUTH. -/
theorem hopRun_authenticated_iff (hop : ProxyConfig) (target : SocketAddr)
    (found : Connection) :
    (hopRun hop target found).Authenticated ↔
      ¬ (hopRun hop target found).Downgraded := by
  constructor
  · rintro h ⟨hsome, hw, hprefix⟩
    obtain ⟨creds, hcreds⟩ := Option.isSome_iff_exists.mp hsome
    obtain ⟨hok, hacts⟩ := negotiate_downgraded hop hw hprefix
    obtain ⟨rest, hall, -⟩ :=
      doHandshakeOnStream_acts target hok
    have hbefore := h.connect creds hcreds _ rest hall
    rw [hacts] at hbefore
    exact absurd (congrArg List.length hbefore) (by simp [authenticated])
  · intro hnot
    rcases negotiate_cases hop found with
      ⟨⟨e, he⟩, hquiet⟩ | ⟨hok, hw, hprefix, hacts⟩ |
        ⟨creds, hcreds, hok, hacts⟩
    · obtain ⟨hall, hres⟩ := doHandshakeOnStream_failed target he
      refine .of_failed hres ?_
      change wrote (buildConnectRequest target) ∉
        ((doHandshakeOnStream hop target).run found).acts
      rw [hall]
      exact hquiet target
    · have hnone : hop.credentials = none := by
        cases hc : hop.credentials with
        | none => rfl
        | some creds =>
          exact absurd ⟨by simp [hopRun, hc], hw, hprefix⟩ hnot
      obtain ⟨rest, hall, -⟩ :=
        doHandshakeOnStream_acts target hok
      rw [hacts] at hall
      exact .of_noAuth hnone hall
    · obtain ⟨rest, hall, hrest⟩ :=
        doHandshakeOnStream_acts target hok
      rw [hacts] at hall
      exact .of_userpass hcreds hall hrest

/-! ## Chains -/

theorem connectHops_cons (target : SocketAddr) (hop : ProxyConfig)
    (rest : List ProxyConfig) (stream : Connection) :
    ∃ hopTarget, connectHops target (hop :: rest) stream =
      match (hopRun hop hopTarget stream).result with
      | .error e => ⟨[hopRun hop hopTarget stream], .error e⟩
      | .ok () =>
        let r := connectHops target rest
          ((doHandshakeOnStream hop hopTarget).run stream).wire
        ⟨hopRun hop hopTarget stream :: r.hops, r.result⟩ :=
  ⟨_, rfl⟩

theorem connectHops_hops {target : SocketAddr} {chain : List ProxyConfig}
    {stream : Connection} {r : HopRun}
    (hr : r ∈ (connectHops target chain stream).hops) :
    ∃ hop hopTarget found, r = hopRun hop hopTarget found := by
  induction chain generalizing stream with
  | nil => simp [connectHops] at hr
  | cons hop rest ih =>
    obtain ⟨hopTarget, hchain⟩ := connectHops_cons target hop rest stream
    rw [hchain] at hr
    split at hr
    · obtain rfl := mem_singleton.mp hr
      exact ⟨hop, hopTarget, stream, rfl⟩
    · rcases mem_cons.mp hr with rfl | hr
      · exact ⟨hop, hopTarget, stream, rfl⟩
      · exact ih hr

theorem connectHops_ok {target : SocketAddr} {chain : List ProxyConfig}
    {stream connected : Connection}
    (h : (connectHops target chain stream).result = .ok connected) :
    (connectHops target chain stream).hops.map HopRun.hop = chain ∧
      ∀ r ∈ (connectHops target chain stream).hops, r.result = .ok () := by
  induction chain generalizing stream with
  | nil => simp [connectHops]
  | cons hop rest ih =>
    obtain ⟨hopTarget, hchain⟩ := connectHops_cons target hop rest stream
    rw [hchain] at h ⊢
    split at h
    · cases h
    next hok =>
      obtain ⟨hmap, hall⟩ := ih h
      refine ⟨by rw [map_cons, hmap]; rfl, fun r hr => ?_⟩
      rcases mem_cons.mp hr with rfl | hr
      · exact hok
      · exact hall r hr

theorem connectChain_cases (dialed : Except Socks5Error Connection)
    (chain : List ProxyConfig) (target : SocketAddr) :
    (∃ e, connectChain dialed chain target = ⟨[], .error e⟩) ∨
      ∃ stream, connectChain dialed chain target =
        connectHops target chain stream := by
  unfold connectChain
  split_ifs
  · exact .inl ⟨_, rfl⟩
  · cases dialed with
    | error e => exact .inl ⟨e, rfl⟩
    | ok stream => exact .inr ⟨stream, rfl⟩

/-- For every connection, chain and target: the handshakes of a chain are
authenticated exactly when no hop with credentials, greeted over the
connection it found, is answered with the selection of NO_AUTH. -/
theorem connectChain_authenticated_iff
    (dialed : Except Socks5Error Connection) (chain : List ProxyConfig)
    (target : SocketAddr) :
    (connectChain dialed chain target).Authenticated chain ↔
      ∀ r ∈ (connectChain dialed chain target).hops, ¬ r.Downgraded := by
  rcases connectChain_cases dialed chain target with ⟨e, he⟩ | ⟨stream, hrun⟩
  · rw [he]
    exact ⟨fun _ _ hr => absurd hr not_mem_nil,
      fun _ => ⟨fun _ hr => absurd hr not_mem_nil, nofun⟩⟩
  · rw [hrun]
    constructor
    · intro h r hr
      obtain ⟨hop, hopTarget, found, rfl⟩ := connectHops_hops hr
      exact (hopRun_authenticated_iff hop hopTarget found).mp (h.each _ hr)
    · intro h
      refine ⟨fun r hr => ?_, fun connected hok => connectHops_ok hok⟩
      obtain ⟨hop, hopTarget, found, rfl⟩ := connectHops_hops hr
      exact (hopRun_authenticated_iff hop hopTarget found).mpr (h _ hr)

/-- A proxy with credentials. -/
def credentialedProxy : ProxyConfig where
  addr := ⟨.localhost, 9050⟩
  credentials := some ⟨ascii "user", ascii "pass"⟩

/-- A proxy that selects NO_AUTH whatever it is offered, and then accepts any
CONNECT. -/
def downgradingStream : Connection where
  incoming := [[5, 0], [5, 0, 0, 1, 0, 0, 0, 0, 0, 0]]
  ending := .timeout
  faults := []

/-- That chain is connected, and the credentials were never sent. -/
theorem downgraded_hop_accepted :
    let c := connectChain (.ok downgradingStream) [credentialedProxy]
      ⟨.v4 #v[203, 0, 113, 7], 6881⟩
    c.hops.map HopRun.acts = [[.wrote [5, 1, 2], .received [5, 0],
          .wrote [5, 1, 0, 1, 203, 0, 113, 7, 0x1A, 0xE1],
          .received [5, 0, 0, 1], .received [0, 0, 0, 0, 0, 0]]] ∧
      (∃ connected, c.result = .ok connected) ∧
      ¬ c.Authenticated [credentialedProxy] := by
  refine ⟨by decide +kernel, ⟨_, rfl⟩, fun h => ?_⟩
  have hbefore := (h.each _ mem_cons_self).connect
    ⟨ascii "user", ascii "pass"⟩ rfl [.wrote [5, 1, 2], .received [5, 0]]
    [.received [5, 0, 0, 1], .received [0, 0, 0, 0, 0, 0]] (by decide +kernel)
  exact absurd (congrArg List.length hbefore) (by decide)

end RustyTorrent.Socks5
