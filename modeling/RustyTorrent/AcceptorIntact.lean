import RustyTorrent.Acceptor
import RustyTorrent.Peer.Mse.Completeness

/-!
# Which encrypted initiators get in with their stream intact

An initiator of the encryption handshake may choose any valid public value,
paddings up to the limit, any offer that contains RC4, and an initial payload
of up to 65535 bytes.  Both dispatchers let it in with its stream intact
exactly when the first byte of its public value is not that of a plain
handshake and it sends no initial payload; in the shared acceptor no candidate
after its torrent may share the digest.
-/

namespace RustyTorrent.Acceptor

open Metainfo Program Peer Mse List

variable (sha1Of : Bytes → Digest)

/-! ## Conforming initiators -/

/-- What an initiator chooses, and the bytes it enciphers after its initial
payload. -/
structure Initiator where
  ya : ℕ
  valid : 1 < ya ∧ ya < p - 1
  padA : Pad
  provide : UInt32
  offersRc4 : provide &&& cryptoRc4 ≠ 0
  padC : Pad
  ia : Bytes
  ia_lt : ia.length < 65536
  later : Bytes

namespace Initiator

variable (i : Initiator)

/-- The block it enciphers first. -/
def block : Bytes := offerBlock i.provide i.padC i.ia

/-- All it sends to the owner of a key pair, for a torrent. -/
def sent (own : Keypair) (infoHash : Digest) : Bytes :=
  firstMessage i.ya i.padA ++
    (secondMessage sha1Of (secret own i.ya) infoHash i.block ++
      (((deriveRc4 sha1Of "keyA" (secret own i.ya) infoHash).process
        i.block).1.process i.later).2)

theorem ya_lt : i.ya < p := i.valid.2.trans_le (Nat.sub_le p 1)

theorem head?_sent (own : Keypair) (infoHash : Digest) :
    (i.sent sha1Of own infoHash).head? =
      some (UInt8.ofNat (i.ya / 256 ^ 95)) := rfl

theorem head?_eq_pstrlen :
    UInt8.ofNat (i.ya / 256 ^ 95) = pstrlen ↔ i.ya / 256 ^ 95 = 19 := by
  have hlt : i.ya / 256 ^ 95 < 256 :=
    Nat.div_lt_of_lt_mul (i.ya_lt.trans p_lt)
  rw [← UInt8.toNat_inj, UInt8.toNat_ofNat', Nat.mod_eq_of_lt hlt]
  rfl

end Initiator

/-! ## The encrypted connection -/

theorem flatten_decipher (c : Rc4) (chunks : List Bytes) :
    (decipher c chunks).flatten = (c.process chunks.flatten).2 := by
  induction chunks generalizing c with
  | nil => rfl
  | cons chunk chunks ih =>
    rw [decipher, flatten_cons, flatten_cons, process_append, ih]

section Secure

variable {sha1Of} {i : Initiator} {rng : IncomingRandom}
  {infoHashes : List Digest} {infoHash matched : Digest} {t : Transport}

section

variable (hsync : FirstAfter i.padA (req1 sha1Of (secret rng.key i.ya)))

include hsync

theorem performIncoming_goes_readRequest
    (hmatch : matchSkey sha1Of infoHashes (req2 sha1Of infoHash) = some matched)
    :
    Goes (performIncoming sha1Of rng infoHashes [])
      (i.sent sha1Of rng.key infoHash)
      (readRequest sha1Of rng (secret rng.key i.ya) matched)
      (((deriveRc4 sha1Of "keyA" (secret rng.key i.ya) infoHash).process
          i.block).2 ++
        (((deriveRc4 sha1Of "keyA" (secret rng.key i.ya) infoHash).process
          i.block).1.process i.later).2)
      (firstMessage rng.key.public_ rng.padB ++ []) := by
  have hvalid := validatePeerPublic_eq_ok.mpr i.valid
  have hkeys := performIncoming_goes sha1Of rng infoHashes i.ya_lt hvalid
    (nil_append _).symm
    (i.padA ++ (secondMessage sha1Of (secret rng.key i.ya) infoHash i.block ++
      (((deriveRc4 sha1Of "keyA" (secret rng.key i.ya) infoHash).process
        i.block).1.process i.later).2))
  have hfound := awaitRequest_goes sha1Of rng i.padA.2 hsync hmatch i.block
    (((deriveRc4 sha1Of "keyA" (secret rng.key i.ya) infoHash).process
      i.block).1.process i.later).2
  rw [Initiator.sent, firstMessage, append_assoc]
  rw [append_assoc] at hfound
  exact hkeys.trans hfound

theorem secure_matched
    (hmatch : matchSkey sha1Of infoHashes (req2 sha1Of infoHash) = some matched)
    (hsent : t.symbols = i.sent sha1Of rng.key infoHash)
    (hfaults : t.faults = []) {s : Secured}
    (hsecure : secure sha1Of rng infoHashes t = .ok s) :
    s.matched = matched := by
  have hgo := performIncoming_goes_readRequest hsync hmatch
  obtain ⟨w', -, -, hres, -⟩ := hgo.run (w := t.relabel .io .io)
    (by rw [Wire.relabel, hfaults]; rfl) hsent
  rw [secure] at hsecure
  cases hrun : (readRequest sha1Of rng (secret rng.key i.ya)
      matched |>.run w').result with
  | error e =>
    simp only [hres, hrun] at hsecure
    cases hsecure
  | ok r =>
    have hr := (readRequest_returns sha1Of rng _ matched).run hrun
    simp only [hres, hrun] at hsecure
    cases hsecure
    exact hr

/-- An initiator whose torrent is found is let in.  What the next layer reads
starts behind its initial payload. -/
theorem secure_found
    (hmatch : matchSkey sha1Of infoHashes (req2 sha1Of infoHash) =
      some infoHash) (hsent : t.symbols = i.sent sha1Of rng.key infoHash)
    (hfaults : t.faults = []) :
    ∃ s, secure sha1Of rng infoHashes t = .ok s ∧
      s.matched = infoHash ∧ s.stream.symbols = i.later := by
  have hgo := performIncoming_goes_readRequest hsync hmatch
  have hread := readRequest_goes sha1Of rng (secret rng.key i.ya) infoHash
    i.provide i.padC i.ia i.offersRc4 i.padC.2 i.ia_lt
    (((deriveRc4 sha1Of "keyA" (secret rng.key i.ya) infoHash).process
      i.block).1.process i.later).2
  have hreply := sendReply_goes rng infoHash
    ((deriveRc4 sha1Of "keyA" (secret rng.key i.ya) infoHash).process i.block).1
    (deriveRc4 sha1Of "keyB" (secret rng.key i.ya) infoHash)
    (((deriveRc4 sha1Of "keyA" (secret rng.key i.ya) infoHash).process
      i.block).1.process i.later).2
  obtain ⟨hres, hleft⟩ := (hgo.trans (hread.trans hreply)).run_done
    (w := t.relabel .io .io) (by rw [Wire.relabel, hfaults]; rfl) hsent
  rw [secure]
  simp only [hres]
  refine ⟨_, rfl, rfl, ?_⟩
  have hflat := flatten_decipher
    ((deriveRc4 sha1Of "keyA" (secret rng.key i.ya) infoHash).process i.block).1
    ((performIncoming sha1Of rng infoHashes []).run
      (t.relabel .io .io)).wire.incoming
  rw [Wire.symbols] at hleft
  rw [hleft, process_process] at hflat
  exact hflat

end

/-- The sweep finds a torrent when no candidate after it shares the
digest. -/
theorem matchSkey_self_iff :
    matchSkey sha1Of infoHashes (req2 sha1Of infoHash) = some infoHash ↔
      ∃ before after, infoHashes = before ++ infoHash :: after ∧
        ∀ x ∈ after, req2 sha1Of x ≠ req2 sha1Of infoHash := by
  rw [matchSkey_eq_find?, find?_eq_some_iff_append]
  constructor
  · rintro ⟨-, front, back, hsplit, hfront⟩
    refine ⟨back.reverse, front.reverse, ?_, ?_⟩
    · rw [← reverse_reverse infoHashes, hsplit]
      simp
    · intro x hx
      simpa using hfront x (mem_reverse.mp hx)
  · rintro ⟨before, after, hsplit, hafter⟩
    refine ⟨decide_eq_true rfl, after.reverse, before.reverse, ?_, ?_⟩
    · rw [hsplit]
      simp
    · intro x hx
      simpa using hafter x (mem_reverse.mp hx)

theorem secure_intact_iff (hmem : infoHash ∈ infoHashes)
    (hsync : FirstAfter i.padA (req1 sha1Of (secret rng.key i.ya)))
    (hsent : t.symbols = i.sent sha1Of rng.key infoHash)
    (hfaults : t.faults = []) :
    (∃ s, secure sha1Of rng infoHashes t = .ok s ∧
      s.matched = infoHash ∧ s.stream.symbols = i.ia ++ i.later) ↔
    i.ia = [] ∧
      matchSkey sha1Of infoHashes (req2 sha1Of infoHash) = some infoHash := by
  constructor
  · rintro ⟨s, hsecure, hs, hstream⟩
    obtain ⟨matched, -, -, hmatch⟩ := exists_matchSkey sha1Of hmem
    have hself := secure_matched hsync hmatch hsent hfaults hsecure
    rw [hs] at hself
    subst hself
    obtain ⟨s', hsecure', -, hstream'⟩ :=
      secure_found hsync hmatch hsent hfaults
    cases hsecure.symm.trans hsecure'
    rw [hstream', self_eq_append_left] at hstream
    exact ⟨hstream, hmatch⟩
  · rintro ⟨hia, hmatch⟩
    rw [hia, nil_append]
    exact secure_found hsync hmatch hsent hfaults

end Secure

/-! ## The dispatchers -/

/-- The encryption path was taken, for the right torrent, and the BitTorrent
handshake reads the given bytes. -/
def Route.Intact (infoHash : Digest) (bytes : Bytes) : Route → Prop
  | .plain _ => False
  | .mse s => s.matched = infoHash ∧ s.stream.symbols = bytes

section

variable {infoHash : Digest} {t : Transport}

theorem peekFirstByte_of_sent {i : Initiator} {own : Keypair}
    (hsent : t.symbols = i.sent sha1Of own infoHash) :
    peekFirstByte t = .ok (some (UInt8.ofNat (i.ya / 256 ^ 95))) := by
  rw [peekFirstByte, hsent, Initiator.head?_sent]

/-- The acceptor takes the encryption path unless the first byte is that of a
plain handshake. -/
theorem acceptorRoute_intact_iff {rng : IncomingRandom}
    {infoHashes : List Digest} {first : UInt8}
    (hpeek : peekFirstByte t = .ok (some first)) (hmem : infoHash ∈ infoHashes)
    (bytes : Bytes) :
    (∃ r, acceptorRoute sha1Of rng infoHashes t = some r ∧
      r.Intact infoHash bytes) ↔
    first ≠ pstrlen ∧ ∃ s, secure sha1Of rng infoHashes t = .ok s ∧
      s.matched = infoHash ∧ s.stream.symbols = bytes := by
  have hsome : infoHashes.isEmpty = false :=
    isEmpty_eq_false_iff.mpr (ne_nil_of_mem hmem)
  rw [acceptorRoute, hpeek]
  by_cases hfirst : first = pstrlen
  · simp [hfirst, Route.Intact]
  · cases hsecure : secure sha1Of rng infoHashes t with
    | error e => simp [hfirst, hsome]
    | ok s => simp [hfirst, hsome, Route.Intact]

theorem incomingRoute_intact_iff {rng : IncomingRandom} {first : UInt8}
    (hpeek : peekFirstByte t = .ok (some first)) (bytes : Bytes) :
    (∃ r, incomingRoute sha1Of rng infoHash t = .ok r ∧
      r.Intact infoHash bytes) ↔
    first ≠ pstrlen ∧ ∃ s, secure sha1Of rng [infoHash] t = .ok s ∧
      s.matched = infoHash ∧ s.stream.symbols = bytes := by
  rw [incomingRoute, hpeek]
  by_cases hfirst : first = pstrlen
  · simp [hfirst, Route.Intact]
  · cases hsecure : secure sha1Of rng [infoHash] t with
    | error e => simp [hfirst]
    | ok s => simp [hfirst, Route.Intact]

end

/-- An initiator with any valid public value, paddings, offer of RC4 and
initial payload sends to a dispatcher, over any splitting of its bytes, for a
registered torrent.  The shared acceptor takes the encryption path and hands
over the initiator's stream intact exactly when the public value does not begin
with the byte of a plain handshake, the initial payload is empty and no
candidate after the torrent shares its digest; the dispatcher of a single
torrent exactly under the first two conditions. -/
theorem intact_iff (i : Initiator) (rng : IncomingRandom)
    (registry : Registry) {infoHash : Digest}
    (hmem : infoHash ∈ registry.keys)
    (hsync : FirstAfter i.padA (req1 sha1Of (secret rng.key i.ya)))
    {t : Transport} (hsent : t.symbols = i.sent sha1Of rng.key infoHash)
    (hfaults : t.faults = []) :
    ((∃ r, acceptorRoute sha1Of rng registry.keys t = some r ∧
        r.Intact infoHash (i.ia ++ i.later)) ↔
      i.ya / 256 ^ 95 ≠ 19 ∧ i.ia = [] ∧
        ∃ before after, registry.keys = before ++ infoHash :: after ∧
          ∀ x ∈ after, req2 sha1Of x ≠ req2 sha1Of infoHash) ∧
    ((∃ r, incomingRoute sha1Of rng infoHash t = .ok r ∧
        r.Intact infoHash (i.ia ++ i.later)) ↔
      i.ya / 256 ^ 95 ≠ 19 ∧ i.ia = []) := by
  have hpeek := peekFirstByte_of_sent sha1Of hsent
  have hsingle : matchSkey sha1Of [infoHash] (req2 sha1Of infoHash) =
      some infoHash :=
    matchSkey_self_iff.mpr ⟨[], [], rfl, nofun⟩
  constructor
  · rw [acceptorRoute_intact_iff sha1Of hpeek hmem,
      secure_intact_iff hmem hsync hsent hfaults, matchSkey_self_iff,
      ne_eq, i.head?_eq_pstrlen]
  · rw [incomingRoute_intact_iff sha1Of hpeek,
      secure_intact_iff mem_cons_self hsync hsent hfaults,
      ne_eq, i.head?_eq_pstrlen, and_iff_left hsingle]

/-! ## Single connections -/

/-- A receiver without paddings. -/
def bareReceiver : IncomingRandom :=
  ⟨.ofPrivate 7, ⟨[], by decide⟩, ⟨[], by decide⟩⟩

/-- The torrent of the connections below. -/
def hosted : Digest := ⟨List.replicate 20 1, rfl⟩

/-- An initiator without paddings that offers RC4. -/
def bareInitiator (ya : ℕ) (valid : 1 < ya ∧ ya < p - 1) (ia : Bytes)
    (hia : ia.length < 65536) : Initiator :=
  ⟨ya, valid, ⟨[], by decide⟩, cryptoRc4, by decide, ⟨[], by decide⟩, ia, hia,
    [1, 2]⟩

/-- Its connection, delivered in one piece. -/
def delivered (i : Initiator) : Transport :=
  ⟨[i.sent lastBytes bareReceiver.key hosted], earlyEof, []⟩

theorem symbols_delivered (i : Initiator) :
    (delivered i).symbols = i.sent lastBytes bareReceiver.key hosted :=
  append_nil _

/-- The smallest public value that opens with the byte of a plain handshake. -/
def leadingByte : Initiator :=
  bareInitiator (19 * 256 ^ 95) (by decide +kernel) [] (by decide)

/-- An initiator with an initial payload of one byte. -/
def withPayload : Initiator :=
  bareInitiator 32 (by decide +kernel) [5] (by decide)

/-- Neither dispatcher lets the two initiators in with their streams intact:
the first is taken for a plain peer, and the payload of the second is lost. -/
theorem leadingByte_withPayload_not_intact :
    (¬ ∃ r, acceptorRoute lastBytes bareReceiver [hosted]
        (delivered leadingByte) = some r ∧ r.Intact hosted [1, 2]) ∧
    (¬ ∃ r, incomingRoute lastBytes bareReceiver hosted
        (delivered leadingByte) = .ok r ∧ r.Intact hosted [1, 2]) ∧
    (¬ ∃ r, acceptorRoute lastBytes bareReceiver [hosted]
        (delivered withPayload) = some r ∧ r.Intact hosted [5, 1, 2]) ∧
    (¬ ∃ r, incomingRoute lastBytes bareReceiver hosted
        (delivered withPayload) = .ok r ∧ r.Intact hosted [5, 1, 2]) := by
  have hfirst := peekFirstByte_of_sent lastBytes (symbols_delivered leadingByte)
  have hpayload := peekFirstByte_of_sent lastBytes
    (symbols_delivered withPayload)
  have hplain : UInt8.ofNat (leadingByte.ya / 256 ^ 95) = pstrlen := by
    decide +kernel
  have hlost : ¬ ∃ s, secure lastBytes bareReceiver [hosted]
      (delivered withPayload) = .ok s ∧ s.matched = hosted ∧
        s.stream.symbols = [5, 1, 2] := by
    intro h
    have hia := (secure_intact_iff (i := withPayload) mem_cons_self nofun
      (symbols_delivered withPayload) rfl).mp h
    exact absurd hia.1 (by decide)
  refine ⟨?_, ?_, ?_, ?_⟩
  · rw [acceptorRoute_intact_iff lastBytes hfirst mem_cons_self]
    exact fun h => h.1 hplain
  · rw [incomingRoute_intact_iff lastBytes hfirst]
    exact fun h => h.1 hplain
  · rw [acceptorRoute_intact_iff lastBytes hpayload mem_cons_self]
    exact fun h => hlost h.2
  · rw [incomingRoute_intact_iff lastBytes hpayload]
    exact fun h => hlost h.2

/-- An initiator of the client's own kind gets in. -/
theorem intact_bareInitiator :
    (∃ r, acceptorRoute lastBytes bareReceiver [hosted]
      (delivered (bareInitiator 32 (by decide +kernel) [] (by decide))) =
        some r ∧ r.Intact hosted [1, 2]) ∧
    ∃ r, incomingRoute lastBytes bareReceiver hosted
      (delivered (bareInitiator 32 (by decide +kernel) [] (by decide))) =
        .ok r ∧ r.Intact hosted [1, 2] := by
  obtain ⟨hacceptor, hsingle⟩ := intact_iff lastBytes
    (bareInitiator 32 (by decide +kernel) [] (by decide)) bareReceiver
    ⟨[hosted], nodup_singleton hosted⟩ mem_cons_self nofun
    (symbols_delivered _) rfl
  have hbyte : 32 / 256 ^ 95 ≠ 19 := by decide +kernel
  exact ⟨hacceptor.mpr ⟨hbyte, rfl, [], [], rfl, nofun⟩,
    hsingle.mpr ⟨hbyte, rfl⟩⟩

end RustyTorrent.Acceptor
