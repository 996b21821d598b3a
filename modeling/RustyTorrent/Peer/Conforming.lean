import RustyTorrent.Metainfo.TorrentReader
import RustyTorrent.Peer.Framing
import RustyTorrent.Peer.Handshake
import RustyTorrent.Peer.ReadLoop

/-!
# What a conforming peer may send

`BepMessage` is the message vocabulary of the protocol documents the client
advertises: the core protocol (BEP 3), the fast extensions (BEP 6), the
extension protocol (BEP 10) and the port message of the DHT (BEP 5), each
with its wire form.  `Conforms` says which sequences of them a peer may send
for a torrent of a given geometry, under the capabilities in our handshake.

`readsCleanly_iff` compares this vocabulary with what the read loop takes.
-/

namespace RustyTorrent.Peer

open Handshake Extension

/-- The messages of the protocol documents. -/
inductive BepMessage where
  | keepAlive
  | choke
  | unchoke
  | interested
  | notInterested
  | have_ (index : UInt32)
  | bitfield (bits : Bytes)
  | request (index begin_ length : UInt32)
  | piece (index begin_ : UInt32) (block : Bytes)
  | cancel (index begin_ length : UInt32)
  | port (listenPort : UInt16)
  | suggestPiece (index : UInt32)
  | haveAll
  | haveNone
  | rejectRequest (index begin_ length : UInt32)
  | allowedFast (index : UInt32)
  | extended (extId : UInt8) (payload : Bytes)
  deriving DecidableEq, Repr

namespace BepMessage

/-- The identifier and the payload of a message. -/
def body : BepMessage → Bytes
  | .keepAlive => []
  | .choke => [0]
  | .unchoke => [1]
  | .interested => [2]
  | .notInterested => [3]
  | .have_ i => 4 :: be32 i
  | .bitfield bits => 5 :: bits
  | .request i b l => 6 :: (be32 i ++ be32 b ++ be32 l)
  | .piece i b block => 7 :: (be32 i ++ be32 b ++ block)
  | .cancel i b l => 8 :: (be32 i ++ be32 b ++ be32 l)
  | .port p => 9 :: toBytesBe 2 p.toNat
  | .suggestPiece i => 13 :: be32 i
  | .haveAll => [14]
  | .haveNone => [15]
  | .rejectRequest i b l => 16 :: (be32 i ++ be32 b ++ be32 l)
  | .allowedFast i => 17 :: be32 i
  | .extended e payload => 20 :: e :: payload

/-- The wire form: the length of the body in four bytes, then the body. -/
def frame (m : BepMessage) : Bytes := toBytesBe 4 m.body.length ++ m.body

/-- A range of at most 16 KiB inside a piece of the torrent. -/
def InPiece (g : Geometry) (index begin_ : UInt32) (length : ℕ) : Prop :=
  index.toNat < g.numPieces ∧ 0 < length ∧ length ≤ 16384 ∧
    begin_.toNat + length ≤ g.size index.toNat

/-- A bitfield with one bit for each piece and zeros behind them. -/
def FullBitfield (g : Geometry) (bits : Bytes) : Prop :=
  bits.length = (g.numPieces + 7) / 8 ∧
    ∀ bit ∈ (bits.flatMap bitsMsb0).drop g.numPieces, bit = false

/-- The messages a peer may send for a torrent, given what our handshake
advertised. -/
def Permitted (reserved : Vector UInt8 8) (g : Geometry) :
    BepMessage → Prop
  | .have_ i => i.toNat < g.numPieces
  | .bitfield bits => FullBitfield g bits
  | .request i b l => InPiece g i b l.toNat
  | .piece i b block => InPiece g i b block.length
  | .cancel i b l => InPiece g i b l.toNat
  | .port _ => supportsDht reserved
  | .suggestPiece i => supportsFastExtensions reserved ∧
      i.toNat < g.numPieces
  | .haveAll => supportsFastExtensions reserved
  | .haveNone => supportsFastExtensions reserved
  | .rejectRequest i b l => supportsFastExtensions reserved ∧
      InPiece g i b l.toNat
  | .allowedFast i => supportsFastExtensions reserved ∧
      i.toNat < g.numPieces
  | .extended _ _ => supportsExtensionProtocol reserved
  | .keepAlive | .choke | .unchoke | .interested | .notInterested => True

/-- The messages that say which pieces the peer starts with. -/
def isPossession : BepMessage → Bool
  | .bitfield _ | .haveAll | .haveNone => true
  | _ => false

/-- The message of the program a message of the documents is decoded to. -/
def toMessage : BepMessage → Option Message
  | .keepAlive => some .keepAlive
  | .choke => some .choke
  | .unchoke => some .unchoke
  | .interested => some .interested
  | .notInterested => some .notInterested
  | .have_ i => some (.have_ i)
  | .bitfield bits => some (.bitfield bits)
  | .request i b l => some (.request i b l)
  | .piece i b block => some (.piece i b block)
  | .cancel i b l => some (.cancel i b l)
  | .port _ => none
  | .suggestPiece i => some (.suggestPiece i)
  | .haveAll => some .haveAll
  | .haveNone => some .haveNone
  | .rejectRequest i b l => some (.rejectRequest i b l)
  | .allowedFast i => some (.allowedFast i)
  | .extended e payload => some (.extended e payload)

/-- The messages the read loop takes from a peer of a torrent with `n`
pieces: no port message, a bitfield only for so many pieces, and extension
payloads that fit in a frame. -/
def Tolerated (n : ℕ) : BepMessage → Prop
  | .port _ => False
  | .bitfield _ => n ≤ 278520
  | .extended _ payload => payload.length ≤ 34814
  | _ => True

end BepMessage

/-- A sequence of messages a conforming peer may send: each is permitted and
has a length that fits in the prefix, and only the first one says which
pieces the peer has. -/
structure Conforms (reserved : Vector UInt8 8) (g : Geometry)
    (ms : List BepMessage) : Prop where
  permitted : ∀ m ∈ ms, m.Permitted reserved g
  framed : ∀ m ∈ ms, m.body.length < 2 ^ 32
  first : ∀ m ∈ ms.tail, m.isPossession = false

/-- The stream of a sequence of messages. -/
def wire (ms : List BepMessage) : Bytes := ms.flatMap BepMessage.frame

/-- The read loop takes a sequence of messages without complaint: however the
stream is split, whatever the loop finds in its surroundings and however the
connection ends afterwards, no violation is reported, and as long as the
engine listens every message is accepted as what it says. -/
def ReadsCleanly (ms : List BepMessage) : Prop :=
  ∀ (env : ReadEnv) (addr : SocketAddr) (buf : Bytes) (r : Reader),
    r.bytes = wire ms →
      (readLoop env addr 0 buf r).ending.violation = false ∧
      (readLoop env addr 0 buf r).ending ≠ .panicked ∧
      ((∀ round, env.takes round = true) →
        (readLoop env addr 0 buf r).accepted.map some =
          ms.map BepMessage.toMessage)

/-! ## Decoding -/

variable {m : BepMessage} {r : Reader} {rest : Bytes}
  {reserved : Vector UInt8 8} {g : Geometry} {ms : List BepMessage}

theorem BepMessage.decode_body {msg : Message}
    (h : m.toMessage = some msg) : Message.decode m.body = .ok msg := by
  have hbody : m.body = msg.body := by
    cases m with
    | port p => cases h
    | _ =>
      cases h
      rfl
  rw [hbody, Message.decode_body]

/-! ## Reading one frame -/

theorem readFrame_of_le
    (hm : m.body.length < 2 ^ 32) (hmax : m.body.length ≤ maxFrameLen)
    (h : r.bytes = m.frame ++ rest) (buf : Bytes) (idle : ℕ) :
    ∃ r' : Reader, readFrameWithIdle r maxFrameLen buf idle = .ok (m.body, r') ∧
      r'.bytes = rest := by
  obtain ⟨r', hread, hrest⟩ := readFrameInto_of_le hm hmax h buf
  exact ⟨r', by rw [readFrameWithIdle, hread], hrest⟩

theorem readFrame_of_lt
    (hm : m.body.length < 2 ^ 32) (hmax : maxFrameLen < m.body.length)
    (h : r.bytes = m.frame ++ rest) (buf : Bytes) (idle : ℕ) :
    readFrameWithIdle r maxFrameLen buf idle =
      .error (.network s!"frame too large: {m.body.length}") := by
  rw [readFrameWithIdle, readFrameInto_of_lt hm hmax h buf]

/-- A stream that has ended makes the next read fail, in a way that is never
held against the peer. -/
theorem readFrame_of_nil (h : r.bytes = []) (buf : Bytes) :
    ∃ e, readFrameWithIdle r maxFrameLen buf readIdleTimeout = .error e ∧
      isProtocolViolation e = false := by
  have hread : r.readExact 4 = .error r.stopped := by
    have hlt : r.chunks.flatten.length < 4 := by
      rw [show r.chunks.flatten = [] from h]
      decide
    rw [Reader.readExact, ByteStream.readExact_of_lt hlt]
  unfold readFrameWithIdle readFrameInto
  rw [hread, Reader.stopped]
  cases r.ending with
  | closed | reset | timedOut | silent => exact ⟨_, rfl, by decide +kernel⟩

/-! ## The limits -/

theorem BepMessage.toMessage_of_tolerated {n : ℕ}
    (h : m.Tolerated n) : ∃ msg, m.toMessage = some msg := by
  cases m with
  | port p => exact absurd h id
  | _ => exact ⟨_, rfl⟩

theorem maxFrameLen_eq : maxFrameLen = 34816 := rfl

theorem BepMessage.tolerated_iff (hperm : m.Permitted reserved g) :
    m.Tolerated g.numPieces ↔
      (∀ p, m ≠ .port p) ∧ m.body.length ≤ maxFrameLen := by
  rw [maxFrameLen_eq]
  cases m with
  | port p => simp [Tolerated]
  | bitfield bits =>
    simp only [Permitted, FullBitfield] at hperm
    simp [Tolerated, body]
    omega
  | piece i b block =>
    simp only [Permitted, InPiece] at hperm
    simp [Tolerated, body]
    omega
  | extended e payload =>
    simp [Tolerated, body]
    omega
  | _ => simp [Tolerated, body]

/-! ## The loop -/

theorem eventOf_eq_ok (addr : SocketAddr) (token : Bool) (msg : Message) :
    ∃ event, eventOf addr token msg = .ok event := by
  cases msg with
  | request i b l =>
    cases token <;> exact ⟨_, rfl⟩
  | extended extId payload =>
    simp only [eventOf]
    by_cases hid : extId = extHandshakeId
    · rw [if_pos hid]
      cases hparse : parseHandshakePayload payload with
      | ok info | err e => exact ⟨_, rfl⟩
      | panic =>
        exact absurd hparse (parseHandshakePayload_ne_panic payload)
    · rw [if_neg hid]
      by_cases hpex : extId = ourUtPexId
      · rw [if_pos hpex]
        cases hparse : parsePex payload with
        | ok added =>
          by_cases hadded : added = []
          · exact ⟨none, by simp [hadded]⟩
          · exact ⟨some (.pex addr added), by simp [hadded]⟩
        | err e => exact ⟨_, rfl⟩
        | panic =>
          exact absurd hparse (parsePex_ne_panic payload)
      · rw [if_neg hpex]
        exact ⟨_, rfl⟩
  | _ => exact ⟨_, rfl⟩

theorem readLoop_frame {n : ℕ}
    (hm : m.body.length < 2 ^ 32) (hmax : m.body.length ≤ maxFrameLen)
    (htol : m.Tolerated n) (h : r.bytes = m.frame ++ rest)
    (env : ReadEnv) (addr : SocketAddr) (round : ℕ) (buf : Bytes) :
    ∃ (msg : Message) (event : Option PeerEvent) (r' : Reader),
      m.toMessage = some msg ∧ r'.bytes = rest ∧
      readLoop env addr round buf r = pass env round msg event
          (readLoop env addr (round + 1) m.body r') := by
  obtain ⟨msg, hmsg⟩ := BepMessage.toMessage_of_tolerated htol
  obtain ⟨event, hevent⟩ := eventOf_eq_ok addr (env.tokens round) msg
  obtain ⟨r', hread, hrest⟩ :=
    readFrame_of_le hm hmax h buf readIdleTimeout
  refine ⟨msg, event, r', hmsg, hrest, ?_⟩
  rw [readLoop, hread]
  simp only [BepMessage.decode_body hmsg, hevent]

theorem isProtocolViolation_append {mark : String} (h : mark ∈ violationMarks)
    (rest : String) : isProtocolViolation (.network (mark ++ rest)) = true := by
  refine List.any_eq_true.2 ⟨mark, h, ?_⟩
  rw [contains, decide_eq_true_eq, String.toList_append]
  exact (List.prefix_append _ _).isInfix

theorem readLoop_refused
    (hm : m.body.length < 2 ^ 32) (hperm : m.Permitted reserved g)
    (hnot : ¬ m.Tolerated g.numPieces) (h : r.bytes = m.frame ++ rest)
    (env : ReadEnv) (addr : SocketAddr) (round : ℕ) (buf : Bytes) :
    (readLoop env addr round buf r).ending.violation = true := by
  rw [BepMessage.tolerated_iff hperm, not_and_or, not_forall] at hnot
  rw [readLoop]
  rcases hnot with ⟨p, hport⟩ | hmax
  · obtain rfl := not_not.mp hport
    have hle : (BepMessage.port p).body.length ≤ maxFrameLen := by
      simp [BepMessage.body, maxFrameLen_eq]
    obtain ⟨r', hread, -⟩ := readFrame_of_le hm hle h buf readIdleTimeout
    have hdecode : Message.decode (BepMessage.port p).body =
        .error (.network "unknown message id 9") := by
      rfl
    rw [hread]
    simp only [hdecode]
    decide +kernel
  · rw [readFrame_of_lt hm (not_le.mp hmax) h buf readIdleTimeout]
    have htext : s!"frame too large: {m.body.length}" =
        "frame too large" ++ (": " ++ toString m.body.length) := by
      rw [← String.append_assoc]
      rfl
    rw [htext]
    exact isProtocolViolation_append (by decide) _

/-- Passing an event on keeps the ending of the rest of the run, unless the
engine is gone. -/
theorem pass_benign {rest : ReadResult}
    (h : rest.ending.violation = false ∧ rest.ending ≠ .panicked)
    (env : ReadEnv) (round : ℕ) (msg : Message) (event : Option PeerEvent) :
    (pass env round msg event rest).ending.violation = false ∧
      (pass env round msg event rest).ending ≠ .panicked := by
  unfold pass
  cases event with
  | none => exact h
  | some ev =>
    dsimp only
    split_ifs
    · exact h
    · exact ⟨rfl, nofun⟩

theorem pass_of_takes {env : ReadEnv} {round : ℕ} (h : env.takes round = true)
    (msg : Message) (event : Option PeerEvent) (rest : ReadResult) :
    (pass env round msg event rest).accepted = msg :: rest.accepted ∧
      (pass env round msg event rest).ending = rest.ending := by
  unfold pass
  cases event with
  | none => exact ⟨rfl, rfl⟩
  | some ev => simp [h]

theorem Conforms.of_cons
    (h : Conforms reserved g (m :: ms)) : Conforms reserved g ms where
  permitted := fun m' hm' => h.permitted m' (List.mem_cons_of_mem m hm')
  framed := fun m' hm' => h.framed m' (List.mem_cons_of_mem m hm')
  first := fun m' hm' => h.first m' (List.mem_of_mem_tail hm')

theorem readLoop_tolerated (hms : Conforms reserved g ms)
    (htol : ∀ m ∈ ms, m.Tolerated g.numPieces) (env : ReadEnv)
    (addr : SocketAddr) (round : ℕ) (buf : Bytes) (h : r.bytes = wire ms) :
    (readLoop env addr round buf r).ending.violation = false ∧
    (readLoop env addr round buf r).ending ≠ .panicked ∧
    ((∀ round, env.takes round = true) →
      (readLoop env addr round buf r).accepted.map some =
        ms.map BepMessage.toMessage) := by
  induction ms generalizing round buf r with
  | nil =>
    obtain ⟨e, hread, hbenign⟩ := readFrame_of_nil h buf
    rw [readLoop, hread]
    exact ⟨hbenign, nofun, fun _ => rfl⟩
  | cons m ms ih =>
    have hm := hms.framed m List.mem_cons_self
    have hmtol := htol m List.mem_cons_self
    have hmax := ((BepMessage.tolerated_iff
      (hms.permitted m List.mem_cons_self)).mp hmtol).2
    obtain ⟨msg, event, r', hmsg, hrest, hloop⟩ :=
      readLoop_frame hm hmax hmtol h env addr round buf
    obtain ⟨hviol, hpanic, hacc⟩ := ih hms.of_cons
      (fun m' hm' => htol m' (List.mem_cons_of_mem m hm'))
      (round + 1) m.body hrest
    obtain ⟨hviol', hpanic'⟩ := pass_benign ⟨hviol, hpanic⟩ env round msg event
    rw [hloop]
    refine ⟨hviol', hpanic', fun htakes => ?_⟩
    rw [(pass_of_takes (htakes round) msg event _).1, List.map_cons,
      List.map_cons, hacc htakes, hmsg]

/-- A run that listens to the end and reports no violation has only seen
tolerated messages. -/
theorem tolerated_of_readLoop (hms : Conforms reserved g ms)
    {env : ReadEnv} (htakes : ∀ round, env.takes round = true)
    (addr : SocketAddr) (round : ℕ) (buf : Bytes) (h : r.bytes = wire ms)
    (hviol : (readLoop env addr round buf r).ending.violation = false) :
    ∀ m ∈ ms, m.Tolerated g.numPieces := by
  induction ms generalizing round buf r with
  | nil => exact nofun
  | cons m ms ih =>
    have hm := hms.framed m List.mem_cons_self
    have hperm := hms.permitted m List.mem_cons_self
    by_cases hmtol : m.Tolerated g.numPieces
    · have hmax := ((BepMessage.tolerated_iff hperm).mp hmtol).2
      obtain ⟨msg, event, r', hmsg, hrest, hloop⟩ :=
        readLoop_frame hm hmax hmtol h env addr round buf
      rw [hloop, (pass_of_takes (htakes round) msg event _).2] at hviol
      have hrun := ih hms.of_cons (round + 1) m.body hrest hviol
      exact List.forall_mem_cons.2 ⟨hmtol, hrun⟩
    · rw [readLoop_refused hm hperm hmtol h] at hviol
      cases hviol

/-! ## Which peers are read without complaint -/

section

open Metainfo

variable {sha1Of : Bytes → Digest} {data : Bytes} {t : TorrentFile}

/-- A conforming peer of an accepted torrent is read without complaint
exactly when it sends no port message, sends a bitfield only if the torrent
has at most 278520 pieces, and keeps its extension payloads to 34814
bytes. -/
theorem readsCleanly_iff
    (h : TorrentFile.fromBytes sha1Of data = .ok t) (dhtEnabled : Bool)
    (ms : List BepMessage)
    (hms : Conforms (extensionBytesFrom dhtEnabled true)
      (TorrentFile.fromBytes_accepted _ h).geometry ms) :
    ReadsCleanly ms ↔ ∀ m ∈ ms, m.Tolerated t.info.pieceHashes.length := by
  constructor
  · intro hclean
    let env : ReadEnv := ⟨fun _ => true, fun _ => true⟩
    let addr : SocketAddr := ⟨.v4 (Vector.replicate 4 0), 0⟩
    have hrun := hclean env addr [] ⟨[wire ms], .closed⟩ (by
      simp [Reader.bytes])
    exact tolerated_of_readLoop hms (fun _ => rfl) addr 0 []
      (by simp [Reader.bytes]) hrun.1
  · intro htol env addr buf r hr
    exact readLoop_tolerated hms htol env addr 0 buf hr

/-- A peer that announces its first piece, unchokes and sends a block. -/
theorem readsCleanly_iff_seeding :
    ReadsCleanly [.bitfield [0x80], .unchoke, .piece 0 0 [1, 2, 3, 4]] := by
  refine (readsCleanly_iff fromBytes_exampleInput true _ ⟨?_, ?_, ?_⟩).2 ?_
  · simp only [List.forall_mem_cons]
    refine ⟨?_, trivial, ?_, nofun⟩
    · exact ⟨by decide, by decide⟩
    · exact ⟨by decide, by decide, by decide, by decide⟩
  · decide
  · decide
  · simp [BepMessage.Tolerated, exampleTorrent]

/-- With the DHT advertised, a peer may send its port; however the stream is
split, the read loop then ends with a violation. -/
theorem readLoop_port :
    ∃ h : TorrentFile.fromBytes (fun _ => zeroDigest) exampleInput =
        .ok exampleTorrent,
      Conforms (extensionBytesFrom true true)
        (TorrentFile.fromBytes_accepted _ h).geometry
        [.haveNone, .port 6881] ∧
      ∀ (env : ReadEnv) (addr : SocketAddr) (buf : Bytes) (r : Reader),
        (∀ round, env.takes round = true) →
        r.bytes = wire [.haveNone, .port 6881] →
          (readLoop env addr 0 buf r).ending.violation = true := by
  have hconf : Conforms (extensionBytesFrom true true)
      (TorrentFile.fromBytes_accepted _ fromBytes_exampleInput).geometry
      [.haveNone, .port 6881] := by
    refine ⟨?_, by decide, by decide⟩
    obtain ⟨-, hfast, hdht⟩ := supports_extensionBytesFrom true
    simp only [List.forall_mem_cons]
    exact ⟨hfast, hdht, nofun⟩
  refine ⟨fromBytes_exampleInput, hconf, ?_⟩
  intro env addr buf r htakes hr
  by_contra hviol
  have htol := tolerated_of_readLoop hconf htakes addr 0 buf hr
    (Bool.eq_false_iff.2 hviol)
  exact htol (.port 6881) (by decide)

end

end RustyTorrent.Peer
