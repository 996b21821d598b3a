import RustyTorrent.Peer.Extension
import RustyTorrent.Peer.Message

/-!
# The read loop of a peer connection

`peer/connection.rs`: the events a connection reports, and the loop that
reads frames, decodes them and turns them into events until the stream ends,
a message is refused or the engine has gone.  `isProtocolViolation` is the
classifier that decides whether the error the loop ends with counts towards a
ban.
-/

namespace RustyTorrent.Peer

open Extension

def maxFrameLen : ℕ := (blockSize + 1024) * 2

/-- `READ_IDLE_TIMEOUT` in seconds. -/
def readIdleTimeout : ℕ := 300

/-- `PeerEvent`.  The reason of a disconnect is only logged and left out. -/
inductive PeerEvent where
  | connected (addr : SocketAddr) (peerReserved : Vector UInt8 8)
  | disconnected (addr : SocketAddr) (violation : Bool)
  | bitfield (addr : SocketAddr) (bits : List Bool)
  | have_ (addr : SocketAddr) (index : UInt32)
  | choke (addr : SocketAddr)
  | unchoke (addr : SocketAddr)
  | interested (addr : SocketAddr)
  | notInterested (addr : SocketAddr)
  | block (addr : SocketAddr) (index begin_ : UInt32) (data : Bytes)
  | request (addr : SocketAddr) (index begin_ length : UInt32)
  | cancel (addr : SocketAddr) (index begin_ length : UInt32)
  | pex (addr : SocketAddr) (peers : List SocketAddr)
  | extensionHandshake (addr : SocketAddr) (theirUtPexId : Option UInt8)
  | haveAll (addr : SocketAddr)
  | rejectRequest (addr : SocketAddr) (index begin_ : UInt32)
  deriving DecidableEq, Repr

/-- The bits of a byte, most significant first. -/
def bitsMsb0 (b : UInt8) : List Bool :=
  (List.range 8).map fun j => b.toNat.testBit (7 - j)

def msgToEvent (addr : SocketAddr) : Message → Option PeerEvent
  | .keepAlive => none
  | .choke => some (.choke addr)
  | .unchoke => some (.unchoke addr)
  | .interested => some (.interested addr)
  | .notInterested => some (.notInterested addr)
  | .have_ index => some (.have_ addr index)
  | .bitfield bytes => some (.bitfield addr (bytes.flatMap bitsMsb0))
  | .request i b l => some (.request addr i b l)
  | .piece i b data => some (.block addr i b data)
  | .cancel i b l => some (.cancel addr i b l)
  | .extended _ _ => none
  | .haveAll => some (.haveAll addr)
  | .haveNone => none
  | .rejectRequest i b _ => some (.rejectRequest addr i b)
  | .allowedFast _ => none
  | .suggestPiece _ => none

/-! ## Classifying errors -/

def contains (s pat : String) : Bool := decide (pat.toList <:+: s.toList)

/-- The texts that mark a violation. -/
def violationMarks : List String :=
  ["bad pstrlen", "bad protocol string", "info_hash mismatch",
   "frame too large", "unknown message id", "bitfield spare bits not zero",
   "have payload", "piece short", "extended payload empty"]

def isProtocolViolation : Error → Bool
  | .handshake s => violationMarks.any (contains s)
  | .network s => violationMarks.any (contains s)
  | _ => false

/-! ## The loop -/

def readFrameWithIdle (r : Reader) (maxLen : ℕ) (buf : Bytes) (idle : ℕ) :
    Except Error (Bytes × Reader) :=
  match readFrameInto r maxLen buf with
  | .ok res => .ok res
  | .error (.failed e) => .error e
  | .error .pending =>
    .error (.network s!"peer idle: no message within {idle}s")

/-- What the loop sees of its surroundings, by the round: whether the request
bucket has a token, and whether the engine takes the event. -/
structure ReadEnv where
  tokens : ℕ → Bool
  takes : ℕ → Bool

/-- How the read task ends. -/
inductive ReadEnd where
  | engineGone
  | failed (e : Error)
  | panicked
  deriving DecidableEq, Repr

/-- The `violation` flag of the disconnect event (`classify_outcome`). -/
def ReadEnd.violation : ReadEnd → Bool
  | .failed e => isProtocolViolation e
  | _ => false

/-- A run of the loop: the messages it accepted, the events it passed on and
how it ended. -/
structure ReadResult where
  accepted : List Message
  events : List PeerEvent
  ending : ReadEnd
  deriving DecidableEq, Repr

/-- The event a message gives rise to.  The two extension payloads the loop
understands are parsed; a payload that does not parse is logged. -/
def eventOf (addr : SocketAddr) (token : Bool) :
    Message → Outcome Error (Option PeerEvent)
  | .request i b l =>
    if token then .ok (msgToEvent addr (.request i b l)) else .ok none
  | .extended extId payload =>
    if extId = extHandshakeId then
      match parseHandshakePayload payload with
      | .ok info =>
        .ok (some (.extensionHandshake addr info.theirUtPexId))
      | .err _ => .ok none
      | .panic => .panic
    else if extId = ourUtPexId then
      match parsePex payload with
      | .ok added => if added = [] then .ok none
          else .ok (some (.pex addr added))
      | .err _ => .ok none
      | .panic => .panic
    else .ok (msgToEvent addr (.extended extId payload))
  | msg => .ok (msgToEvent addr msg)

/-- Whether a round of the loop passes its event on, and what to put in front
of the rest of the run if it does. -/
def pass (env : ReadEnv) (round : ℕ) (msg : Message)
    (event : Option PeerEvent) (rest : ReadResult) : ReadResult :=
  match event with
  | none => { rest with accepted := msg :: rest.accepted }
  | some ev =>
    if env.takes round then
      { rest with
        accepted := msg :: rest.accepted
        events := ev :: rest.events }
    else ⟨[msg], [], .engineGone⟩

theorem readFrameInto_bytes {r r' : Reader} {maxLen : ℕ} {buf b : Bytes}
    (h : readFrameInto r maxLen buf = .ok (b, r')) :
    r'.bytes.length < r.bytes.length := by
  have hread : ∀ {n : ℕ} {r r' : Reader} {b : Bytes},
      r.readExact n = .ok (b, r') → r.bytes.length = n + r'.bytes.length := by
    intro n r r' b h
    unfold Reader.readExact at h
    split at h
    next b' left hexact =>
      cases h
      exact (ByteStream.readExact_length hexact).2
    next => cases h
  unfold readFrameInto at h
  split at h
  next => cases h
  next lenBuf r₁ hlen =>
    have h₁ := hread hlen
    simp only at h
    split_ifs at h with hmax hzero
    · cases h
      omega
    · split at h
      next => cases h
      next buf' r₂ hbody =>
        cases h
        have h₂ := hread hbody
        omega

theorem readFrameWithIdle_bytes {r r' : Reader} {maxLen idle : ℕ}
    {buf b : Bytes} (h : readFrameWithIdle r maxLen buf idle = .ok (b, r')) :
    r'.bytes.length < r.bytes.length := by
  unfold readFrameWithIdle at h
  split at h
  next res hres =>
    cases h
    exact readFrameInto_bytes hres
  next => cases h
  next => cases h

/-- The read task of `post_handshake_loop`. -/
def readLoop (env : ReadEnv) (addr : SocketAddr) (round : ℕ) (buf : Bytes)
    (r : Reader) : ReadResult :=
  match _h : readFrameWithIdle r maxFrameLen buf readIdleTimeout with
  | .error e => ⟨[], [], .failed e⟩
  | .ok (frame, r') =>
    match Message.decode frame with
    | .error e => ⟨[], [], .failed e⟩
    | .ok msg =>
      match eventOf addr (env.tokens round) msg with
      | .ok event =>
        pass env round msg event
          (readLoop env addr (round + 1) frame r')
      | .err e => ⟨[msg], [], .failed e⟩
      | .panic => ⟨[msg], [], .panicked⟩
termination_by r.bytes.length
decreasing_by exact readFrameWithIdle_bytes _h

end RustyTorrent.Peer
