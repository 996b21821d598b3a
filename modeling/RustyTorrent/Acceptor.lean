import RustyTorrent.Peer.Handshake
import RustyTorrent.Peer.Mse.Handshake

/-!
# Inbound connections

`acceptor.rs` and the inbound dispatcher of `peer/connection.rs`: both peek at
the first byte of a connection, take it for a plain BitTorrent handshake or for
the encryption handshake, and run the BitTorrent handshake over what the path
gives them.  A connection is the chunks it delivers with the messages of its
errors; that the other side is slow is not modelled, so no timeout strikes.
The address of the peer is passed through and left out.
-/

namespace RustyTorrent.Acceptor

open Metainfo Program Peer Mse

/-- `Transport`, as one side sees it. -/
abbrev Transport := Wire UInt8 String

/-- The message `read_exact` reports when the other side has closed. -/
def earlyEof : String := "early eof"

def peekFirstByte (t : Transport) : Except String (Option UInt8) :=
  match t.symbols.head? with
  | some b => .ok (some b)
  | none => if t.ending = earlyEof then .ok none else .error t.ending

/-! ## The encrypted connection -/

/-- `poll_read` of `EncryptedStream` and `Rc4Reader`: each chunk is deciphered
as it is deposited. -/
def decipher : Rc4 → List Bytes → List Bytes
  | _, [] => []
  | c, chunk :: chunks =>
    (c.process chunk).2 :: decipher (c.process chunk).1 chunks

/-- The message of an error of the connection below. -/
def ioMessage : MseError → String
  | .io text => text
  | _ => ""

/-- `Display` of `MseError`. -/
def displayMseError : MseError → String
  | .io text => "io error: " ++ text
  | .handshake msg => "mse handshake failed: " ++ msg
  | .noCommonCrypto => "no crypto algorithm in common with peer"
  | .unknownSkey => "info_hash not recognised"
  | .panicked => ""

/-- A connection behind the encryption handshake: the torrent it is for, its
ciphers, and what the next layer reads from it. -/
structure Secured where
  matched : Digest
  ciphers : EncryptedStream
  stream : Transport

variable (sha1Of : Bytes → Digest)

/-- `mse::perform_incoming` over a connection. -/
def secure (rng : IncomingRandom) (infoHashes : List Digest)
    (t : Transport) : Except MseError Secured :=
  let trace := (performIncoming sha1Of rng infoHashes []).run
    (t.relabel .io .io)
  match trace.result with
  | .error e => .error e
  | .ok (enc, matched) =>
    let left := trace.wire.relabel ioMessage ioMessage
    .ok ⟨matched, enc, left.afterRead (decipher enc.readCipher left.incoming)⟩

/-- What a dispatcher starts the BitTorrent handshake on. -/
inductive Route where
  | plain (t : Transport)
  | mse (s : Secured)

/-- The connection the BitTorrent handshake reads from. -/
def Route.stream : Route → Transport
  | .plain t => t
  | .mse s => s.stream

/-! ## The shared acceptor -/

/-- The keys of `Registry`: the torrents with a session. -/
structure Registry where
  keys : List Digest
  nodup : keys.Nodup

/-- `route_one`, and `route_mse` up to its BitTorrent handshake. -/
def acceptorRoute (rng : IncomingRandom) (candidates : List Digest)
    (t : Transport) : Option Route :=
  match peekFirstByte t with
  | .ok (some peeked) =>
    if peeked = pstrlen then some (.plain t)
    else if candidates.isEmpty then none
    else
      match secure sha1Of rng candidates t with
      | .ok s => some (.mse s)
      | .error _ => none
  | _ => none

/-- `HandshakenPeer`.  The reader is what it has left to deliver, and the
writer its cipher, if there is one. -/
structure HandshakenPeer where
  infoHash : Digest
  peerId : PeerId
  supportsExt : Bool
  peerReserved : Vector UInt8 8
  reader : List Bytes
  writer : Option Rc4

/-- The rest of `route_plain`: every error drops the connection. -/
def plainHandshake (reserved : Vector UInt8 8) (peerId : PeerId)
    (registry : Registry) : Program UInt8 Unit Handshake := do
  let buf ← readExact handshakeLen
  match Handshake.decode buf with
  | .error _ => .fail ()
  | .ok theirs =>
    if theirs.infoHash ∈ registry.keys then do
      writeAll (Handshake.encode ⟨reserved, theirs.infoHash, peerId⟩)
      return theirs
    else .fail ()

/-- A session that is still there takes the peer. -/
def forward (alive : Digest → Bool) (peer : HandshakenPeer) :
    Option HandshakenPeer :=
  if alive peer.infoHash then some peer else none

def routePlain (reserved : Vector UInt8 8) (peerId : PeerId)
    (registry : Registry) (alive : Digest → Bool) (t : Transport) :
    Option HandshakenPeer :=
  let trace := (plainHandshake reserved peerId registry).run
    (t.relabel (fun _ => ()) (fun _ => ()))
  match trace.result with
  | .error _ => none
  | .ok theirs =>
    forward alive
      ⟨theirs.infoHash, theirs.peerId,
        Handshake.supportsExtensionProtocol theirs.reserved,
        theirs.reserved, trace.wire.incoming, none⟩

/-- The BitTorrent handshake of the receiving side over a connection. -/
def answerHandshake (reserved : Vector UInt8 8) (infoHash : Digest)
    (peerId : PeerId) (t : Transport) : Trace UInt8 Error Handshake :=
  (Handshake.performIncoming reserved infoHash peerId).run
    (t.relabel (fun e => .handshake ("read: " ++ e))
      (fun e => .handshake ("write: " ++ e)))

/-- The rest of `route_mse`, with the registry as it is by then. -/
def routeMse (reserved : Vector UInt8 8) (peerId : PeerId)
    (registry : Registry) (alive : Digest → Bool) (s : Secured) :
    Option HandshakenPeer :=
  let trace := answerHandshake reserved s.matched peerId s.stream
  match trace.result with
  | .error _ => none
  | .ok theirs =>
    if s.matched ∈ registry.keys then
      let ours := Handshake.encode ⟨reserved, s.matched, peerId⟩
      forward alive
        ⟨s.matched, theirs.peerId,
          Handshake.supportsExtensionProtocol theirs.reserved,
          theirs.reserved, trace.wire.incoming,
          some (s.ciphers.writeCipher.process ours).1⟩
    else none

/-- `route_one`: the peer a session is handed, if it is not dropped.  The
registry may change during the handshake. -/
def routeOne (rng : IncomingRandom) (reserved : Vector UInt8 8)
    (peerId : PeerId) (registry later : Registry) (alive : Digest → Bool)
    (t : Transport) : Option HandshakenPeer :=
  match acceptorRoute sha1Of rng registry.keys t with
  | none => none
  | some (.plain t) => routePlain reserved peerId later alive t
  | some (.mse s) => routeMse reserved peerId later alive s

/-! ## The dispatcher of a single torrent -/

/-- `run_incoming_dispatch`, and `run_mse_on_stream` up to its BitTorrent
handshake. -/
def incomingRoute (rng : IncomingRandom) (infoHash : Digest)
    (t : Transport) : Except Error Route :=
  match peekFirstByte t with
  | .error e => .error (.network ("peek: " ++ e))
  | .ok none => .error (.network "peer closed before handshake")
  | .ok (some first) =>
    if first = pstrlen then .ok (.plain t)
    else
      match secure sha1Of rng [infoHash] t with
      | .ok s => .ok (.mse s)
      | .error e =>
        .error (.handshake ("mse incoming: " ++ displayMseError e))

/-- `run_incoming_dispatch`: the peer's handshake, and the chunks the loop
after it reads. -/
def runIncomingDispatch (rng : IncomingRandom) (reserved : Vector UInt8 8)
    (infoHash : Digest) (peerId : PeerId) (t : Transport) :
    Except Error (Handshake × List Bytes) := do
  let route ← incomingRoute sha1Of rng infoHash t
  let trace := answerHandshake reserved infoHash peerId route.stream
  let theirs ← trace.result
  return (theirs, trace.wire.incoming)

end RustyTorrent.Acceptor
