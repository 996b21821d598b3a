import RustyTorrent.Peer.Manager
import RustyTorrent.Peer.ReadLoop
import RustyTorrent.Piece.Picker
import RustyTorrent.Storage.Cache
import RustyTorrent.Tracker.Announce

/-!
# The engine

`engine.rs`: the state of a download and its handlers for the events of peers,
of storage and of timers.  A handler is a function from the engine to the
engine; a panic unwinds.

What a handler learns from its surroundings comes from an environment, indexed
by how often the engine has asked: whether a channel takes a command, whether
a bucket has tokens, the clock, random choices and the order in which a hash
map is iterated.  What it does to its surroundings is a list of effects: the
commands that peers' channels took, the writes sent to storage, the uploads it
started and the pieces it rejected.  A handler that returns an error is only logged, so the error is left
out and the state it leaves is returned.

Left out: statistics, and logs apart from the warning about a wrong hash.
-/

namespace RustyTorrent.Engine

open Metainfo Piece Scheduler

def pipelineDepth : ℕ := 5

def endgameRemaining : ℕ := 5

def requestTimeout : ℕ := 30 * second

def maxIngestedPeersPerEvent : ℕ := 1024

inductive PeerCommand where
  | request (index begin_ length : UInt32)
  | cancel (index begin_ length : UInt32)
  | have_ (index : UInt32)
  | choke
  | unchoke
  | interested
  | notInterested
  | piece (index begin_ : UInt32) (data : Bytes)
  | bitfield (bytes : Bytes)
  | extension (extId : UInt8) (payload : Bytes)
  | haveAll
  | haveNone
  deriving DecidableEq

/-- `StorageEvent`, without the text of an error. -/
inductive StorageEvent where
  | written (index : UInt32)
  | error (index : Option UInt32)
  deriving DecidableEq

/-- A request that is answered by a task which reads the piece first. -/
structure Upload where
  addr : SocketAddr
  index : UInt32
  begin_ : UInt32
  length : UInt32
  pieceSize : UInt32
  deriving DecidableEq

/-- What the engine does to its surroundings. -/
inductive Effect where
  /-- The channel of a peer takes a command. -/
  | send (addr : SocketAddr) (cmd : PeerCommand)
  /-- `StorageCommand::Write` is sent. -/
  | write (index : UInt32) (data : Bytes)
  /-- A task is started that reads a piece from storage. -/
  | upload (u : Upload)
  /-- The warning that the hash of a piece is wrong. -/
  | mismatch (index : UInt32)
  deriving DecidableEq

/-- The surroundings, by the number of questions asked before. -/
structure Env where
  sha1Of : Bytes → Digest
  /-- Whether a channel takes a command (`try_send`). -/
  accepts : ℕ → Bool
  /-- Whether a bucket has the tokens (`try_consume`). -/
  grants : ℕ → Bool
  /-- Whether the shared cap has room. -/
  admits : ℕ → Bool
  /-- Whether the storage task takes commands. -/
  storageOpen : ℕ → Bool
  clock : ℕ → ℕ
  choice : ℕ → ℕ
  freshPeerId : ℕ → Peer.PeerId
  /-- The order in which the entries of a hash map are visited. -/
  order : ℕ → {α : Type} → List α → List α
  order_perm : ∀ n {α : Type} (l : List α), (order n l).Perm l

/-- `EngineConfig`, as far as the handlers read it. -/
structure EngineConfig where
  listenPort : UInt16
  maxPeers : ℕ
  noTracker : Bool
  anonymous : Bool
  proxied : Bool
  globalCap : Bool
  maxDownBytesPerSec : Option ℕ
  maxUpBytesPerSec : Option ℕ
  sequential : Bool

/-- `TorrentEngine`, with the peer manager of `run` and the effects of the
handler that is running. -/
structure TorrentEngine where
  torrent : TorrentFile
  peerId : Peer.PeerId
  cfg : EngineConfig
  pm : PieceManager
  picker : Picker
  choker : ChokeScheduler
  peers : Peer.PeerManager
  peerChokingUs : Dict SocketAddr Bool
  amInterested : Dict SocketAddr Bool
  weUnchoked : Dict SocketAddr Bool
  inflight : Dict SocketAddr ℕ
  endgameRequests : Dict (UInt32 × UInt32) (List SocketAddr)
  outstandingRequests : Dict (UInt32 × UInt32) (SocketAddr × ℕ)
  uploaded : ℕ
  downloaded : ℕ
  paused : Bool
  uploadCache : Storage.PieceCache
  peerPexIds : Dict SocketAddr UInt8
  peerPexSnapshot : Dict SocketAddr (List SocketAddr)
  effects : List Effect
  /-- How often the environment was asked. -/
  asked : ℕ

namespace TorrentEngine

/-- `TorrentEngine::new`, and the peer manager that `run` makes. -/
def new (env : Env) (torrent : TorrentFile) (peerId : Peer.PeerId)
    (cfg : EngineConfig) : Outcome Error TorrentEngine := do
  let total ← torrent.totalLength
  let pm ← PieceManager.new torrent.info.pieceLength total torrent.numPieces
  return {
    torrent, peerId, cfg, pm,
    picker := Picker.new torrent.numPieces,
    choker := ChokeScheduler.new (env.clock 0),
    peers := Peer.PeerManager.new cfg.maxPeers cfg.globalCap,
    peerChokingUs := ∅, amInterested := ∅, weUnchoked := ∅, inflight := ∅,
    endgameRequests := ∅, outstandingRequests := ∅,
    uploaded := 0, downloaded := 0, paused := false,
    uploadCache := Storage.PieceCache.new Storage.defaultCapacity,
    peerPexIds := ∅, peerPexSnapshot := ∅, effects := [], asked := 1 }

variable (env : Env)

/-! ## Sending commands -/

/-- `try_send` on the channel of a peer. -/
def trySend (e : TorrentEngine) (addr : SocketAddr) (cmd : PeerCommand) :
    TorrentEngine × Bool :=
  if env.accepts e.asked then
    ({ e with effects := e.effects ++ [.send addr cmd], asked := e.asked + 1 },
      true)
  else ({ e with asked := e.asked + 1 }, false)

/-- A command to a peer that has a slot; a refusal is ignored. -/
def sendTo (e : TorrentEngine) (addr : SocketAddr) (cmd : PeerCommand) :
    TorrentEngine :=
  if e.peers.handle addr then (e.trySend env addr cmd).1 else e

/-- A command to each of the given peers. -/
def sendToAll (cmd : PeerCommand) :
    List SocketAddr → TorrentEngine → TorrentEngine
  | [], e => e
  | addr :: rest, e => sendToAll cmd rest (e.sendTo env addr cmd)

/-! ## Requesting blocks -/

/-- Give a reserved block back, which only happens outside the endgame. -/
def unreserve (e : TorrentEngine) (endgame : Bool) (piece begin : ℕ) :
    Outcome Error TorrentEngine :=
  if endgame then return e
  else do
    let pm ← e.pm.releaseBlock piece begin
    return { e with pm }

/-- The next block of a piece to ask a peer for. -/
def nextBlock (e : TorrentEngine) (addr : SocketAddr) (endgame : Bool)
    (piece : ℕ) : Outcome Error (TorrentEngine × Option (ℕ × ℕ)) :=
  if endgame then do
    let blocks ← e.pm.unfinishedBlocks piece
    return (e, blocks.find? fun b =>
      !((e.endgameRequests.lookup
        (UInt32.ofNat piece, UInt32.ofNat b.1)).getD []).contains addr)
  else do
    let (pm, block) ← e.pm.reserveBlock piece
    return ({ e with pm }, block)

/-- A request that was sent is noted. -/
def noteRequest (e : TorrentEngine) (addr : SocketAddr) (endgame : Bool)
    (piece begin : ℕ) : TorrentEngine :=
  let key := (UInt32.ofNat piece, UInt32.ofNat begin)
  let e := { e with inflight := e.inflight.upsert addr 0 (· + 1) }
  if endgame then
    { e with
      endgameRequests := e.endgameRequests.upsert key [] (· ++ [addr]) }
  else
    { e with
      outstandingRequests :=
        e.outstandingRequests.insert key (addr, env.clock e.asked)
      asked := e.asked + 1 }

/-- Ask a peer for a block, if the throttle, the slot and the channel allow
it. -/
def issue (e : TorrentEngine) (addr : SocketAddr) (endgame : Bool)
    (piece begin length : ℕ) : Outcome Error (TorrentEngine × Bool) :=
  if e.cfg.maxDownBytesPerSec.isSome && !env.grants e.asked then do
    let e ← { e with asked := e.asked + 1 }.unreserve endgame piece begin
    return (e, false)
  else
    let e := { e with asked := e.asked + 1 }
    if e.peers.handle addr then
      match e.trySend env addr (.request (UInt32.ofNat piece)
          (UInt32.ofNat begin) (UInt32.ofNat length)) with
      | (e, true) => return (e.noteRequest env addr endgame piece begin, true)
      | (e, false) => do
        let e ← e.unreserve endgame piece begin
        return (e, false)
    else do
      let e ← e.unreserve endgame piece begin
      return (e, false)

/-- The loop of `maybe_request_blocks`.  Every round sends a request or
exhausts a piece, which bounds the number of rounds. -/
def requestLoop (addr : SocketAddr) (endgame : Bool) :
    ℕ → List ℕ → TorrentEngine → Outcome Error TorrentEngine
  | 0, _, e => .ok e
  | rounds + 1, exhausted, e =>
    if pipelineDepth ≤ (e.inflight.lookup addr).getD 0 then .ok e
    else do
      let (picker, pick) ←
        e.picker.pickFor addr e.pm endgame (env.choice e.asked)
      let e := { e with picker, asked := e.asked + 1 }
      match pick with
      | none => return e
      | some piece =>
        if exhausted.contains piece then return e
        else do
          let (e, block) ← e.nextBlock addr endgame piece
          match block with
          | none =>
            requestLoop addr endgame rounds (piece :: exhausted)
              { e with picker := e.picker.clearAssignmentIf addr piece }
          | some (begin, length) => do
            let (e, sent) ←
              e.issue env addr endgame piece begin length
            if sent then requestLoop addr endgame rounds exhausted e
            else return e

def maybeRequestBlocks (e : TorrentEngine) (addr : SocketAddr) :
    Outcome Error TorrentEngine :=
  if e.paused then return e
  else if (e.peerChokingUs.lookup addr).getD true then return e
  else
    let endgame := decide (e.pm.missingCount < endgameRemaining) &&
      decide (0 < e.pm.missingCount)
    requestLoop env addr endgame
      (pipelineDepth + e.pm.states.length + 1) [] e

/-- `maybe_request_blocks` for each of the given peers. -/
def requestFromAll : List SocketAddr → TorrentEngine →
    Outcome Error TorrentEngine
  | [], e => .ok e
  | addr :: rest, e => do
    let e ← e.maybeRequestBlocks env addr
    requestFromAll rest e

def maybeExpressInterest (e : TorrentEngine) (addr : SocketAddr) :
    TorrentEngine :=
  let already := (e.amInterested.lookup addr).getD false
  let useful := e.pm.missingPieces.any fun i => e.picker.peerHas addr i
  if useful && !already then
    if e.peers.handle addr then
      { e.sendTo env addr .interested with
        amInterested := e.amInterested.insert addr true }
    else e
  else if !useful && already then
    if e.peers.handle addr then
      { e.sendTo env addr .notInterested with
        amInterested := e.amInterested.insert addr false }
    else e
  else e

/-! ## Peers that leave -/

/-- Blocks that were asked for are given back. -/
def releaseBlocks : List (UInt32 × UInt32) → TorrentEngine →
    Outcome Error TorrentEngine
  | [], e => .ok e
  | key :: rest, e => do
    let pm ← e.pm.releaseBlock key.1.toNat key.2.toNat
    releaseBlocks rest
      { e with pm, outstandingRequests := e.outstandingRequests.erase key }

def releaseOutstandingFor (e : TorrentEngine) (addr : SocketAddr) :
    Outcome Error TorrentEngine :=
  let toRelease := (e.outstandingRequests.pairs.filter fun entry =>
    entry.2.1 = addr).map Prod.fst
  releaseBlocks (env.order e.asked toRelease) { e with asked := e.asked + 1 }

/-- The piece that was assigned to a peer is given back. -/
def releaseAssigned (e : TorrentEngine) (addr : SocketAddr) :
    Outcome Error TorrentEngine :=
  match e.picker.assignment addr with
  | none => return e
  | some i => do
    let pm ← e.pm.releasePieceInflight i
    return { e with pm, picker := e.picker.releaseAssignment addr }

def cleanupDisconnectedPeer (e : TorrentEngine) (addr : SocketAddr) :
    Outcome Error TorrentEngine := do
  let e := { e with
    peerChokingUs := e.peerChokingUs.erase addr
    amInterested := e.amInterested.erase addr
    weUnchoked := e.weUnchoked.erase addr
    inflight := e.inflight.erase addr }
  let e ← e.releaseAssigned addr
  let e ← e.releaseOutstandingFor env addr
  return { e with
    picker := e.picker.forgetPeer addr
    choker := e.choker.forget addr
    peerPexIds := e.peerPexIds.erase addr
    peerPexSnapshot := e.peerPexSnapshot.erase addr
    endgameRequests :=
      (e.endgameRequests.mapValues (·.filter (· ≠ addr))).retain
        fun _ v => !v.isEmpty }

/-! ## Events of peers -/

/-- The bookkeeping of `Connected`. -/
def noteConnected (e : TorrentEngine) (addr : SocketAddr) : TorrentEngine :=
  { e with
    peers := e.peers.noteEstablished addr
    peerChokingUs := e.peerChokingUs.insert addr true
    amInterested := e.amInterested.insert addr false
    weUnchoked := e.weUnchoked.insert addr false
    inflight := e.inflight.insert addr 0 }

/-- The first message to a peer says which pieces we have. -/
def greet (e : TorrentEngine) (addr : SocketAddr) (peerFast : Bool) :
    TorrentEngine :=
  if peerFast && e.pm.isComplete then e.sendTo env addr .haveAll
  else if peerFast && decide (e.pm.completeCount = 0) then
    e.sendTo env addr .haveNone
  else if 0 < e.pm.completeCount then
    e.sendTo env addr (.bitfield (Peer.bitfieldToBytes e.pm.localBitfield))
  else e

/-- `Connected`. -/
def onConnected (e : TorrentEngine) (addr : SocketAddr)
    (peerReserved : Vector UInt8 8) : TorrentEngine :=
  (e.noteConnected addr).greet env addr
    (Peer.Handshake.supportsFastExtensions peerReserved)

/-- `Disconnected`. -/
def onDisconnected (e : TorrentEngine) (addr : SocketAddr)
    (violation : Bool) : Outcome Error TorrentEngine := do
  let e :=
    if violation then
      { e with
        peers := e.peers.recordViolation addr.ip (env.clock e.asked)
        asked := e.asked + 1 }
    else e
  let e ← e.cleanupDisconnectedPeer env addr
  return { e with peers := e.peers.forget addr }

/-- A slot of the pipeline to a peer is free again. -/
def freeSlot (e : TorrentEngine) (addr : SocketAddr) : TorrentEngine :=
  { e with inflight := e.inflight.modify addr (· - 1) }

/-- `RejectRequest`. -/
def onRejectRequest (e : TorrentEngine) (addr : SocketAddr)
    (index begin_ : UInt32) : Outcome Error TorrentEngine := do
  let e := e.freeSlot addr
  let owned := (e.outstandingRequests.lookup (index, begin_)).any
    fun entry => entry.1 = addr
  let inRange := decide (index.toNat < e.pm.numPieces)
  if owned && inRange then do
    let e ← releaseBlocks [(index, begin_)] e
    e.maybeRequestBlocks env addr
  else return e

/-- `Choke`. -/
def onChoke (e : TorrentEngine) (addr : SocketAddr) :
    Outcome Error TorrentEngine := do
  let e := { e with
    peerChokingUs := e.peerChokingUs.insert addr true
    inflight := e.inflight.insert addr 0 }
  let e ← e.releaseAssigned addr
  e.releaseOutstandingFor env addr

/-- `Interested`. -/
def onInterested (e : TorrentEngine) (addr : SocketAddr) : TorrentEngine :=
  if e.pm.isComplete && !(e.weUnchoked.lookup addr).getD false &&
      e.peers.handle addr then
    match e.trySend env addr .unchoke with
    | (e, true) => { e with weUnchoked := e.weUnchoked.insert addr true }
    | (e, false) => e
  else e

/-- Whether a block was asked for from this peer. -/
def solicited (e : TorrentEngine) (addr : SocketAddr)
    (index begin_ : UInt32) : Bool :=
  ((e.outstandingRequests.lookup (index, begin_)).any
    fun entry => entry.1 = addr) ||
  (e.endgameRequests.lookup (index, begin_)).any fun v => v.contains addr

/-- `downloaded` and the choker are credited for a block that is new. -/
def credit (e : TorrentEngine) (addr : SocketAddr) (length : ℕ)
    (outcome : BlockOutcome) : TorrentEngine :=
  if outcome ≠ .duplicate then
    { e with
      choker := e.choker.recordDownload addr length (env.clock e.asked)
      downloaded := saturatingAdd 64 e.downloaded length
      asked := e.asked + 1 }
  else e

/-- The other peers that were asked for a block are told to forget it. -/
def cancelOthers (e : TorrentEngine) (addr : SocketAddr)
    (index begin_ : UInt32) (length : ℕ) : TorrentEngine :=
  match e.endgameRequests.lookup (index, begin_) with
  | none => e
  | some list =>
    sendToAll env (.cancel index begin_ (UInt32.ofNat length))
      (list.filter (· ≠ addr))
      { e with
        endgameRequests := e.endgameRequests.erase (index, begin_) }

def verifyPiece (sha1Of : Bytes → Digest) (data : Bytes)
    (expected : Digest) : Bool :=
  sha1Of data = expected

/-- A piece whose hash is wrong is started over, and its last sender is
banned. -/
def rejectPiece (e : TorrentEngine) (addr : SocketAddr) (index : UInt32) :
    Outcome Error TorrentEngine := do
  let pm ← e.pm.resetPiece index.toNat
  let e := { e with
    pm
    effects := e.effects ++ [Effect.mismatch index]
    uploadCache := e.uploadCache.invalidate index
    peers := e.peers.ban addr.ip
    picker := e.picker.clearAssignmentIf addr index.toNat }
  e.cleanupDisconnectedPeer env addr

/-- An assembled piece is verified and handed to storage.  The flag says
whether the handler goes on; it returns when the storage task has gone. -/
def settle (e : TorrentEngine) (addr : SocketAddr) (index : UInt32)
    (buf : Bytes) : Outcome Error (TorrentEngine × Bool) := do
  let expected ← Outcome.index index.toNat e.torrent.info.pieceHashes
  if verifyPiece env.sha1Of buf expected then
    if env.storageOpen e.asked then
      return ({ e with
        effects := e.effects ++ [.write index buf]
        asked := e.asked + 1 }, true)
    else return ({ e with asked := e.asked + 1 }, false)
  else do
    let e ← e.rejectPiece env addr index
    return (e, true)

/-- The branch of `Block` for a piece that is assembled. -/
def settleOutcome (e : TorrentEngine) (addr : SocketAddr) (index : UInt32) :
    BlockOutcome → Outcome Error (TorrentEngine × Bool)
  | .completed buf => e.settle env addr index buf
  | .stored => .ok (e, true)
  | .duplicate => .ok (e, true)

/-- `Block`, after it was accepted. -/
def onAccepted (e : TorrentEngine) (addr : SocketAddr)
    (index begin_ : UInt32) (length : ℕ) (outcome : BlockOutcome) :
    Outcome Error TorrentEngine := do
  let e := e.credit env addr length outcome
  let e := e.cancelOthers env addr index begin_ length
  let (e, goesOn) ← e.settleOutcome env addr index outcome
  if goesOn && !e.peers.isBanned addr.ip then e.maybeRequestBlocks env addr
  else return e

/-- `Block`. -/
def onBlock (e : TorrentEngine) (addr : SocketAddr) (index begin_ : UInt32)
    (data : Bytes) : Outcome Error TorrentEngine := do
  let e := e.freeSlot addr
  if !e.solicited addr index begin_ then e.maybeRequestBlocks env addr
  else do
    let e := { e with
      outstandingRequests := e.outstandingRequests.erase (index, begin_) }
    let (pm, outcome) ←
      e.pm.receivedBlock index.toNat begin_.toNat data
    let e := { e with pm }
    match outcome with
    | .error _ => do
      let e := { e with peers := e.peers.ban addr.ip }
      e.cleanupDisconnectedPeer env addr
    | .ok outcome => e.onAccepted env addr index begin_ data.length outcome

/-- The accounting of an upload. -/
def chargeUpload (e : TorrentEngine) (addr : SocketAddr) (length : ℕ) :
    TorrentEngine :=
  { e with
    uploaded := saturatingAdd 64 e.uploaded length
    choker := e.choker.recordUpload addr length (env.clock e.asked)
    asked := e.asked + 1 }

/-- `serve_request`, after the request passed the checks: from the cache, or
by a task that reads the whole piece. -/
def startUpload (e : TorrentEngine) (addr : SocketAddr)
    (index begin_ length : UInt32) (size : ℕ) : TorrentEngine :=
  let fetch : Effect :=
    .upload ⟨addr, index, begin_, length, UInt32.ofNat size⟩
  let (cache, hit) := e.uploadCache.get index
  let e := { e with uploadCache := cache }
  match hit with
  | some piece =>
    if begin_.toNat + length.toNat ≤ piece.length then
      { e with
        effects := e.effects ++ [.send addr (.piece index begin_
          ((piece.drop begin_.toNat).take length.toNat))] }
    else { e with effects := e.effects ++ [fetch] }
  | none => { e with effects := e.effects ++ [fetch] }

def serveRequest (e : TorrentEngine) (addr : SocketAddr)
    (index begin_ length : UInt32) : Outcome Error TorrentEngine :=
  if !(e.weUnchoked.lookup addr).getD false then return e
  else if length.toNat = 0 ∨ blockSize < length.toNat then return e
  else if e.pm.numPieces ≤ index.toNat then return e
  else do
    let present ← Outcome.index index.toNat e.pm.localBitfield
    if !present then return e
    else do
      let size ← e.pm.pieceSize index.toNat
      if size < begin_.toNat + length.toNat then return e
      else if !e.peers.handle addr then return e
      else if e.cfg.maxUpBytesPerSec.isSome && !env.grants e.asked then
        return { e with asked := e.asked + 1 }
      else
        let e := { e with asked := e.asked + 1 }.chargeUpload env addr
          length.toNat
        return e.startUpload addr index begin_ length size

/-- The shared cap is asked once for each address that may be dialed. -/
def dial (e : TorrentEngine) (addrs : List SocketAddr) : TorrentEngine :=
  { e with
    peers := e.peers.tryConnectMany
      (addrs.zipIdx.map fun a => (a.1, env.admits (e.asked + a.2)))
    asked := e.asked + addrs.length }

def screenIngestedPeers (e : TorrentEngine) (addrs : List SocketAddr) :
    List SocketAddr :=
  (addrs.filter fun a =>
    Util.isDialablePeerAddr a (e.cfg.anonymous || e.cfg.proxied)).take
      maxIngestedPeersPerEvent

/-- `Pex`. -/
def onPex (e : TorrentEngine) (found : List SocketAddr) : TorrentEngine :=
  if e.cfg.anonymous || e.torrent.info.isPrivate then e
  else e.dial env (e.screenIngestedPeers found)

/-- `ExtensionHandshake`. -/
def onExtensionHandshake (e : TorrentEngine) (addr : SocketAddr)
    (theirUtPexId : Option UInt8) : TorrentEngine :=
  if e.cfg.anonymous || e.torrent.info.isPrivate then e
  else
    match theirUtPexId with
    | some id => { e with peerPexIds := e.peerPexIds.insert addr id }
    | none => e

def handlePeerEvent (e : TorrentEngine) :
    Peer.PeerEvent → Outcome Error TorrentEngine
  | .connected addr peerReserved => return e.onConnected env addr peerReserved
  | .disconnected addr violation => e.onDisconnected env addr violation
  | .haveAll addr =>
    let full := List.replicate e.pm.numPieces true
    let e := { e with picker := e.picker.setPeerBitfield addr full }
    return e.maybeExpressInterest env addr
  | .rejectRequest addr index begin_ =>
    e.onRejectRequest env addr index begin_
  | .bitfield addr bits =>
    let e := { e with picker := e.picker.setPeerBitfield addr bits }
    (e.maybeExpressInterest env addr).maybeRequestBlocks env addr
  | .have_ addr index =>
    let e := { e with picker := e.picker.addHave addr index.toNat }
    (e.maybeExpressInterest env addr).maybeRequestBlocks env addr
  | .choke addr => e.onChoke env addr
  | .unchoke addr =>
    { e with
      peerChokingUs := e.peerChokingUs.insert addr false
    }.maybeRequestBlocks env addr
  | .interested addr => return e.onInterested env addr
  | .notInterested _ => return e
  | .block addr index begin_ data => e.onBlock env addr index begin_ data
  | .request addr index begin_ length =>
    e.serveRequest env addr index begin_ length
  | .cancel _ _ _ _ => return e
  | .extensionHandshake addr id => return e.onExtensionHandshake addr id
  | .pex _ found => return e.onPex env found

/-! ## Events of storage -/

/-- The peers are told about a piece, and those at work on it move on. -/
def announcePiece (e : TorrentEngine) (index : UInt32) :
    Outcome Error TorrentEngine :=
  let addrs := env.order e.asked e.peers.addrs
  let e := sendToAll env (.have_ index) addrs { e with asked := e.asked + 1 }
  addrs.foldlM
    (fun e addr =>
      { e with
        picker := e.picker.clearAssignmentIf addr index.toNat
      }.maybeRequestBlocks env addr) e

def handleStorageEvent (e : TorrentEngine) :
    StorageEvent → Outcome Error TorrentEngine
  | .written index => do
    let pm ← e.pm.markComplete index.toNat
    let e := { e with
      pm
      endgameRequests := e.endgameRequests.retain
        fun key _ => key.1 ≠ index }
    let e :=
      if e.pm.isComplete then { e with choker := e.choker.setSeeding true }
      else e
    e.announcePiece env index
  | .error none => return e
  | .error (some index) => do
    let pm ← e.pm.resetPiece index.toNat
    return { e with
      pm
      endgameRequests := e.endgameRequests.retain
        fun key _ => key.1 ≠ index }

/-! ## Timers and control -/

/-- Choke and unchoke commands; only those that are sent are noted. -/
def applyChoke (cmd : PeerCommand) (unchoked : Bool) :
    List SocketAddr → TorrentEngine → TorrentEngine
  | [], e => e
  | addr :: rest, e =>
    if e.peers.handle addr then
      match e.trySend env addr cmd with
      | (e, true) => applyChoke cmd unchoked rest
          { e with weUnchoked := e.weUnchoked.insert addr unchoked }
      | (e, false) => applyChoke cmd unchoked rest e
    else applyChoke cmd unchoked rest e

/-- The loop of the stale-request reaper. -/
def reapStale : List ((UInt32 × UInt32) × SocketAddr) → TorrentEngine →
    Outcome Error TorrentEngine
  | [], e => .ok e
  | (key, addr) :: rest, e => do
    let e ← releaseBlocks [key] e
    let e ← (e.freeSlot addr).maybeRequestBlocks env addr
    reapStale rest e

/-- The requests that are older than the timeout. -/
def staleRequests (e : TorrentEngine) (now : ℕ) :
    List ((UInt32 × UInt32) × SocketAddr) :=
  (e.outstandingRequests.pairs.filter fun entry =>
    requestTimeout < now - entry.2.2).map fun entry => (entry.1, entry.2.1)

/-- The scheduler's decisions are carried out. -/
def rechoke (e : TorrentEngine) : TorrentEngine :=
  let candidates := env.order e.asked e.peers.addrs
  let (choker, dec) := e.choker.tick candidates (env.clock (e.asked + 1))
    (env.choice (e.asked + 1)) fun k => env.clock (e.asked + 2 + k)
  let e := { e with choker, asked := e.asked + 2 + candidates.length }
  let e := applyChoke env .unchoke true dec.toUnchoke e
  applyChoke env .choke false dec.toChoke e

/-- Requests that are too old are released. -/
def reap (e : TorrentEngine) : Outcome Error TorrentEngine :=
  let stale := env.order e.asked (e.staleRequests (env.clock e.asked))
  reapStale env stale { e with asked := e.asked + 1 }

/-- The choke timer. -/
def chokeTick (e : TorrentEngine) : Outcome Error TorrentEngine :=
  (e.rechoke env).reap env

def resume (e : TorrentEngine) : Outcome Error TorrentEngine :=
  requestFromAll env (env.order e.asked e.peers.addrs)
    { e with paused := false, asked := e.asked + 1 }

/-- The peers that came and went since the last exchange with `addr`, in some
order, at most fifty of each. -/
def pexDelta (e : TorrentEngine) (addr : SocketAddr) :
    List SocketAddr × List SocketAddr :=
  let visible := e.peers.addrs.filter (· ≠ addr)
  let last := (e.peerPexSnapshot.lookup addr).getD []
  ((env.order e.asked (visible.filter fun a => !last.contains a)).take
      Extension.pexMaxEntriesPerDirection,
    (env.order (e.asked + 1) (last.filter fun a => !visible.contains a)).take
      Extension.pexMaxEntriesPerDirection)

/-- The loop of `send_pex_to_all`. -/
def sendPex : List (SocketAddr × UInt8) → TorrentEngine → TorrentEngine
  | [], e => e
  | (addr, extId) :: rest, e =>
    let (added, dropped) := e.pexDelta env addr
    let e := { e with asked := e.asked + 2 }
    let noted (e : TorrentEngine) : TorrentEngine := { e with
      peerPexSnapshot := e.peerPexSnapshot.insert addr
        (e.peers.addrs.filter (· ≠ addr)) }
    if added.isEmpty && dropped.isEmpty then sendPex rest e
    else if e.peers.handle addr then
      match e.trySend env addr
          (.extension extId (Extension.buildPexPayload added dropped)) with
      | (e, true) => sendPex rest (noted e)
      | (e, false) => sendPex rest e
    else sendPex rest (noted e)

def sendPexToAll (e : TorrentEngine) : TorrentEngine :=
  sendPex env (env.order e.asked e.peerPexIds.pairs)
    { e with asked := e.asked + 1 }

/-- The answer of a tracker, or of the DHT: its peers are dialed. -/
def ingest (e : TorrentEngine) (found : List SocketAddr) : TorrentEngine :=
  e.dial env (e.screenIngestedPeers found)

def advertisedPort (anonymous proxied : Bool) (listenPort : UInt16) :
    UInt16 :=
  if anonymous || proxied then 0 else listenPort

def announceRequest (e : TorrentEngine) (event : Tracker.Event) :
    Outcome Error Tracker.AnnounceRequest := do
  let total ← e.torrent.totalLength
  return {
    infoHash := e.torrent.infoHash
    peerId := e.peerId
    port := advertisedPort e.cfg.anonymous e.cfg.proxied e.cfg.listenPort
    uploaded := UInt64.ofNat e.uploaded
    downloaded := UInt64.ofNat e.downloaded
    left := UInt64.ofNat (total - e.downloaded)
    event, numWant := 50 }

end TorrentEngine

end RustyTorrent.Engine
