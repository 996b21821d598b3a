import RustyTorrent.Engine
import RustyTorrent.Support.Run

/-!
# The run loop, storage and uploads

`TorrentEngine::run`: the engine handles one event after the other until the
download is complete or it is stopped.  Beside it run the storage task, which
takes commands in the order they are sent, and the upload tasks, each of which
has storage read a piece, caches it and sends the block that was asked for.
Any of them may take the next step.

Storage is what it holds for each piece: a write that is reported as written
replaces it, a write that fails leaves anything, and a read returns a prefix
of it or fails.  The channels between the tasks are not bounded.
-/

namespace RustyTorrent.Engine

open Metainfo Piece

/-- `StorageCommand`; a read belongs to an upload. -/
inductive StorageCommand where
  | write (index : UInt32) (data : Bytes)
  | read (u : Upload)
  deriving DecidableEq

/-- What happened so far, oldest first. -/
inductive Record where
  | effect (effect : Effect)
  /-- The engine takes an event of storage. -/
  | storage (ev : StorageEvent)
  | announce (request : Tracker.AnnounceRequest)

/-- A running session. -/
structure Client where
  engine : TorrentEngine
  startedComplete : Bool
  running : Bool
  /-- What storage holds of each piece. -/
  store : ℕ → Option Bytes
  commands : List StorageCommand
  events : List StorageEvent
  /-- Uploads that have not asked storage yet. -/
  uploads : List Upload
  /-- Uploads that storage has answered. -/
  replies : List (Upload × Bytes)
  log : List Record

/-- The storage command an effect stands for. -/
def Effect.command : Effect → Option StorageCommand
  | .write index data => some (.write index data)
  | _ => none

/-- The upload an effect starts. -/
def Effect.started : Effect → Option Upload
  | .upload u => some u
  | _ => none

namespace Client

variable (env : Env)

/-- An announce request is made. -/
def announce (c : Client) (event : Tracker.Event) : Client :=
  if c.engine.cfg.noTracker then c
  else
    match c.engine.announceRequest event with
    | .ok request => { c with log := c.log ++ [.announce request] }
    | _ => c

/-- The loop is left. -/
def stop (c : Client) : Client :=
  { c.announce .stopped with running := false }

/-- The effects of a handler reach the other tasks. -/
def absorb (c : Client) (e : TorrentEngine) : Client :=
  { c with
    engine := { e with effects := [] }
    commands := c.commands ++ e.effects.filterMap Effect.command
    uploads := c.uploads ++ e.effects.filterMap Effect.started
    log := c.log ++ e.effects.map .effect }

/-- A handler has run; the loop is left if `done`. -/
def finish (c : Client) (e : TorrentEngine) (done : Bool) : Client :=
  if done then (c.absorb e).stop else c.absorb e

/-- A handler runs.  One that unwinds takes the engine with it. -/
def handle (c : Client) (result : Outcome Error TorrentEngine)
    (done : TorrentEngine → Bool) : Client :=
  match result with
  | .ok e => c.finish e (done e)
  | _ => { c with running := false }

/-- The arm of the loop for peers. -/
def onPeer (c : Client) (ev : Peer.PeerEvent) : Client :=
  c.handle (c.engine.handlePeerEvent env ev)
    fun e => e.pm.isComplete && !c.startedComplete

/-- The next event of storage is taken. -/
def take (c : Client) (ev : StorageEvent) (rest : List StorageEvent) :
    Client :=
  { c with events := rest, log := c.log ++ [.storage ev] }

/-- The arm of the loop for storage. -/
def onStorage (c : Client) : Client :=
  match c.events with
  | [] => c
  | ev :: rest =>
    match c.engine.handleStorageEvent env ev with
    | .ok e => (c.take ev rest).finish e e.pm.isComplete
    | _ => { c with running := false }

/-- The arm of the loop for the tracker timer, with the peers the tracker
answers. -/
def onReannounce (c : Client) (found : List SocketAddr) : Client :=
  let e := c.engine
  let e :=
    if e.cfg.anonymous then
      { e with peerId := env.freshPeerId e.asked, asked := e.asked + 1 }
    else e
  let c := { c with engine := e }.announce .none
  c.absorb (c.engine.ingest env found)

/-- The arm of the loop for the DHT timer, with the peers that were found. -/
def onDhtPeers (c : Client) (found : List SocketAddr) : Client :=
  if c.engine.peers.connectedCount < c.engine.cfg.maxPeers / 2 then
    c.absorb (c.engine.ingest env found)
  else c

/-- The arm of the loop for new connections. -/
def onInbound (c : Client) (addr : SocketAddr) : Client :=
  let e := c.engine
  c.absorb { e with
    peers := e.peers.acceptIncoming addr (env.admits e.asked)
    asked := e.asked + 1 }

/-- The arm of the loop for the timer of the violation map. -/
def onGc (c : Client) : Client :=
  let e := c.engine
  c.absorb { e with
    peers := e.peers.gcViolations (env.clock e.asked)
    asked := e.asked + 1 }

/-- An upload task sends its read to storage. -/
def submit (c : Client) (k : ℕ) : Client :=
  match c.uploads[k]? with
  | none => c
  | some u =>
    { c with
      uploads := c.uploads.eraseIdx k
      commands := c.commands ++ [.read u] }

/-- The storage task takes the next command.  `failed` is what a write that
fails leaves in place of the piece. -/
def perform (c : Client) (failed : Option (Option Bytes)) : Client :=
  match c.commands with
  | [] => c
  | .write index data :: rest =>
    match failed with
    | none =>
      { c with
        commands := rest
        store := Function.update c.store index.toNat (some data)
        events := c.events ++ [.written index] }
    | some garbage =>
      { c with
        commands := rest
        store := Function.update c.store index.toNat garbage
        events := c.events ++ [.error (some index)] }
  | .read u :: rest =>
    match failed, c.store u.index.toNat with
    | none, some piece =>
      if u.pieceSize.toNat ≤ piece.length then
        { c with
          commands := rest
          replies := c.replies ++ [(u, piece.take u.pieceSize.toNat)] }
      else { c with commands := rest }
    | _, _ => { c with commands := rest }

/-- An upload task goes on with the piece that was read. -/
def deliver (c : Client) (k : ℕ) : Client :=
  match c.replies[k]? with
  | none => c
  | some (u, piece) =>
    let c := { c with replies := c.replies.eraseIdx k }
    if piece.length < u.begin_.toNat + u.length.toNat then c
    else
      { c with
        engine := { c.engine with
          uploadCache := c.engine.uploadCache.insert u.index piece }
        log := c.log ++ [.effect (.send u.addr (.piece u.index u.begin_
          ((piece.drop u.begin_.toNat).take u.length.toNat)))] }

end Client

/-- The steps of a session. -/
inductive Action where
  | peer (ev : Peer.PeerEvent)
  | storage
  | reannounce (found : List SocketAddr)
  | chokeTick
  | gc
  | pause
  | resume
  /-- A control command or a signal. -/
  | shutdown
  | inbound (addr : SocketAddr)
  | dhtPeers (found : List SocketAddr)
  | pexTick
  | submit (k : ℕ)
  | perform (failed : Option (Option Bytes))
  | deliver (k : ℕ)

/-- Whether a step is one of the engine. -/
def Action.ofEngine : Action → Bool
  | .submit _ => false
  | .perform _ => false
  | .deliver _ => false
  | _ => true

namespace Client

variable (env : Env)

/-- One step. -/
def next (c : Client) : Action → Client
  | .peer ev => c.onPeer env ev
  | .storage => c.onStorage env
  | .reannounce found => c.onReannounce env found
  | .chokeTick => c.handle (c.engine.chokeTick env) fun _ => false
  | .gc => c.onGc env
  | .pause => { c with engine := { c.engine with paused := true } }
  | .resume => c.handle (c.engine.resume env) fun _ => false
  | .shutdown => c.stop
  | .inbound addr => c.onInbound env addr
  | .dhtPeers found => c.onDhtPeers env found
  | .pexTick => c.absorb (c.engine.sendPexToAll env)
  | .submit k => c.submit k
  | .perform failed => c.perform failed
  | .deliver k => c.deliver k

/-- The engine takes steps only while its loop runs; the tracker is only asked
if it is enabled, and a storage event is only handled if there is one. -/
def May (c : Client) : Action → Prop
  | .reannounce _ => c.running ∧ ¬ c.engine.cfg.noTracker
  | .storage => c.running ∧ c.events ≠ []
  | a => a.ofEngine → c.running

/-- Marks the pieces that the resume scan verified. -/
def resumeAll : List ℕ → PieceManager → Outcome Error PieceManager
  | [], pm => .ok pm
  | i :: rest, pm => do
    let pm ← pm.markCompleteVerified i
    resumeAll rest pm

/-- The pieces that are wanted. -/
def select (wanted : Option (List Bool)) (pm : PieceManager) : PieceManager :=
  match wanted with
  | none => pm
  | some mask => pm.setWanted mask

/-- The engine with the pieces that are present. -/
def prepare (e : TorrentEngine) (pm : PieceManager) : TorrentEngine :=
  { e with
    pm
    picker := e.picker.setSequential e.cfg.sequential
    choker := if pm.isComplete then e.choker.setSeeding true else e.choker }

/-- The session before its first announce. -/
def launch (e : TorrentEngine) (store : ℕ → Option Bytes) : Client where
  engine := e
  startedComplete := e.pm.isComplete
  running := true
  store := store
  commands := []
  events := []
  uploads := []
  replies := []
  log := []

/-- The start of `run`: the wanted pieces, the result of the resume scan, the
peers that are dialed at once and the first announce, with the peers it
returns. -/
def start (torrent : TorrentFile) (peerId : Peer.PeerId)
    (cfg : EngineConfig) (wanted : Option (List Bool)) (already : List ℕ)
    (store : ℕ → Option Bytes) (seedPeers found : List SocketAddr) :
    Outcome Error Client := do
  let e ← TorrentEngine.new env torrent peerId cfg
  let pm ← resumeAll already (select wanted e.pm)
  let c := (launch ((prepare e pm).dial env seedPeers) store).announce
    .started
  if cfg.noTracker then return c
  else return c.absorb (c.engine.ingest env found)

end Client

/-- The system of a session. -/
def session (env : Env) : System Client Action where
  next := Client.next env
  may := Client.May

end RustyTorrent.Engine
