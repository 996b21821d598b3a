import RustyTorrent.Scheduler.Choke

/-!
# The peer manager

`peer/manager.rs`: the slots for peers, the hosts that are banned and the
dials in progress.  A slot is present from the start of a dial or the arrival
of a connection to its removal.  Whether the shared cap has room is an
argument; the tasks behind the slots are left out.
-/

namespace RustyTorrent.Peer

def defaultMaxPeers : ℕ := 50

def violationBanThreshold : ℕ := 3

def violationWindow : ℕ := 60 * Scheduler.second

def maxPendingOutgoingDials : ℕ := 8

/-- `PeerManager`.  A slot notes whether it holds a unit of the shared cap. -/
structure PeerManager where
  peers : Dict SocketAddr Bool
  banned : List IpAddr
  maxPeers : ℕ
  violations : Dict IpAddr (List ℕ)
  globalCap : Bool
  pendingDials : List SocketAddr

namespace PeerManager

/-- `PeerManager::new`, with the limits the engine sets. -/
def new (maxPeers : ℕ) (globalCap : Bool) : PeerManager where
  peers := ∅
  banned := []
  maxPeers := maxPeers
  violations := ∅
  globalCap := globalCap
  pendingDials := []

variable (m : PeerManager)

/-- `handle`: whether there is a channel to the peer. -/
def handle (addr : SocketAddr) : Bool := (m.peers.lookup addr).isSome

def addrs : List SocketAddr := m.peers.keys

def connectedCount : ℕ := m.peers.keys.length

def isBanned (ip : IpAddr) : Bool := m.banned.contains ip

def dropPeer (addr : SocketAddr) : PeerManager :=
  { m with
    pendingDials := m.pendingDials.filter (· ≠ addr)
    peers := m.peers.erase addr }

def ban (ip : IpAddr) : PeerManager :=
  (m.addrs.filter fun a => a.ip = ip).foldl dropPeer
    { m with banned := if m.isBanned ip then m.banned else ip :: m.banned }

def recordViolation (ip : IpAddr) (now : ℕ) : PeerManager :=
  if m.isBanned ip then m
  else
    let old := (m.violations.lookup ip).getD []
    let entry := old.filter (fun t => now - t ≤ violationWindow) ++ [now]
    let m := { m with violations := m.violations.insert ip entry }
    if violationBanThreshold ≤ entry.length then m.ban ip else m

def gcViolations (now : ℕ) : PeerManager :=
  { m with
    violations :=
      (m.violations.mapValues (·.filter fun t => now - t ≤ violationWindow))
        |>.retain fun _ times => !times.isEmpty }

def acquireGlobal (room : Bool) : Option Bool :=
  if m.globalCap then (if room then some true else none) else some false

def spawnOutgoing (addr : SocketAddr) (room : Bool) : PeerManager × Bool :=
  if m.handle addr then (m, false)
  else if maxPendingOutgoingDials ≤ m.pendingDials.length then (m, false)
  else
    match m.acquireGlobal room with
    | none => (m, false)
    | some guard =>
      ({ m with
         pendingDials := addr :: m.pendingDials.filter (· ≠ addr)
         peers := m.peers.insert addr guard }, true)

/-- `try_connect_many`, with the room in the shared cap at each dial. -/
def tryConnectMany : PeerManager → List (SocketAddr × Bool) → PeerManager
  | m, [] => m
  | m, (addr, room) :: rest =>
    if m.maxPeers ≤ m.connectedCount then m
    else if m.handle addr then m.tryConnectMany rest
    else if m.isBanned addr.ip then m.tryConnectMany rest
    else
      match m.spawnOutgoing addr room with
      | (m, false) => m
      | (m, true) => m.tryConnectMany rest

def noteEstablished (addr : SocketAddr) : PeerManager :=
  { m with pendingDials := m.pendingDials.filter (· ≠ addr) }

/-- `accept_incoming` and `accept_handshaken`. -/
def acceptIncoming (addr : SocketAddr) (room : Bool) : PeerManager :=
  if m.maxPeers ≤ m.connectedCount ∨ m.handle addr then m
  else if m.isBanned addr.ip then m
  else
    match m.acquireGlobal room with
    | none => m
    | some guard => { m with peers := m.peers.insert addr guard }

def forget (addr : SocketAddr) : PeerManager :=
  { m with peers := m.peers.erase addr }

end PeerManager

end RustyTorrent.Peer
