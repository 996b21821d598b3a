import RustyTorrent.Peer.Utp.Connection
import RustyTorrent.Support.Run

/-!
# Two connections and the network between them

The two sides of a connection, and every packet either of them has sent.  The
network may lose, repeat, delay and reorder packets: a side may receive any
packet the other side has ever sent, any number of times, or never.  The two
timestamps of a packet are written by the driver when it goes out, so they may
have any value when it arrives.

Sequence numbers on the wire have sixteen bits.  `Party.used` counts the ones
a side has used without wrapping around, and a `Datagram` records the
positions that its two numbers stood for when it was sent.
-/

namespace RustyTorrent.Utp

open Serial

/-- A packet on the network with the positions of its two numbers: the place
of its sequence number among the sender's and the place of its
acknowledgement among the other side's. -/
structure Datagram where
  packet : Packet
  pos : ℕ
  ack : ℕ
  deriving DecidableEq, Repr

/-- A side of the connection: its state, the position of its next sequence
number, what it has put on the network, and the byte streams at its
application: the accepted blocks and everything `take_received` returned. -/
structure Party where
  conn : Connection
  used : ℕ
  sent : List Datagram
  offered : Bytes
  taken : Bytes
  deriving DecidableEq, Repr

/-- What a side may do. -/
inductive Action where
  | enqueue (block : Bytes)
  | close
  | take (max : ℕ)
  | send (now : ℕ)
  | tick (now : ℕ)
  | receive (d : Datagram) (stamp diff : UInt32) (now : ℕ)
  deriving DecidableEq, Repr

namespace Action

/-- The actions of an application that writes. -/
def writes : Action → Bool
  | .enqueue _ | .close => true
  | _ => false

/-- What an action receives. -/
def received : Action → Option Datagram
  | .receive d _ _ _ => some d
  | _ => none

end Action

namespace Party

/-- The datagram of a packet sent by a side that has used `used` positions
while the other side has used `peerUsed`. -/
def datagram (used peerUsed : ℕ) (p : Packet) : Datagram :=
  ⟨p, lift used p.seqNr, lift (peerUsed - 1) p.ackNr⟩

/-- A side after an operation that leaves it with the given connection and
sends packets. -/
def put (me peer : Party) (conn : Connection) (packets : List Packet) :
    Party :=
  let used := me.used + (conn.nextSeqNr - me.conn.nextSeqNr).toNat
  { me with
    conn := conn
    used := used
    sent := me.sent ++ packets.map (datagram used peer.used) }

/-- The effect of an action on the side that takes it. -/
def act (me peer : Party) : Action → Party
  | .enqueue block =>
    let r := me.conn.enqueueSendBlock block
    { me with
      conn := r.1
      offered := if r.2 then me.offered ++ block else me.offered }
  | .close => { me with conn := me.conn.close }
  | .take max =>
    let r := me.conn.takeReceived max
    { me with conn := r.1, taken := me.taken ++ r.2 }
  | .send now =>
    let r := me.conn.pendingSendPackets now
    me.put peer r.1 r.2
  | .tick now =>
    let r := me.conn.tick now
    me.put peer r.1 r.2
  | .receive d stamp diff now =>
    let r := me.conn.handleIncoming (d.packet.stamped stamp diff) now
    me.put peer r.1 r.2.toList

theorem put_nil {me peer : Party} {conn : Connection}
    (h : conn.nextSeqNr = me.conn.nextSeqNr) :
    me.put peer conn [] = { me with conn := conn } := by
  simp [put, h]

theorem act_receive_of_not_matches {me peer : Party} {d : Datagram}
    {stamp diff : UInt32}
    (h : me.conn.matchesIncoming (d.packet.stamped stamp diff) = false)
    (now : ℕ) : me.act peer (.receive d stamp diff now) = me := by
  have hnone : me.conn.handleIncoming (d.packet.stamped stamp diff) now =
      (me.conn, none) := by
    rw [Connection.handleIncoming, h]
    rfl
  simp [act, hnone, put]

end Party

/-- The two sides. -/
structure Net where
  initiator : Party
  receiver : Party
  deriving DecidableEq, Repr

/-- Which side acts. -/
inductive Side where
  | initiator
  | receiver
  deriving DecidableEq, Repr

namespace Net

/-- The side that acts and the other one. -/
def me (n : Net) : Side → Party
  | .initiator => n.initiator
  | .receiver => n.receiver

def peer (n : Net) : Side → Party
  | .initiator => n.receiver
  | .receiver => n.initiator

/-- An action of one side. -/
def act (n : Net) : Side × Action → Net
  | (.initiator, a) => { n with initiator := n.initiator.act n.receiver a }
  | (.receiver, a) => { n with receiver := n.receiver.act n.initiator a }

/-- The receiving side writes and closes only when its return path is
confirmed, as the driver has it. -/
def Confirmed (n : Net) (a : Side × Action) : Prop :=
  a.1 = .receiver → a.2.writes = true →
    n.receiver.conn.returnPathConfirmed = true

/-- A side receives only what the other one sent. -/
def Delivers (n : Net) (a : Side × Action) : Prop :=
  ∀ d ∈ a.2.received, d ∈ (n.peer a.1).sent

/-- No packet arrives after its sender has moved `2 ^ 15` or more sequence
numbers past it. -/
def FreshSeq (n : Net) (a : Side × Action) : Prop :=
  ∀ d ∈ a.2.received, (n.peer a.1).used ≤ d.pos + 2 ^ 15

/-- No packet other than a SYN arrives after the side it arrives at has moved
`2 ^ 15` or more sequence numbers past the one it acknowledges. -/
def FreshAck (n : Net) (a : Side × Action) : Prop :=
  ∀ d ∈ a.2.received,
    d.packet.packetType ≠ .syn → (n.me a.1).used ≤ d.ack + 2 ^ 15

instance (n : Net) (a : Side × Action) : Decidable (n.Confirmed a) :=
  inferInstanceAs (Decidable (_ → _ → _))

instance (n : Net) (a : Side × Action) : Decidable (n.Delivers a) :=
  inferInstanceAs (Decidable (∀ d ∈ a.2.received, d ∈ (n.peer a.1).sent))

instance (n : Net) (a : Side × Action) : Decidable (n.FreshSeq a) :=
  inferInstanceAs (Decidable (∀ d ∈ a.2.received, _ ≤ d.pos + 2 ^ 15))

instance (n : Net) (a : Side × Action) : Decidable (n.FreshAck a) :=
  inferInstanceAs (Decidable
    (∀ d ∈ a.2.received, d.packet.packetType ≠ .syn → _ ≤ d.ack + 2 ^ 15))

/-- The first position of the receiving side's numbers.  It is moved up by one
round of the sixteen bits, so that the position before it exists. -/
def firstPos (initSeq : UInt16) : ℕ := 65536 + initSeq.toNat

/-- The two sides just after the receiving side has been created for the
initiator's SYN: the SYN and the STATE that answers it are on the network. -/
def opened (recvId initSeq : UInt16) (now now' : ℕ) : Option Net :=
  let (x, syn) := Connection.newInitiator recvId now
  (Connection.newReceiverWithSeq syn now' initSeq).map fun (y, state) =>
    { initiator := ⟨x, 2, [⟨syn, 1, 0⟩], [], []⟩
      receiver :=
        ⟨y, firstPos initSeq, [⟨state, firstPos initSeq, 1⟩], [], []⟩ }

/-- The network of a run in which packets arrive before their sequence number
is half a circle old. -/
def freshSeq : System Net (Side × Action) where
  next := Net.act
  may n a := n.Confirmed a ∧ n.Delivers a ∧ n.FreshSeq a

/-- The network of a run in which neither number of a packet is half a circle
old when it arrives. -/
def fresh : System Net (Side × Action) where
  next := Net.act
  may n a := n.Confirmed a ∧ n.Delivers a ∧ n.FreshSeq a ∧ n.FreshAck a

instance (n : Net) (a : Side × Action) : Decidable (fresh.may n a) :=
  inferInstanceAs (Decidable
    (n.Confirmed a ∧ n.Delivers a ∧ n.FreshSeq a ∧ n.FreshAck a))

end Net

end RustyTorrent.Utp
