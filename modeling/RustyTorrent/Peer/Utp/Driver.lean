import RustyTorrent.Peer.Extension
import RustyTorrent.Peer.Utp.Connection
import RustyTorrent.Support.Run
import Mathlib.Data.List.AList

/-!
# The uTP driver

`peer/utp/socket.rs`: the task that owns every connection of a socket, the
streams it shares with the application, and the channels between them.  A
driver step takes one datagram, one command or one connection's share of a
tick, and ends with `collect_after`; none of them waits in between.  The
application reads, writes, shuts down and drops its streams between the steps
of the driver, in any order.

Datagrams that do not decode are ignored and are left out.  Each step reads
the clock once, in nanoseconds since the driver started.  The timestamps that
`flush` writes into each packet are left out, as in the connection.
-/

namespace RustyTorrent.Utp

def maxConns : ℕ := 1024

def sendBufCapBytes : ℕ := 256 * 1024

def deliverMsgBytes : ℕ := 64 * 1024

def deliverQueueMsgs : ℕ := 16

/-- `ConnKey`: the address of the peer and our `recv_id`. -/
abbrev ConnKey := SocketAddr × UInt16

/-! ## Streams -/

/-- `SendGate`; `waiter` says whether the waker of a blocked writer is
registered. -/
structure SendGate where
  used : ℕ
  closed : Bool
  waiter : Bool
  deriving DecidableEq, Repr

namespace SendGate

def new : SendGate := ⟨0, false, false⟩

def available (g : SendGate) : ℕ := sendBufCapBytes - g.used

def reserve (g : SendGate) (want : ℕ) : SendGate × ℕ :=
  let n := min want g.available
  ({ g with used := g.used + n }, n)

/-- `wake`: the waker is taken and its writer is woken. -/
def wake (g : SendGate) : SendGate := { g with waiter := false }

/-- A blocked writer registers its waker. -/
def park (g : SendGate) : SendGate := { g with waiter := true }

def release (g : SendGate) (n : ℕ) : SendGate :=
  if n = 0 then g else { g with used := g.used - n }.wake

def close (g : SendGate) : SendGate := { g with closed := true }.wake

end SendGate

/-- Who has the receive half of a stream: the entry of a dial that has not
connected (`pending`, with the number of the dial), the entry of an inbound
connection whose return path is not confirmed (`pending_accept`), the
application, or nobody. -/
inductive Holder where
  | dial (number : ℕ)
  | accept
  | application
  | gone
  deriving DecidableEq, Repr

/-- Why the driver dropped the send half of a delivery queue: the connection
was Closed or its FIN had completed and the application saw its end, it was
Reset, or it ended without an application to see it. -/
inductive Ending where
  | eof
  | reset
  | unseen
  deriving DecidableEq, Repr

/-- A `UtpStream` with what it shares with the driver: the delivery queue and
the gate.  `accepted` and `placed` record the bytes the connection has
accepted into its in-order stream and those placed in the queue. -/
structure UtpStream where
  key : ConnKey
  holder : Holder
  queue : List Bytes
  readRem : Bytes
  shutdownSent : Bool
  gate : SendGate
  ending : Option Ending
  accepted : Bytes
  placed : Bytes
  deriving DecidableEq, Repr

/-- `Command`.  A dial is named by its number, the gate of a writer by its
stream. -/
inductive Command where
  | connect (peer : SocketAddr) (dial : ℕ)
  | send (key : ConnKey) (data : Bytes) (stream : ℕ)
  | close (key : ConnKey)
  deriving DecidableEq, Repr

/-- What `poll_write` returns. -/
inductive Written where
  | pending
  | brokenPipe
  | accepted (n : ℕ)
  deriving DecidableEq, Repr

namespace UtpStream

/-- A fresh stream with an empty queue. -/
def new (key : ConnKey) (holder : Holder) : UtpStream where
  key := key
  holder := holder
  queue := []
  readRem := []
  shutdownSent := false
  gate := SendGate.new
  ending := none
  accepted := []
  placed := []

/-- `capacity`: the free slots of the delivery queue. -/
def capacity (st : UtpStream) : ℕ := deliverQueueMsgs - st.queue.length

/-- `poll_read` into a buffer with the given room; `none` is pending, and no
bytes from an ended stream are its end of file. -/
def pollRead (st : UtpStream) (room : ℕ) : UtpStream × Option Bytes :=
  if st.readRem ≠ [] then
    ({ st with readRem := st.readRem.drop room }, some (st.readRem.take room))
  else
    match st.queue with
    | chunk :: queue =>
      ({ st with queue := queue, readRem := chunk.drop room },
        some (chunk.take room))
    | [] => (st, if st.ending.isSome then some [] else none)

/-- `peek_first_byte`, once it returns. -/
def peekFirstByte (st : UtpStream) : UtpStream × Option UInt8 :=
  if st.readRem ≠ [] then (st, st.readRem.head?)
  else
    match st.queue with
    | chunk :: queue =>
      ({ st with queue := queue, readRem := chunk }, chunk.head?)
    | [] => (st, none)

/-- `poll_write`.  One poll is one event, so what it checks again after it has
registered the waker is as it was before. -/
def pollWrite (st : UtpStream) (id : ℕ) (buf : Bytes) :
    UtpStream × List Command × Written :=
  if st.gate.closed then (st, [], .brokenPipe)
  else if buf = [] then (st, [], .accepted 0)
  else
    let r := st.gate.reserve buf.length
    if 0 < r.2 then
      ({ st with gate := r.1 }, [.send st.key (buf.take r.2) id],
        .accepted r.2)
    else ({ st with gate := st.gate.park }, [], .pending)

def pollShutdown (st : UtpStream) : UtpStream × List Command :=
  if st.shutdownSent then (st, [])
  else ({ st with shutdownSent := true }, [.close st.key])

/-- The receive half is dropped with what is in the queue. -/
def discard (st : UtpStream) : UtpStream :=
  { st with holder := .gone, queue := [] }

def drop (st : UtpStream) : UtpStream × List Command :=
  (st.discard, if st.shutdownSent then [] else [.close st.key])

/-- The stream is sent to somebody who may no longer want it. -/
def handOver (st : UtpStream) (wanted : Bool) : UtpStream × List Command :=
  if wanted then ({ st with holder := .application }, []) else st.drop

end UtpStream

/-! ## One connection -/

/-- `Entry`.  The sender of the delivery queue, the gate and the held receive
half are those of its stream. -/
structure Entry where
  conn : Connection
  stream : ℕ
  lastOutstanding : ℕ
  lastTimestampDiff : UInt32
  deriving DecidableEq, Repr

def Connection.outstandingSendBytes (c : Connection) : ℕ :=
  c.outLen + Connection.payloadBytes c.inFlight

/-- The delivery loop of `collect_after`, given the free slots.  Only the
driver sends, so each round that goes on has used one of them; sending fails
only when nobody has the receive half, and the chunk is lost. -/
def deliver : ℕ → Connection → UtpStream → Connection × UtpStream
  | 0, c, st => (c, st)
  | slots + 1, c, st =>
    let r := c.takeReceived deliverMsgBytes
    if r.2 = [] then (r.1, st)
    else if st.holder = .gone then (r.1, st)
    else
      deliver slots r.1
        { st with queue := st.queue ++ [r.2], placed := st.placed ++ r.2 }

/-- What `collect_after` leaves of a connection: its entry unless it was
reaped, its stream, the commands of dropped streams and the packets to
send. -/
structure Collected where
  entry : Option Entry
  stream : UtpStream
  commands : List Command
  outgoing : List Packet
  deriving DecidableEq, Repr

/-- The stream of a dial is handed over once the connection is Connected;
`waiting` says which dials are still waited for. -/
def UtpStream.notify (st : UtpStream) (state : State) (waiting : ℕ → Bool) :
    UtpStream × List Command :=
  match state, st.holder with
  | .connected, .dial number => st.handOver (waiting number)
  | _, _ => (st, [])

/-- The end of `collect_after` for a connection that is reaped. -/
def UtpStream.reap (st : UtpStream) (conn : Connection) :
    UtpStream × List Command :=
  let ending : Ending :=
    if conn.state = .reset then .reset
    else if st.holder = .application then .eof
    else .unseen
  let st : UtpStream :=
    { st with
      gate := (st.gate.release conn.outstandingSendBytes).close
      ending := some ending }
  match st.holder with
  | .dial _ => (st.discard, [])
  | .accept => st.drop
  | _ => (st, [])

/-- `collect_after` on one connection. -/
def Entry.collect (e : Entry) (st : UtpStream) (waiting : ℕ → Bool)
    (now : ℕ) : Collected :=
  let d := deliver st.capacity e.conn st
  let sent := d.1.pendingSendPackets now
  let conn := sent.1
  let outstanding := conn.outstandingSendBytes
  let st : UtpStream :=
    { d.2 with gate := d.2.gate.release (e.lastOutstanding - outstanding) }
  let handed := st.notify conn.state waiting
  if conn.isClosed || conn.finComplete then
    let reaped := handed.1.reap conn
    ⟨none, reaped.1, handed.2 ++ reaped.2, sent.2⟩
  else
    ⟨some { e with conn := conn, lastOutstanding := outstanding }, handed.1,
      handed.2, sent.2⟩

/-! ## The endpoint -/

/-- What `flush` sends: packets for a peer with the delay they echo. -/
structure Flush where
  peer : SocketAddr
  diff : UInt32
  packets : List Packet
  deriving DecidableEq, Repr

/-- The driver with the streams and channels around it.  `dials` says for each
dial whether `connect` still waits for it, `listening` whether the socket and
with it the accept channel are still there. -/
structure Endpoint where
  conns : AList fun _ : ConnKey => Entry
  streams : List UtpStream
  commands : List Command
  dials : List Bool
  listening : Bool
  sent : List Flush

namespace Endpoint

/-- A socket that has just been bound. -/
def start : Endpoint := ⟨∅, [], [], [], true, []⟩

/-- The entry of a connection with its stream. -/
def find (s : Endpoint) (key : ConnKey) : Option (Entry × UtpStream) :=
  (s.conns.lookup key).bind fun e =>
    (s.streams[e.stream]?).map fun st => (e, st)

/-- `contains_key`. -/
def contains (s : Endpoint) (key : ConnKey) : Bool :=
  (s.conns.lookup key).isSome

/-- A connection and its stream after a change. -/
def put (s : Endpoint) (key : ConnKey) (e : Entry) (st : UtpStream) :
    Endpoint :=
  { s with
    conns := s.conns.insert key e
    streams := s.streams.set e.stream st }

/-- A connection is removed and leaves its stream behind. -/
def remove (s : Endpoint) (key : ConnKey) (id : ℕ) (st : UtpStream) :
    Endpoint :=
  { s with
    conns := s.conns.erase key
    streams := s.streams.set id st }

/-- A new connection with a fresh stream. -/
def install (s : Endpoint) (key : ConnKey) (conn : Connection) (holder : Holder)
    (diff : UInt32) : Endpoint :=
  { s with
    conns := s.conns.insert key ⟨conn, s.streams.length, 0, diff⟩
    streams := s.streams ++ [UtpStream.new key holder] }

/-- Commands enter the channel. -/
def enqueue (s : Endpoint) (commands : List Command) : Endpoint :=
  { s with commands := s.commands ++ commands }

/-- An action on one stream. -/
def onStream (s : Endpoint) (id : ℕ)
    (f : UtpStream → UtpStream × List Command) : Endpoint :=
  match s.streams[id]? with
  | none => s
  | some st => { s with streams := s.streams.set id (f st).1 }.enqueue (f st).2

/-- Whether a dial is still waited for. -/
def waiting (s : Endpoint) (number : ℕ) : Bool := s.dials.getD number false

/-- What `collect_after` leaves of a connection takes its place. -/
def absorb (s : Endpoint) (key : ConnKey) (id : ℕ) (r : Collected) :
    Endpoint :=
  match r.entry with
  | some e => (s.put key e r.stream).enqueue r.commands
  | none => (s.remove key id r.stream).enqueue r.commands

def collectAfter (s : Endpoint) (key : ConnKey) (now : ℕ) :
    Endpoint × List Packet :=
  match s.find key with
  | none => (s, [])
  | some (e, st) =>
    let r := e.collect st s.waiting now
    (s.absorb key e.stream r, r.outgoing)

def flush (s : Endpoint) (peer : SocketAddr) (diff : UInt32)
    (packets : List Packet) : Endpoint :=
  { s with sent := s.sent ++ [⟨peer, diff, packets⟩] }

def diffFor (s : Endpoint) (key : ConnKey) : UInt32 :=
  match s.conns.lookup key with
  | some e => e.lastTimestampDiff
  | none => 0

/-! ## Datagrams -/

def nowMicros (now : ℕ) : UInt32 := UInt32.ofNat (now / 1000)

/-- A packet is handed to an existing connection. -/
def receive (s : Endpoint) (key : ConnKey) (p : Packet) (recvDiff : UInt32)
    (now : ℕ) : Endpoint × List Packet :=
  match s.find key with
  | none => (s, [])
  | some (e, st) =>
    let r := e.conn.handleIncoming p now
    let fresh := r.1.inBuf.drop e.conn.inBuf.length
    (s.put key { e with conn := r.1, lastTimestampDiff := recvDiff }
      { st with accepted := st.accepted ++ fresh }, r.2.toList)

/-- A packet for an existing connection, with `collect_after`. -/
def handle (s : Endpoint) (key : ConnKey) (p : Packet) (recvDiff : UInt32)
    (now : ℕ) : Endpoint × List Packet :=
  let r := s.receive key p recvDiff now
  let c := r.1.collectAfter key now
  (c.1, r.2 ++ c.2)

/-- A held inbound stream goes to `accept` once the return path is
confirmed. -/
def surface (s : Endpoint) (key : ConnKey) : Endpoint :=
  match s.find key with
  | none => s
  | some (e, st) =>
    if e.conn.returnPathConfirmed ∧ st.holder = .accept then
      let r := st.handOver s.listening
      (s.put key e r.1).enqueue r.2
    else s

/-- `on_datagram` on a packet; `initSeq` is the random first sequence number
of an accepted connection. -/
def onDatagram (s : Endpoint) (p : Packet) (peer : SocketAddr) (now : ℕ)
    (initSeq : UInt16) : Endpoint :=
  let recvDiff := nowMicros now - p.timestampMicros
  let key : ConnKey := (peer, p.connectionId)
  if s.contains key then
    let r := s.handle key p recvDiff now
    (r.1.surface key).flush peer recvDiff r.2
  else if p.packetType = .syn then
    let recvKey : ConnKey := (peer, p.connectionId + 1)
    if s.contains recvKey then
      let r := s.handle recvKey p recvDiff now
      r.1.flush peer recvDiff r.2
    else if maxConns ≤ s.conns.entries.length then
      s.flush peer recvDiff []
    else
      match Connection.newReceiverWithSeq p now initSeq with
      | some (conn, state) =>
        (s.install recvKey conn .accept recvDiff).flush peer recvDiff [state]
      | none => s.flush peer recvDiff []
  else s.flush peer recvDiff []

/-! ## Commands and ticks -/

/-- What `collect_after` and `flush` do at the end of a command or a tick. -/
def conclude (s : Endpoint) (key : ConnKey) (now : ℕ)
    (outgoing : List Packet) : Endpoint :=
  let c := s.collectAfter key now
  c.1.flush key.1 (c.1.diffFor key) (outgoing ++ c.2)

/-- The connection takes a block, or its writer gets the credit back. -/
def enqueueBlock (s : Endpoint) (key : ConnKey) (data : Bytes) (writer : ℕ) :
    Endpoint :=
  let refund := fun st : UtpStream =>
    ({ st with gate := st.gate.release data.length }, [])
  match s.find key with
  | none => s.onStream writer refund
  | some (e, st) =>
    let r := e.conn.enqueueSendBlock data
    let s := s.put key { e with conn := r.1 } st
    if r.2 then s else s.onStream writer refund

/-- The connection is closed for writing. -/
def closeConn (s : Endpoint) (key : ConnKey) : Endpoint :=
  match s.find key with
  | none => s
  | some (e, st) =>
    s.put key { e with conn := e.conn.close }
      { st with gate := st.gate.close }

/-- `on_command`; `recvId` is what `free_recv_id` returns for a dial. -/
def onCommand (s : Endpoint) (now : ℕ) (recvId : UInt16) :
    Command → Endpoint
  | .connect peer dial =>
    let r := Connection.newInitiator recvId now
    (s.install (peer, recvId) r.1 (.dial dial) 0).flush peer 0 [r.2]
  | .send key data writer => (s.enqueueBlock key data writer).conclude key now []
  | .close key => (s.closeConn key).conclude key now []

/-- The round of `on_tick` for one connection. -/
def onTick (s : Endpoint) (key : ConnKey) (now : ℕ) : Endpoint :=
  match s.find key with
  | none => s.conclude key now []
  | some (e, st) =>
    let r := e.conn.tick now
    (s.put key { e with conn := r.1 } st).conclude key now r.2

/-! ## Steps -/

/-- What can happen at an endpoint: steps of the driver (a datagram, the next
command, a round of a tick) and actions of the application. -/
inductive Event where
  | datagram (p : Packet) (peer : SocketAddr) (now : ℕ) (initSeq : UInt16)
  | command (now : ℕ) (recvId : UInt16)
  | tick (key : ConnKey) (now : ℕ)
  | connect (peer : SocketAddr)
  | giveUp (dial : ℕ)
  | dropSocket
  | read (id room : ℕ)
  | peek (id : ℕ)
  | write (id : ℕ) (buf : Bytes)
  | shutdown (id : ℕ)
  | drop (id : ℕ)
  deriving DecidableEq, Repr

/-- The effect of an event. -/
def next (s : Endpoint) : Event → Endpoint
  | .datagram p peer now initSeq => s.onDatagram p peer now initSeq
  | .command now recvId =>
    match s.commands with
    | [] => s
    | c :: rest => { s with commands := rest }.onCommand now recvId c
  | .tick key now => s.onTick key now
  | .connect peer =>
    { s with dials := s.dials ++ [true] }.enqueue
      [.connect peer s.dials.length]
  | .giveUp dial => { s with dials := s.dials.set dial false }
  | .dropSocket => { s with listening := false }
  | .read id room => s.onStream id fun st => ((st.pollRead room).1, [])
  | .peek id => s.onStream id fun st => (st.peekFirstByte.1, [])
  | .write id buf => s.onStream id fun st =>
    ((st.pollWrite id buf).1, (st.pollWrite id buf).2.1)
  | .shutdown id => s.onStream id UtpStream.pollShutdown
  | .drop id => s.onStream id UtpStream.drop

/-- Whether an identifier is one `free_recv_id` may return for a peer. -/
def freeRecvId (s : Endpoint) (peer : SocketAddr) (id : UInt16) : Bool :=
  !s.contains (peer, id) && !s.contains (peer, id + 1)

/-- Whether the application has a stream. -/
def atApplication (s : Endpoint) (id : ℕ) : Bool :=
  (s.streams[id]?).any fun st => st.holder = .application

/-- When an event may happen. -/
def may (s : Endpoint) : Event → Bool
  | .command _ recvId =>
    match s.commands with
    | [] => false
    | .connect peer _ :: _ => s.freeRecvId peer recvId
    | _ :: _ => true
  | .tick key _ => s.contains key
  | .connect _ => s.listening
  | .read id _ | .peek id | .write id _ | .shutdown id | .drop id =>
    s.atApplication id
  | _ => true

end Endpoint

/-- The endpoint as a system of events. -/
def driver : System Endpoint Endpoint.Event :=
  ⟨Endpoint.next, fun s a => s.may a = true⟩

instance (s : Endpoint) (a : Endpoint.Event) : Decidable (driver.may s a) :=
  inferInstanceAs (Decidable (s.may a = true))

end RustyTorrent.Utp
