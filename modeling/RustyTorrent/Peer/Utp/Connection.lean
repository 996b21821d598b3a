import RustyTorrent.Peer.Utp.Ledbat
import RustyTorrent.Peer.Utp.Packet
import RustyTorrent.Support.OrdMap
import RustyTorrent.Support.SerialNumber

/-!
# The uTP connection

`peer/utp/connection.rs`: the state machine of one side of a connection.  An
operation takes a connection to the connection it leaves behind, together
with what it returns.  Instants and durations are nanoseconds; the 64-bit
counters are unbounded numbers; sequence numbers keep their sixteen bits.
-/

namespace RustyTorrent.Utp

open Serial

def initialRto : ℕ := second

def maxRto : ℕ := 15 * second

def hardTimeout : ℕ := 60 * second

def maxPendingIn : ℕ := recvWindowBytes / maxDataPayload + 1

def maxSackBytes : ℕ := 64

inductive State where
  | synSent
  | synReceived
  | connected
  | finSent
  | closed
  | reset
  deriving DecidableEq, Repr

structure InFlight where
  seqNr : UInt16
  sendTime : ℕ
  rto : ℕ
  packet : Packet
  deriving DecidableEq, Repr

structure Connection where
  state : State
  sendId : UInt16
  recvId : UInt16
  nextSeqNr : UInt16
  peerSeqNrAcked : UInt16
  outBlocks : List Bytes
  outHead : ℕ
  outLen : ℕ
  inBuf : Bytes
  peerLogicalAcked : ℕ
  pendingIn : List (ℕ × Bytes)
  inFlight : List InFlight
  acceptToken : Option UInt16
  returnPathConfirmed : Bool
  deadline : ℕ
  fastRtxSeq : Option UInt16
  lastFastRtxSeq : Option UInt16
  cc : Ledbat
  deriving DecidableEq, Repr

abbrev seqLe (a b : UInt16) : Bool := serialLe a b

namespace Connection

/-! ## Opening a connection -/

def newInitiator (recvId : UInt16) (now : ℕ) : Connection × Packet :=
  let syn := Packet.new .syn recvId 1 0
  ({ state := .synSent
     sendId := recvId + 1
     recvId := recvId
     nextSeqNr := 2
     peerSeqNrAcked := 0
     peerLogicalAcked := 0
     outBlocks := []
     outHead := 0
     outLen := 0
     inBuf := []
     pendingIn := []
     inFlight := [⟨1, now, initialRto, syn⟩]
     acceptToken := none
     returnPathConfirmed := true
     deadline := now + hardTimeout
     fastRtxSeq := none
     lastFastRtxSeq := none
     cc := Ledbat.new }, syn)

def recvWindow (c : Connection) : UInt32 :=
  UInt32.ofNat (recvWindowBytes - c.inBuf.length % 2 ^ 32)

/-- A packet that carries the current numbers of the connection, as the
source builds its STATE, DATA and FIN packets. -/
def packet (c : Connection) (packetType : PacketType)
    (extensions : List Extension) (payload : Bytes) : Packet where
  packetType := packetType
  connectionId := c.sendId
  timestampMicros := 0
  timestampDiffMicros := 0
  wndSize := c.recvWindow
  seqNr := c.nextSeqNr
  ackNr := c.peerSeqNrAcked
  extensions := extensions
  payload := payload

/-- `new_receiver_with_seq`.  The state is `SynReceived` only inside the
constructor. -/
def newReceiverWithSeq (syn : Packet) (now : ℕ) (initSeq : UInt16) :
    Option (Connection × Packet) :=
  if syn.packetType ≠ .syn then none
  else
    let conn : Connection :=
      { state := .connected
        sendId := syn.connectionId
        recvId := syn.connectionId + 1
        nextSeqNr := initSeq
        peerSeqNrAcked := syn.seqNr
        peerLogicalAcked := 0
        outBlocks := []
        outHead := 0
        outLen := 0
        inBuf := []
        pendingIn := []
        inFlight := []
        acceptToken := some initSeq
        returnPathConfirmed := false
        deadline := now + hardTimeout
        fastRtxSeq := none
        lastFastRtxSeq := none
        cc := Ledbat.new }
    some (conn, conn.packet .state [] [])

/-! ## What the application does -/

def isClosed (c : Connection) : Bool :=
  c.state = .closed || c.state = .reset

def finComplete (c : Connection) : Bool :=
  c.state = .finSent && c.inFlight = []

def enqueueSendBlock (c : Connection) (block : Bytes) : Connection × Bool :=
  if c.state = .finSent ∨ c.state = .closed ∨ c.state = .reset then
    (c, false)
  else if block = [] then (c, false)
  else
    ({ c with
        outLen := c.outLen + block.length
        outBlocks := c.outBlocks ++ [block] }, true)

def takeReceived (c : Connection) (max : ℕ) : Connection × Bytes :=
  let n := min c.inBuf.length max
  ({ c with inBuf := c.inBuf.drop n }, c.inBuf.take n)

def close (c : Connection) : Connection :=
  if c.state = .finSent ∨ c.state = .closed ∨ c.state = .reset ∨
      c.state = .synSent then c
  else { c with state := .finSent }

/-! ## Selective acknowledgements -/

/-- Sets the bit of an offset, growing the mask in steps of four bytes up to
its limit. -/
def sackMark (mask : Bytes) (offset : ℕ) : Bytes :=
  let byte := offset / 8
  if maxSackBytes ≤ byte then mask
  else
    let mask :=
      if mask.length ≤ byte then
        mask ++ List.replicate
          (min ((byte / 4 + 1) * 4) maxSackBytes - mask.length) 0
      else mask
    mask.modify byte (· ||| UInt8.ofNat (2 ^ (offset % 8)))

/-- The mask of the stashed packets: bit `n` stands for the packet `n + 2`
ahead of the frontier. -/
def sackMask (c : Connection) : Bytes :=
  (OrdMap.keys c.pendingIn).foldl
    (fun mask logical =>
      let dist := logical - c.peerLogicalAcked
      if dist < 2 then mask else sackMark mask (dist - 2))
    (List.replicate 4 0)

def buildSack (c : Connection) : Option Extension :=
  if c.pendingIn = [] then none
  else if c.sackMask.all (· = 0) then none
  else some ⟨extSelectiveAck, c.sackMask⟩

def buildStateAck (c : Connection) : Packet :=
  c.packet .state c.buildSack.toList []

/-- Whether a mask with base `ack_nr + 2` reports a sequence number. -/
def isSacked (ackNr : UInt16) (mask : Bytes) (seqNr : UInt16) : Bool :=
  let offset := (seqNr - (ackNr + 2)).toNat
  (mask[offset / 8]?).any fun b => b.toNat.testBit (offset % 8)

def countOnes (b : UInt8) : ℕ :=
  ((List.range 8).filter fun i => b.toNat.testBit i).length

/-- The payload bytes of a list of packets. -/
def payloadBytes (entries : List InFlight) : ℕ :=
  (entries.map fun e => e.packet.payload.length).sum

/-- The retransmission `process_sack` schedules: the lowest packet still in
flight, once for each gap. -/
def scheduleFastRtx (c : Connection) (mask : Bytes) : Connection :=
  if 3 ≤ (mask.map countOnes).sum then
    match c.inFlight with
    | [] => c
    | front :: _ =>
      if c.lastFastRtxSeq ≠ some front.seqNr then
        { c with
          fastRtxSeq := some front.seqNr
          lastFastRtxSeq := some front.seqNr }
      else c
  else c

def processSack (c : Connection) (ackNr : UInt16) (mask : Bytes) :
    Connection × ℕ :=
  let sacked := fun e : InFlight => isSacked ackNr mask e.seqNr
  let kept := c.inFlight.filter fun e => !sacked e
  (({ c with inFlight := kept }).scheduleFastRtx mask,
    payloadBytes (c.inFlight.filter sacked))

/-! ## Receiving -/

def matchesIncoming (c : Connection) (p : Packet) : Bool :=
  p.connectionId = c.recvId ||
    (p.packetType = .syn && p.connectionId = c.sendId)

/-- The acknowledgement test of the accept gate: the window from the packet
before the token to the last packet sent. -/
def ackInTokenWindow (c : Connection) (ackNr : UInt16) : Bool :=
  match c.acceptToken with
  | none => false
  | some token =>
    seqLe (token - 1) ackNr && seqLe ackNr (c.nextSeqNr - 1)

/-- The selective acknowledgement of a packet. -/
def sackOf (p : Packet) : Option Extension :=
  p.extensions.find? fun e => e.kind = extSelectiveAck

/-- The accept gate: a packet other than a SYN that acknowledges a sequence
number of the token window confirms the return path. -/
def confirmReturnPath (c : Connection) (p : Packet) : Connection :=
  if !c.returnPathConfirmed && p.packetType ≠ .syn &&
      c.ackInTokenWindow p.ackNr then
    { c with returnPathConfirmed := true }
  else c

/-- Takes what the packet acknowledges selectively out of flight. -/
def applySack (c : Connection) (p : Packet) : Connection × ℕ :=
  match sackOf p with
  | none => (c, 0)
  | some sack => c.processSack p.ackNr sack.data

/-- Reports acknowledged bytes to the controller. -/
def reportAcked (c : Connection) (p : Packet) (bytes now : ℕ) : Connection :=
  if 0 < bytes then
    { c with
      cc := c.cc.onAck p.timestampDiffMicros.toNat bytes p.wndSize.toNat now }
  else c

/-- What `handle_incoming` does with the acknowledgements of a packet before
it looks at its type. -/
def processAck (c : Connection) (p : Packet) (now : ℕ) : Connection :=
  let acked := fun e : InFlight => seqLe e.seqNr p.ackNr
  let bytes := payloadBytes (c.inFlight.takeWhile acked)
  let c := { c with inFlight := c.inFlight.dropWhile acked }
  let c := c.confirmReturnPath p
  let r := c.applySack p
  r.1.reportAcked p (bytes + r.2) now

/-- One round of the loop of `drain_pending_in`: `none` when it stops. -/
def drainStep (c : Connection) : Option Connection :=
  if c.inBuf.length < recvWindowBytes then
    match OrdMap.get c.pendingIn (c.peerLogicalAcked + 1) with
    | none => none
    | some buf =>
      some
        { c with
          pendingIn := OrdMap.erase (c.peerLogicalAcked + 1) c.pendingIn
          inBuf := c.inBuf ++ buf
          peerSeqNrAcked := c.peerSeqNrAcked + 1
          peerLogicalAcked := c.peerLogicalAcked + 1 }
  else none

/-- Rounds of `drainStep` until it stops, at most `fuel` of them. -/
def drainLoop : ℕ → Connection → Connection
  | 0, c => c
  | fuel + 1, c =>
    match c.drainStep with
    | none => c
    | some c' => drainLoop fuel c'

/-- `drain_pending_in`.  Every round takes an entry out of the stash, so its
size bounds the number of rounds (`drainPendingIn_stops`). -/
def drainPendingIn (c : Connection) : Connection :=
  drainLoop c.pendingIn.length c

/-- The next expected packet: it is delivered, unless the application has
not taken enough of what was delivered before. -/
def acceptInOrder (c : Connection) (p : Packet) : Connection :=
  if recvWindowBytes ≤ c.inBuf.length then c
  else
    ({ c with
        inBuf := c.inBuf ++ p.payload
        peerSeqNrAcked := p.seqNr
        peerLogicalAcked := c.peerLogicalAcked + 1 }).drainPendingIn

/-- A packet ahead of the next expected one: it is stashed under its logical
position, as long as the stash has room. -/
def stashAhead (c : Connection) (dist : ℕ) (payload : Bytes) : Connection :=
  if OrdMap.containsKey c.pendingIn (c.peerLogicalAcked + dist) ||
      decide (c.pendingIn.length < maxPendingIn) then
    { c with
      pendingIn :=
        OrdMap.insert (c.peerLogicalAcked + dist) payload c.pendingIn }
  else c

/-- The DATA arm of `handle_incoming`, without the acknowledgement it
returns. -/
def receiveData (c : Connection) (p : Packet) : Connection :=
  if seqLe p.seqNr c.peerSeqNrAcked then c
  else if (p.seqNr - c.peerSeqNrAcked).toNat = 1 then c.acceptInOrder p
  else c.stashAhead (p.seqNr - c.peerSeqNrAcked).toNat p.payload

def handleIncoming (c : Connection) (p : Packet) (now : ℕ) :
    Connection × Option Packet :=
  if !c.matchesIncoming p then (c, none)
  else
    match p.packetType with
    | .reset => ({ c with state := .reset }, none)
    | .syn =>
      let c := c.processAck p now
      (c, some c.buildStateAck)
    | .state =>
      let c := c.processAck p now
      if c.state = .synSent then
        ({ c with
            state := .connected
            peerSeqNrAcked := p.seqNr - 1 }, none)
      else (c, none)
    | .data =>
      let c := (c.processAck p now).receiveData p
      (c, some c.buildStateAck)
    | .fin =>
      let c := { c.processAck p now with peerSeqNrAcked := p.seqNr }
      let ack := c.buildStateAck
      if c.outLen = 0 ∧ c.inFlight = [] then
        ({ c with state := .closed }, some ack)
      else (c, some ack)

/-! ## Sending -/

/-- Numbers a packet and puts it in flight. -/
def emit (c : Connection) (packetType : PacketType) (payload : Bytes)
    (now : ℕ) : Connection × Packet :=
  let p := c.packet packetType [] payload
  ({ c with
      inFlight := c.inFlight ++ [⟨c.nextSeqNr, now, initialRto, p⟩]
      nextSeqNr := c.nextSeqNr + 1 }, p)

/-- Cuts the next payload off the front block; `none` when there is none. -/
def nextPayload (c : Connection) : Option (Connection × Bytes) :=
  if c.outLen = 0 then none
  else
    match c.outBlocks with
    | [] => none
    | block :: rest =>
      let take := min (block.length - c.outHead) maxDataPayload
      let payload := (block.drop c.outHead).take take
      let c := { c with
        outHead := c.outHead + take
        outLen := c.outLen - take }
      if block.length ≤ c.outHead then
        some ({ c with outBlocks := rest, outHead := 0 }, payload)
      else some (c, payload)

/-- The packetization loop of `pending_send_packets`; `room` is the number of
packets the window still allows. -/
def packetize (now : ℕ) : ℕ → Connection → Connection × List Packet
  | 0, c => (c, [])
  | room + 1, c =>
    match c.nextPayload with
    | none => (c, [])
    | some (c, payload) =>
      let (c, p) := c.emit .data payload now
      let (c, ps) := packetize now room c
      (c, p :: ps)

/-- Resends the first packet in flight with a sequence number. -/
def refreshFirst (seqNr ackNr : UInt16) (now : ℕ) :
    List InFlight → List InFlight × Option Packet
  | [] => ([], none)
  | e :: rest =>
    if e.seqNr = seqNr then
      let p := { e.packet with ackNr := ackNr }
      ({ e with packet := p, sendTime := now } :: rest, some p)
    else
      let (rest, out) := refreshFirst seqNr ackNr now rest
      (e :: rest, out)

/-- The fast retransmission of `pending_send_packets`. -/
def fastRetransmit (c : Connection) (now : ℕ) : Connection × List Packet :=
  match c.fastRtxSeq with
  | none => (c, [])
  | some seq =>
    let (inFlight, out) := refreshFirst seq c.peerSeqNrAcked now c.inFlight
    ({ c with fastRtxSeq := none, inFlight := inFlight }, out.toList)

/-- The send window in packets. -/
def window (c : Connection) : ℕ :=
  c.cc.windowPackets.getD initialWindowPackets

/-- Whether `pending_send_packets` has a FIN to send. -/
def wantsFin (c : Connection) : Bool :=
  c.state = .finSent && c.outLen = 0 &&
    !c.inFlight.any fun e => e.packet.packetType = .fin

def pendingSendPackets (c : Connection) (now : ℕ) :
    Connection × List Packet :=
  if c.isClosed then (c, [])
  else if c.state = .synSent ∨ c.state = .synReceived then (c, [])
  else
    let (c, fast) := c.fastRetransmit now
    let (c, datas) := packetize now (c.window - c.inFlight.length) c
    if c.wantsFin then
      let (c, fin) := c.emit .fin [] now
      (c, fast ++ datas ++ [fin])
    else (c, fast ++ datas)

/-- Resends a packet whose timer has run out, with a doubled timer. -/
def retransmit (ackNr : UInt16) (now : ℕ) (e : InFlight) :
    InFlight × Option Packet :=
  if e.rto ≤ now - e.sendTime then
    let p := { e.packet with ackNr := ackNr }
    ({ e with packet := p, sendTime := now, rto := min (e.rto * 2) maxRto },
      some p)
  else (e, none)

def tick (c : Connection) (now : ℕ) : Connection × List Packet :=
  if c.isClosed then (c, [])
  else if c.deadline ≤ now then ({ c with state := .reset }, [])
  else
    let resent := c.inFlight.map (retransmit c.peerSeqNrAcked now)
    ({ c with inFlight := resent.map Prod.fst },
      resent.filterMap Prod.snd)

end Connection

end RustyTorrent.Utp
