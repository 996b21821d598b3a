import RustyTorrent.Error

/-!
# uTP packets

`peer/utp/packet.rs`: the packet type.  A payload is the list of its bytes;
that several payloads share one buffer is not visible in their contents.
-/

namespace RustyTorrent.Utp

inductive PacketType where
  | data
  | fin
  | state
  | reset
  | syn
  deriving DecidableEq, Repr

structure Extension where
  kind : UInt8
  data : Bytes
  deriving DecidableEq, Repr

def extSelectiveAck : UInt8 := 1

structure Packet where
  packetType : PacketType
  connectionId : UInt16
  timestampMicros : UInt32
  timestampDiffMicros : UInt32
  wndSize : UInt32
  seqNr : UInt16
  ackNr : UInt16
  extensions : List Extension
  payload : Bytes
  deriving DecidableEq, Repr

def Packet.new (packetType : PacketType) (connectionId seqNr ackNr : UInt16) :
    Packet where
  packetType := packetType
  connectionId := connectionId
  timestampMicros := 0
  timestampDiffMicros := 0
  wndSize := 0
  seqNr := seqNr
  ackNr := ackNr
  extensions := []
  payload := []

/-- A packet with the two timestamps the driver writes when it goes out. -/
def Packet.stamped (p : Packet) (stamp diff : UInt32) : Packet :=
  { p with timestampMicros := stamp, timestampDiffMicros := diff }

end RustyTorrent.Utp
