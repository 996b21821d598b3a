import RustyTorrent.Metainfo.Torrent
import RustyTorrent.Support.Program

/-!
# The BitTorrent handshake

`peer/handshake.rs`: the 68 bytes both sides open with, the capabilities they
advertise in the eight reserved ones, and the side that answers.  The reserved
bytes the engine has set are a parameter.
-/

namespace RustyTorrent.Peer

open Metainfo Program

def pstr : Bytes := ascii "BitTorrent protocol"

def pstrlen : UInt8 := 19

def handshakeLen : ℕ := 1 + 19 + 8 + 20 + 20

abbrev PeerId := { b : Bytes // b.length = 20 }

structure Handshake where
  reserved : Vector UInt8 8
  infoHash : Digest
  peerId : PeerId
  deriving DecidableEq, Repr

namespace Handshake

/-- `RESERVED_BIT_DHT`, in byte 7. -/
def reservedBitDht : UInt8 := 0x01

/-- `RESERVED_BIT_EXTENSION`, in byte 5. -/
def reservedBitExtension : UInt8 := 0x10

/-- `RESERVED_BIT_FAST`, in byte 7. -/
def reservedBitFast : UInt8 := 0x04

def extensionBytesFrom (dhtEnabled extensionProtocol : Bool) :
    Vector UInt8 8 :=
  let r : Vector UInt8 8 := Vector.replicate 8 0
  let r := if dhtEnabled then r.set 7 (r[7] ||| reservedBitDht) else r
  if extensionProtocol then
    let r := r.set 5 (r[5] ||| reservedBitExtension)
    r.set 7 (r[7] ||| reservedBitFast)
  else r

def supportsFastExtensions (reserved : Vector UInt8 8) : Bool :=
  reserved[7] &&& reservedBitFast ≠ 0

def supportsExtensionProtocol (reserved : Vector UInt8 8) : Bool :=
  reserved[5] &&& reservedBitExtension ≠ 0

/-- Whether the reserved bytes advertise the DHT. -/
def supportsDht (reserved : Vector UInt8 8) : Bool :=
  reserved[7] &&& reservedBitDht ≠ 0

/-- The engine always advertises both message extensions, and the DHT when it
is enabled. -/
theorem supports_extensionBytesFrom (dhtEnabled : Bool) :
    supportsExtensionProtocol (extensionBytesFrom dhtEnabled true) = true ∧
    supportsFastExtensions (extensionBytesFrom dhtEnabled true) = true ∧
    supportsDht (extensionBytesFrom dhtEnabled true) = dhtEnabled := by
  cases dhtEnabled <;> decide

/-! ## The bytes on the wire -/

def encode (h : Handshake) : Bytes :=
  [pstrlen] ++ pstr ++ h.reserved.toList ++ h.infoHash ++ h.peerId

/-- `buf[i..i + n]` of a long enough buffer. -/
def field (buf : Bytes) (i n : ℕ) (h : i + n ≤ buf.length) :
    { b : Bytes // b.length = n } :=
  ⟨(buf.drop i).take n, by
    rw [List.length_take, List.length_drop]
    omega⟩

def decode (buf : Bytes) : Except Error Handshake :=
  if h : buf.length < handshakeLen then
    .error (.handshake s!"handshake too short: {buf.length}")
  else
    have hlen : 68 ≤ buf.length := Nat.le_of_not_lt h
    if buf.getD 0 0 ≠ pstrlen then
      let first := (buf.getD 0 0).toNat
      .error (.handshake s!"bad pstrlen: {first} (expected {pstrlen})")
    else if (buf.drop 1).take 19 ≠ pstr then
      .error (.handshake "bad protocol string")
    else
      let reserved := field buf 20 8 (by omega)
      .ok ⟨⟨reserved.1.toArray, reserved.2⟩, field buf 28 20 (by omega),
        field buf 48 20 (by omega)⟩

/-- `perform_incoming`: read theirs, verify the info-hash, send ours. -/
def performIncoming (reserved : Vector UInt8 8) (infoHash : Digest)
    (peerId : PeerId) : Program UInt8 Error Handshake := do
  let buf ← readExact handshakeLen
  match decode buf with
  | .error e => .fail e
  | .ok theirs =>
    if theirs.infoHash ≠ infoHash then
      .fail (.handshake "info_hash mismatch")
    else do
      writeAll (encode ⟨reserved, infoHash, peerId⟩)
      return theirs

end Handshake

end RustyTorrent.Peer
