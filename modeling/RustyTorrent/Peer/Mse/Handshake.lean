import RustyTorrent.Peer.Message
import RustyTorrent.Peer.Mse.Primitives
import RustyTorrent.Support.Program

/-!
# The handshake of message stream encryption

`peer/mse/handshake.rs`: the initiator and the receiver as programs over the
connection.  Their random choices, the key pairs and the paddings, are
parameters.  Each program is cut at the points where it has to wait for the
other side; the numbers in the comments are those of the source.
-/

namespace RustyTorrent.Peer.Mse

open Metainfo

open Program

/-- `MseError`.  `panicked` is the assertion in `dh::to_bytes`. -/
inductive MseError where
  | io (text : String)
  | handshake (msg : String)
  | noCommonCrypto
  | unknownSkey
  | panicked
  deriving DecidableEq, Repr

/-- A conversation of the handshake. -/
abbrev Session := Program UInt8 MseError

def padMax : ℕ := 512

def yLen : ℕ := keyLen

def syncSearchLimit : ℕ := padMax + 20

def cryptoPlaintext : UInt32 := 0x01

def cryptoRc4 : UInt32 := 0x02

def vc : Bytes := List.replicate 8 0

/-- A padding of the length the generator draws. -/
abbrev Pad := { b : Bytes // b.length ≤ padMax }

/-- The random choices of the initiator. -/
structure OutgoingRandom where
  key : Keypair
  padA : Pad
  padC : Pad

/-- The random choices of the receiver. -/
structure IncomingRandom where
  key : Keypair
  padB : Pad
  padD : Pad

/-- The two ciphers of `EncryptedStream`; the connection goes on below it. -/
structure EncryptedStream where
  readCipher : Rc4
  writeCipher : Rc4
  deriving DecidableEq, Repr

def cryptoProvideBytes : Bytes := be32 (cryptoPlaintext ||| cryptoRc4)

/-- `dh::to_bytes`, with its assertion. -/
def toBytes (n : ℕ) : Session Bytes :=
  if n < 256 ^ keyLen then return toBytesBe keyLen n else .fail .panicked

def fromBytes (b : Bytes) : ℕ := ofBytesBe b

/-- `validate_peer_public` with the error of its callers. -/
def checkPublic (y : ℕ) : Session Unit :=
  match validatePeerPublic y with
  | .ok () => return ()
  | .error why => .fail (.handshake ("bad peer DH key: " ++ why))

/-- A padding is written unless it is empty. -/
def writePad (pad : Bytes) : Session Unit :=
  if pad.isEmpty then return () else writeAll pad

/-- The bytes of `Ya` the caller has not read, if there are any. -/
def readRest (n : ℕ) : Session Bytes :=
  if 0 < n then readExact n else return []

/-- The exclusive or of two digests. -/
def xorBytes (a b : Bytes) : Bytes := List.zipWith (· ^^^ ·) a b

/-- Bytes that are read and deciphered, with the cipher after them. -/
def readProcessed (c : Rc4) (n : ℕ) : Session (Rc4 × Bytes) := do
  let b ← readExact n
  return c.process b

/-- Bytes that are read, deciphered and dropped, if there are any. -/
def drain (c : Rc4) (n : ℕ) : Session Rc4 :=
  if n = 0 then return c
  else do
    let b ← readProcessed c n
    return b.1

/-- The sliding-window search: at most `rounds` bytes are read, one at a time,
until the last ones are the needle. -/
def syncLoop (needle : Bytes) (e : MseError) : ℕ → Bytes → Session Unit
  | 0, _ => .fail e
  | rounds + 1, window => do
    let byte ← readExact 1
    let window := window ++ byte
    let window :=
      if needle.length < window.length then window.drop 1 else window
    if window.length = needle.length ∧ window = needle then return ()
    else syncLoop needle e rounds window

def syncOnPattern (needle : Bytes) : Session Unit :=
  syncLoop needle
    (.handshake "could not sync on HASH(req1, S) within search limit")
    syncSearchLimit []

/-- `sync_on_encrypted_vc`: the cipher just past the verification constant. -/
def syncOnEncryptedVc (inCipher : Rc4) : Session Rc4 := do
  let probe := inCipher.process vc
  syncLoop probe.2 (.handshake "could not sync on encrypted VC")
    (syncSearchLimit + 8) []
  return probe.1

section Handshake

variable (sha1Of : Bytes → Digest)

def sha1Concat (parts : List Bytes) : Bytes := (sha1Of parts.flatten).1

def deriveRc4 (tag : String) (s : Bytes) (skey : Digest) : Rc4 :=
  (Rc4.new (sha1Concat sha1Of [ascii tag, s, skey.1])).skip 1024

/-- `HASH('req1', S)`. -/
def req1 (s : Bytes) : Bytes := sha1Concat sha1Of [ascii "req1", s]

/-- `HASH('req2', SKEY)`. -/
def req2 (skey : Digest) : Bytes := sha1Concat sha1Of [ascii "req2", skey.1]

/-- `HASH('req3', S)`. -/
def req3 (s : Bytes) : Bytes := sha1Concat sha1Of [ascii "req3", s]

/-! ## The initiator -/

/-- 4) Find the end of the receiver's padding, read its choice of crypto and
its second padding. -/
def awaitReply (inCipher outCipher : Rc4) : Session EncryptedStream := do
  let inCipher ← syncOnEncryptedVc inCipher
  let tail ← readProcessed inCipher 6
  let cryptoSelect := u32At 0 tail.2
  let padDLen := ofBytesBe (tail.2.drop 4)
  if padMax < padDLen then
    .fail (.handshake s!"PadD length {padDLen} > {padMax}")
  else do
    let inCipher ← drain tail.1 padDLen
    if cryptoSelect &&& cryptoRc4 = 0 then .fail .noCommonCrypto
    else return ⟨inCipher, outCipher⟩

/-- The block the initiator enciphers: its initial payload is empty. -/
def requestBlock (padC : Bytes) : Bytes :=
  vc ++ cryptoProvideBytes ++ toBytesBe 2 padC.length ++ padC ++ toBytesBe 2 0

/-- 3) Send the request. -/
def sendRequest (padC : Bytes) (infoHash : Digest) (s : Bytes) :
    Session EncryptedStream := do
  let req23 := xorBytes (req2 sha1Of infoHash) (req3 sha1Of s)
  let outCipher := deriveRc4 sha1Of "keyA" s infoHash
  let inCipher := deriveRc4 sha1Of "keyB" s infoHash
  let encryptedBlock := outCipher.process (requestBlock padC)
  writeAll (req1 sha1Of s)
  writeAll req23
  writeAll encryptedBlock.2
  awaitReply inCipher encryptedBlock.1

/-- 2) Read the receiver's public key. -/
def awaitYb (rng : OutgoingRandom) (infoHash : Digest) :
    Session EncryptedStream := do
  let yb ← readExact yLen
  let ybBig := fromBytes yb
  checkPublic ybBig
  let s ← toBytes (rng.key.sharedSecret ybBig)
  sendRequest sha1Of rng.padC infoHash s

/-- `perform_outgoing`.  1) Send the public key and a padding. -/
def performOutgoing (rng : OutgoingRandom) (infoHash : Digest) :
    Session EncryptedStream := do
  let ya ← toBytes rng.key.public_
  writeAll ya
  writePad rng.padA
  awaitYb sha1Of rng infoHash

/-! ## The receiver -/

/-- 8) Send the choice of crypto. -/
def sendReply (rng : IncomingRandom) (matched : Digest)
    (inCipher outCipher : Rc4) : Session (EncryptedStream × Digest) := do
  let packet := vc ++ be32 cryptoRc4 ++ toBytesBe 2 rng.padD.1.length ++
    rng.padD
  let packet := outCipher.process packet
  writeAll packet.2
  return (⟨inCipher, packet.1⟩, matched)

/-- 5) to 7) Read the enciphered block.  The initial payload is dropped. -/
def readRequest (rng : IncomingRandom) (s : Bytes) (matched : Digest) :
    Session (EncryptedStream × Digest) := do
  let inCipher := deriveRc4 sha1Of "keyA" s matched
  let outCipher := deriveRc4 sha1Of "keyB" s matched
  let vcAndHeader ← readProcessed inCipher (8 + 4 + 2)
  if vcAndHeader.2.take 8 ≠ vc then
    .fail (.handshake "VC mismatch after sync")
  else do
    let cryptoProvide := u32At 8 vcAndHeader.2
    let padCLen := ofBytesBe (vcAndHeader.2.drop 12)
    if padMax < padCLen then
      .fail (.handshake s!"PadC length {padCLen} > {padMax}")
    else do
      let inCipher ← drain vcAndHeader.1 padCLen
      let iaLenBuf ← readProcessed inCipher 2
      let inCipher ← drain iaLenBuf.1 (ofBytesBe iaLenBuf.2)
      if cryptoProvide &&& cryptoRc4 = 0 then .fail .noCommonCrypto
      else sendReply rng matched inCipher outCipher

/-- The sweep over the candidates: the last match wins. -/
def matchSkey (infoHashes : List Digest) (wanted : Bytes) : Option Digest :=
  infoHashes.foldl
    (fun matched ih => if req2 sha1Of ih = wanted then some ih else matched)
    none

/-- 3) and 4) Skip the initiator's padding and find its torrent. -/
def awaitRequest (rng : IncomingRandom) (infoHashes : List Digest)
    (s : Bytes) : Session (EncryptedStream × Digest) := do
  syncOnPattern (req1 sha1Of s)
  let req23 ← readExact 20
  match matchSkey sha1Of infoHashes (xorBytes req23 (req3 sha1Of s)) with
  | none => .fail .unknownSkey
  | some matched => readRequest sha1Of rng s matched

/-- `perform_incoming`.  1) and 2) Exchange the public keys. -/
def performIncoming (rng : IncomingRandom) (infoHashes : List Digest)
    (preRead : Bytes) : Session (EncryptedStream × Digest) :=
  if yLen < preRead.length then
    .fail (.handshake "pre_read longer than Ya")
  else do
    let rest ← readRest (yLen - preRead.length)
    let peerPub := fromBytes (preRead ++ rest)
    checkPublic peerPub
    let yb ← toBytes rng.key.public_
    writeAll yb
    writePad rng.padB
    let s ← toBytes (rng.key.sharedSecret peerPub)
    awaitRequest sha1Of rng infoHashes s

end Handshake

end RustyTorrent.Peer.Mse
