import RustyTorrent.Storage.Disk
import RustyTorrent.Support.ByteStream

/-!
# The encrypted and the in-memory spool

`storage/spool.rs`, `storage/memspool.rs` and the part of `storage/crypt.rs`
they use.  The cipher and the key derivation are parameters; of the cipher it
is assumed that decryption inverts encryption under the same key, nonce and
associated data and fails otherwise, and that a tag of 16 bytes is added.  Salts and nonces are
drawn by the caller of the model.  The spool file is its contents; an absent
file has none.  No file operation fails except for reads past the end.

A failed call keeps what was written before the failure, so the functions that
write return the file next to the result of the call.
-/

namespace RustyTorrent.Storage

open Decimal

/-! ## `crypt.rs` -/

def keyLen : ℕ := 32

def nonceLen : ℕ := 12

def tagLen : ℕ := 16

def saltLen : ℕ := 16

/-- `[u8; KEY_LEN]`. -/
abbrev SpoolKey := { b : Bytes // b.length = keyLen }

/-- `[u8; NONCE_LEN]`. -/
abbrev Nonce := { b : Bytes // b.length = nonceLen }

/-- `[u8; SALT_LEN]`. -/
abbrev Salt := { b : Bytes // b.length = saltLen }

/-- Authenticated encryption with associated data, and the derivation of keys
from passphrases. -/
structure Crypt where
  /-- The ciphertext with its tag, for a plaintext and associated data. -/
  encrypt : SpoolKey → Bytes → Bytes → Bytes → Bytes
  decrypt : SpoolKey → Bytes → Bytes → Bytes → Option Bytes
  deriveKey : Bytes → Bytes → Except Error SpoolKey
  decrypt_encrypt : ∀ key nonce plaintext aad,
    decrypt key nonce (encrypt key nonce plaintext aad) aad = some plaintext
  eq_encrypt_of_decrypt : ∀ key nonce ciphertext aad plaintext,
    decrypt key nonce ciphertext aad = some plaintext →
      ciphertext = encrypt key nonce plaintext aad
  length_encrypt : ∀ key nonce plaintext aad,
    (encrypt key nonce plaintext aad).length = plaintext.length + tagLen

def Crypt.decryptWithAad (crypt : Crypt) (key : SpoolKey)
    (nonce ciphertext aad : Bytes) : Except Error Bytes :=
  match crypt.decrypt key nonce ciphertext aad with
  | some plaintext => .ok plaintext
  | none => .error (.crypto
      ("aes-gcm decrypt (wrong passphrase or tampered data?): " ++
        "aead::Error"))

/-! ## The layout of the spool file -/

def magic : Bytes := ascii "RTSP"

def version : UInt8 := 2

def verifierPlaintext : Bytes := List.replicate 16 0

def headerLen : ℕ :=
  4 + 1 + 3 + saltLen + 4 + 4 + nonceLen + (16 + tagLen)

def slotSize (pieceLength : ℕ) : Outcome Error ℕ := do
  let withNonce ← Outcome.checkedAdd 64 nonceLen pieceLength
  Outcome.checkedAdd 64 withNonce tagLen

/-- The arithmetic shared by `slot_offset` and the size of the whole spool:
where the slot with number `n` begins. -/
def slotOffset (pieceLength n : ℕ) : Outcome Error ℕ := do
  let size ← slotSize pieceLength
  let slots ← Outcome.checkedMul 64 n size
  Outcome.checkedAdd 64 headerLen slots

def pieceAad (index : ℕ) : Bytes := ascii "piece" ++ 0 :: toBytesBe 4 index

/-- The bytes `write_header` writes from the start of the file. -/
def headerBytes (salt : Bytes) (numPieces pieceLength : ℕ)
    (verifierNonce verifierCt : Bytes) : Bytes :=
  magic ++ [version] ++ [0, 0, 0] ++ salt ++ toBytesLe 4 numPieces ++
    toBytesLe 4 pieceLength ++ verifierNonce ++ verifierCt

/-- `seek` and `read_exact`. -/
def readExactAt (file : Bytes) (off n : ℕ) : Except Error Bytes :=
  if file.length < off + n then
    .error (.io .unexpectedEof "failed to fill whole buffer")
  else .ok ((file.drop off).take n)

/-- What `read_header` returns. -/
structure SpoolHeader where
  salt : Bytes
  numPieces : ℕ
  pieceLength : ℕ
  verifierNonce : Bytes
  verifierCt : Bytes
  deriving DecidableEq, Repr

def readHeader (file : Bytes) : Except Error SpoolHeader := do
  let found ← readExactAt file 0 4
  if found ≠ magic then
    .error (.crypto (s!"spool magic mismatch: got {found.map UInt8.toNat}, " ++
      "expected RTSP"))
  else do
    let ver ← readExactAt file 4 1
    if ver ≠ [version] then
      .error (.crypto (s!"spool version mismatch: got {(ver.headD 0).toNat}, " ++
        s!"expected {version.toNat}"))
    else do
      let _reserved ← readExactAt file 5 3
      let salt ← readExactAt file 8 saltLen
      let npBytes ← readExactAt file 24 4
      let plBytes ← readExactAt file 28 4
      let verifierNonce ← readExactAt file 32 nonceLen
      let verifierCt ← readExactAt file 44 (16 + tagLen)
      return ⟨salt, ofBytesLe npBytes, ofBytesLe plBytes, verifierNonce,
        verifierCt⟩

/-! ## The encrypted spool -/

/-- The numbers both spools are opened with. -/
structure Dimensions where
  pieceLength : ℕ
  numPieces : ℕ
  totalLength : ℕ
  deriving DecidableEq, Repr

/-- `piece_size` of both spools. -/
def Dimensions.pieceSize (dims : Dimensions) (index : ℕ) : Outcome Error ℕ :=
  Geometry.checkedSize index dims.pieceLength dims.totalLength dims.numPieces

/-- `EncryptedSpool`: the contents of its file, its key and its numbers.  The
padding buffer is not represented. -/
structure EncryptedSpool where
  file : Bytes
  key : SpoolKey
  dims : Dimensions
  deriving DecidableEq

variable (crypt : Crypt)

namespace EncryptedSpool

/-- The branch of `open_or_create` for a fresh file. -/
def create (passphrase : Bytes) (dims : Dimensions) (salt : Salt)
    (nonce : Nonce) : Outcome Error (Bytes × Except Error EncryptedSpool) :=
  match crypt.deriveKey passphrase salt.1 with
  | .error e => .ok ([], .error e)
  | .ok key => do
    let ct := crypt.encrypt key nonce.1 verifierPlaintext []
    Outcome.assert (ct.length = verifierPlaintext.length + tagLen)
    let header := headerBytes salt.1 dims.numPieces
      (dims.pieceLength % 2 ^ 32) nonce.1 ct
    let total ← slotOffset dims.pieceLength dims.numPieces
    let file := (extend (writeAt [] 0 header) total).take total
    return (file, .ok ⟨file, key, dims⟩)

/-- The branch of `open_or_create` for an existing file. -/
def reopen (file : Bytes) (passphrase : Bytes) (dims : Dimensions) :
    Except Error EncryptedSpool := do
  let header ← readHeader file
  if header.numPieces ≠ dims.numPieces then
    .error (.crypto (s!"spool num_pieces mismatch: file says " ++
      s!"{header.numPieces}, torrent says {dims.numPieces}"))
  else if header.pieceLength ≠ dims.pieceLength then
    .error (.crypto (s!"spool piece_length mismatch: file says " ++
      s!"{header.pieceLength}, torrent says {dims.pieceLength}"))
  else do
    let key ← crypt.deriveKey passphrase header.salt
    match crypt.decrypt key header.verifierNonce header.verifierCt [] with
    | none => .error (.crypto ("spool header verifier failed — wrong " ++
        "passphrase or tampered file"))
    | some decrypted =>
      if decrypted ≠ verifierPlaintext then
        .error (.crypto ("spool header verifier decrypted but to " ++
          "unexpected bytes"))
      else return ⟨file, key, dims⟩

/-- `open_or_create`: the file afterwards and the spool. -/
def openOrCreate (file : Bytes) (passphrase : Bytes) (dims : Dimensions)
    (salt : Salt) (nonce : Nonce) :
    Outcome Error (Bytes × Except Error EncryptedSpool) :=
  if file.length = 0 then create crypt passphrase dims salt nonce
  else .ok (file, reopen crypt file passphrase dims)

/-- `write_piece`.  The buffer is resized to the piece length with zeros. -/
def writePiece (s : EncryptedSpool) (index : ℕ) (data : Bytes)
    (nonce : Nonce) : Outcome Error (EncryptedSpool × Except Error Unit) := do
  let actual ← s.dims.pieceSize index
  if data.length ≠ actual then
    return (s, .error (.io .invalidInput
      (s!"spool write piece {index}: got {data.length} bytes, " ++
        s!"expected {actual}")))
  else do
    let buf := (extend data s.dims.pieceLength).take s.dims.pieceLength
    let ct := crypt.encrypt s.key nonce.1 buf (pieceAad index)
    Outcome.assert (ct.length = s.dims.pieceLength + tagLen)
    let offset ← slotOffset s.dims.pieceLength index
    return ({ s with
      file := writeAt (writeAt s.file offset nonce.1) (offset + nonceLen) ct },
      .ok ())

/-- The result of a fallible call inside a function that can unwind. -/
def lift {α : Type} : Except Error α → Outcome Error α
  | .ok a => .ok a
  | .error e => .err e

def readRange (s : EncryptedSpool) (index begin length : ℕ) :
    Outcome Error Bytes := do
  let actual ← s.dims.pieceSize index
  let stop ← Outcome.checkedAdd 64 begin length
  if actual < stop then
    .err (.io .invalidInput
      (s!"spool read past piece end: piece {index} actual={actual} " ++
        s!"requested {begin}+{length}"))
  else do
    let offset ← slotOffset s.dims.pieceLength index
    let nonce ← lift (readExactAt s.file offset nonceLen)
    let ct ← lift (readExactAt s.file (offset + nonceLen)
      (s.dims.pieceLength + tagLen))
    let plaintext ← lift
      (crypt.decryptWithAad s.key nonce ct (pieceAad index))
    let plaintext := plaintext.take actual
    if begin = 0 ∧ stop = plaintext.length then return plaintext
    else Outcome.slice begin stop plaintext

end EncryptedSpool

/-! ## The in-memory spool -/

structure MemSpool where
  pieces : List (Option Bytes)
  dims : Dimensions
  deriving DecidableEq, Repr

namespace MemSpool

def new (dims : Dimensions) : MemSpool :=
  ⟨List.replicate dims.numPieces none, dims⟩

def writePiece (s : MemSpool) (index : ℕ) (data : Bytes) :
    Outcome Error (MemSpool × Except Error Unit) := do
  let actual ← s.dims.pieceSize index
  if data.length ≠ actual then
    return (s, .error (.io .invalidInput
      (s!"memspool write piece {index}: got {data.length} bytes, " ++
        s!"expected {actual}")))
  else if s.pieces.length ≤ index then
    return (s, .error (.io .invalidInput
      (s!"memspool index {index} out of range " ++
        s!"(have {s.dims.numPieces})")))
  else return ({ s with pieces := s.pieces.set index (some data) }, .ok ())

def readRange (s : MemSpool) (index begin length : ℕ) :
    Outcome Error Bytes := do
  let actual ← s.dims.pieceSize index
  let stop ← Outcome.checkedAdd 64 begin length
  if actual < stop then
    .err (.io .invalidInput
      (s!"memspool read past piece end: piece {index} actual={actual} " ++
        s!"requested {begin}+{length}"))
  else
    match s.pieces[index]? with
    | none =>
      .err (.io .invalidInput s!"memspool index {index} out of range")
    | some none =>
      .err (.io .notFound s!"memspool piece {index} not yet written")
    | some (some buf) => Outcome.slice begin stop buf

end MemSpool

end RustyTorrent.Storage
