import RustyTorrent.Metainfo.BencodeText
import RustyTorrent.Support.UnixPath
import RustyTorrent.Util

/-!
# Loading a torrent

`metainfo/torrent.rs`: from the bytes of a `.torrent` file, or of a bare info
dictionary, to a `TorrentFile`.  The release profile keeps overflow checks on,
so sums of lengths are checked additions.  SHA-1 is a parameter.

`Info::from_value` reads all fields first (`Info.read`) and compares the
number of piece hashes with the lengths afterwards (`Info.crossCheck`).
-/

namespace RustyTorrent.Metainfo

open UnixPath BencodeValue

/-- A SHA-1 digest (`[u8; 20]`). -/
abbrev Digest := { b : Bytes // b.length = 20 }

instance (d : Digest) (ds : List Digest) : Decidable (d ∈ ds) := inferInstance

namespace Digest

/-- `[0u8; 20]`. -/
def zeroed : Digest := ⟨List.replicate 20 0, by decide⟩

/-- Assignment to one byte, which unwinds past the end. -/
def setByte {ε : Type} (i : ℕ) (b : UInt8) (out : Digest) :
    Outcome ε Digest :=
  if i < 20 then .ok ⟨out.1.set i b, by rw [List.length_set, out.2]⟩
  else .panic

theorem setByte_length {ε : Type} {written : Bytes} {out : Digest}
    (h : written <+: out.1) (hlt : written.length < 20) (b : UInt8) :
    ∃ out' : Digest, (setByte written.length b out : Outcome ε Digest) =
      .ok out' ∧ written ++ [b] <+: out'.1 := by
  obtain ⟨tail, htail⟩ := h
  refine ⟨_, if_pos hlt, ?_⟩
  have hlen : written.length < out.1.length := by rw [out.2]; exact hlt
  cases tail with
  | nil =>
    rw [← htail, List.append_nil] at hlen
    omega
  | cons c tail =>
    refine ⟨tail, ?_⟩
    show written ++ [b] ++ tail = out.1.set written.length b
    rw [← htail]
    simp

theorem eq_of_prefix {h out : Digest} (hp : h.1 <+: out.1) : out = h :=
  Subtype.ext (hp.eq_of_length (by rw [h.2, out.2])).symm

end Digest

structure FileEntry where
  length : ℕ
  path : Path
  deriving DecidableEq, Repr

inductive TorrentFiles where
  | single (length : ℕ)
  | multi (files : List FileEntry)
  deriving DecidableEq, Repr

structure Info where
  name : Bytes
  pieceLength : ℕ
  pieceHashes : List Digest
  files : TorrentFiles
  isPrivate : Bool
  deriving DecidableEq, Repr

structure TorrentFile where
  infoHash : Digest
  announce : Option Bytes
  announceList : List (List Bytes)
  info : Info
  deriving DecidableEq, Repr

/-! ## Reading the info dictionary -/

def isUnsafePathComponent (s : Bytes) : Bool :=
  s.isEmpty || s = ascii "." || s = ascii ".." ||
    s.contains (asciiByte '/') || s.contains (asciiByte '\\')

def describeUnsafeComponent (s : Bytes) : List ℕ :=
  Util.sanitizeRemoteText (Util.truncateChars 48 (Utf8.chars s))

/-- The value under `key`, or the error `missing`. -/
def field (d : List (Bytes × BencodeValue)) (key missing : String) :
    Outcome Error BencodeValue :=
  Outcome.ofOption (.bencode missing) (SortedMap.get d (ascii key))

/-- `u64::try_from` of an integer of the dictionary. -/
def unsignedOr (negative : String) (i : Int64) : Outcome Error ℕ :=
  if 0 ≤ i.toInt then .ok i.toInt.toNat else bencodeErr negative

/-- An unsigned integer under `key`. -/
def unsignedField (d : List (Bytes × BencodeValue))
    (key missing negative : String) : Outcome Error ℕ := do
  let v ← field d key missing
  let i ← v.asInt
  unsignedOr negative i

def maxPieceLength : ℕ := 2 ^ 30

/-- The whole digests in a byte string (`as_chunks::<20>`). -/
def digests (b : Bytes) : List Digest :=
  List.ofFn fun i : Fin (b.length / 20) =>
    ⟨(b.drop (20 * i)).take 20, by
      have := i.isLt
      simp only [List.length_take, List.length_drop]
      omega⟩

/-- One segment of a file path, checked before it is pushed. -/
def readSegment (v : BencodeValue) : Outcome Error Bytes := do
  let s ← v.asStr
  Outcome.check (!isUnsafePathComponent s)
    (.bencodeEcho [.text "unsafe path segment: ",
      .debug (describeUnsafeComponent s)])
  return s

/-- One member of the `files` list. -/
def readFile (v : BencodeValue) : Outcome Error FileEntry := do
  let fd ← v.asDict
  let length ← unsignedField fd "length" "file missing length"
    "file length negative"
  let pathV ← field fd "path" "file missing path"
  let pathList ← pathV.asList
  let segments ← Outcome.traverse readSegment pathList
  return { length, path := segments.foldl push [] }

/-- The `files` list, or the `length` of a single-file torrent. -/
def readFiles (d : List (Bytes × BencodeValue)) :
    Outcome Error TorrentFiles :=
  match SortedMap.get d (ascii "files") with
  | some filesV => do
    let list ← filesV.asList
    let entries ← Outcome.traverse readFile list
    return .multi entries
  | none => do
    let length ← unsignedField d "length" "info missing length"
      "length negative"
    return .single length

/-- The `private` flag; anything but a non-zero integer counts as unset. -/
def readPrivate (d : List (Bytes × BencodeValue)) : Bool :=
  match SortedMap.get d (ascii "private") with
  | some (.int n) => n ≠ 0
  | _ => false

/-- The part of `Info::from_value` that reads the fields. -/
def Info.read (v : BencodeValue) : Outcome Error Info := do
  let d ← v.asDict
  let nameV ← field d "name" "info missing name"
  let name ← nameV.asStr
  Outcome.check (!isUnsafePathComponent name)
    (.bencodeEcho [.text "unsafe torrent name: ",
      .debug (describeUnsafeComponent name)])
  let pieceLength ← unsignedField d "piece length"
    "info missing piece length" "piece length negative"
  Outcome.check
    (decide (¬ (pieceLength = 0 ∨ maxPieceLength < pieceLength)))
    (.bencode s!"implausible piece length: {pieceLength}")
  let piecesV ← field d "pieces" "info missing pieces"
  let piecesRaw ← piecesV.asBytes
  Outcome.check (decide (piecesRaw.length % 20 = 0))
    (.bencode s!"pieces length {piecesRaw.length} not multiple of 20")
  let files ← readFiles d
  return {
    name, pieceLength, pieceHashes := digests piecesRaw, files,
    isPrivate := readPrivate d }

/-- The lengths a torrent declares, in order. -/
def TorrentFiles.lengths : TorrentFiles → List ℕ
  | .single length => [length]
  | .multi files => files.map FileEntry.length

/-- The total length, added up with overflow checks. -/
def TorrentFiles.totalLength : TorrentFiles → Outcome Error ℕ
  | .single length => .ok length
  | .multi files => Outcome.checkedSum 64 0 (files.map FileEntry.length)

/-- The part of `Info::from_value` that compares the piece count with the
lengths. -/
def Info.crossCheck (info : Info) : Outcome Error Unit := do
  let totalLength ← info.files.totalLength
  Outcome.check (decide (totalLength ≠ 0))
    (.bencode "torrent total length is zero (nothing to download)")
  let expectedPieces ← Outcome.checkedDivCeil totalLength info.pieceLength
  Outcome.check (decide (info.pieceHashes.length = expectedPieces))
    (.bencode (s!"piece hash count mismatch: torrent has " ++
      s!"{info.pieceHashes.length} piece hashes but total_length=" ++
      s!"{totalLength} / piece_length={info.pieceLength} requires exactly " ++
      s!"{expectedPieces} pieces"))

def Info.fromValue (v : BencodeValue) : Outcome Error Info := do
  let info ← Info.read v
  info.crossCheck
  return info

/-! ## The slice that is hashed -/

def parseBytesInline (input : Bytes) : Outcome Error Bytes := do
  let (v, rest) ← parse input
  Outcome.check rest.isEmpty (.bencode "trailing bytes after key")
  match v with
  | .bytes b => .ok b
  | _ => bencodeErr "dict key is not bytes"

/-- The loop of `find_info_slice`.  Each round takes a key and a value; the
bound on the rounds is the length of the input. -/
def findInfoLoop (input : Bytes) : ℕ → ℕ → Outcome Error Bytes
  | 0, _ => .panic
  | fuel + 1, cursor =>
    if cursor < input.length then do
      let c ← Outcome.index cursor input
      if c = asciiByte 'e' then bencodeErr "no info dict in root"
      else do
        let keyInput ← Outcome.sliceFrom cursor input
        let keyLen ← skipValue keyInput
        let valueStart ← Outcome.checkedAdd 64 cursor keyLen
        let keyBytes ← Outcome.slice cursor valueStart input
        let key ← parseBytesInline keyBytes
        let valueInput ← Outcome.sliceFrom valueStart input
        let valueLen ← skipValue valueInput
        let next ← Outcome.checkedAdd 64 valueStart valueLen
        if key = ascii "info" then Outcome.slice valueStart next input
        else findInfoLoop input fuel next
    else bencodeErr "malformed top-level dict"

def findInfoSlice (input : Bytes) : Outcome Error Bytes :=
  if input.head? ≠ some (asciiByte 'd') then
    bencodeErr "torrent root is not a dict"
  else findInfoLoop input (input.length + 1) 1

/-! ## Loading -/

section Load

variable (sha1Of : Bytes → Digest)

def computeInfoHash (input : Bytes) : Outcome Error Digest := do
  let infoSlice ← findInfoSlice input
  return sha1Of infoSlice

/-- The `announce` entry of the root dictionary. -/
def readAnnounce (dict : List (Bytes × BencodeValue)) :
    Outcome Error (Option Bytes) :=
  match SortedMap.get dict (ascii "announce") with
  | none => .ok none
  | some v => do
    let s ← v.asStr
    return some s

/-- One tier of the `announce-list` entry. -/
def readTier (v : BencodeValue) : Outcome Error (List Bytes) := do
  let urls ← v.asList
  Outcome.traverse asStr urls

/-- The `announce-list` entry of the root dictionary. -/
def readAnnounceList (dict : List (Bytes × BencodeValue)) :
    Outcome Error (List (List Bytes)) :=
  match SortedMap.get dict (ascii "announce-list") with
  | none => .ok []
  | some v => do
    let tiers ← v.asList
    Outcome.traverse readTier tiers

def TorrentFile.fromValue (root : BencodeValue) (infoHash : Digest) :
    Outcome Error TorrentFile := do
  let dict ← root.asDict
  let announce ← readAnnounce dict
  let announceList ← readAnnounceList dict
  let infoV ← field dict "info" "missing info dict"
  let info ← Info.fromValue infoV
  return { infoHash, announce, announceList, info }

def TorrentFile.fromBytes (input : Bytes) : Outcome Error TorrentFile := do
  let root ← parseAll input
  let infoHash ← computeInfoHash sha1Of input
  TorrentFile.fromValue root infoHash

/-- A digest in the `{:x?}` format. -/
def hexDebug (h : Digest) : String :=
  "[" ++ ", ".intercalate
    (h.1.map fun b => String.ofList (Nat.toDigits 16 b.toNat)) ++ "]"

def TorrentFile.fromInfoDictBytes (infoBytes : Bytes) (infoHash : Digest)
    (trackers : List Bytes) : Outcome Error TorrentFile := do
  Outcome.check (decide (sha1Of infoBytes = infoHash))
    (.bencode (s!"info dict sha1 {hexDebug (sha1Of infoBytes)} doesn't " ++
      s!"match magnet info_hash {hexDebug infoHash}"))
  let infoV ← parseAll infoBytes
  let info ← Info.fromValue infoV
  return {
    infoHash, announce := none,
    announceList := if trackers.isEmpty then [] else [trackers], info }

end Load

def TorrentFile.totalLength (t : TorrentFile) : Outcome Error ℕ :=
  t.info.files.totalLength

def TorrentFile.numPieces (t : TorrentFile) : ℕ := t.info.pieceHashes.length

/-- Append a tracker that is not in the list yet. -/
def pushTracker (out : List Bytes) (url : Bytes) : List Bytes :=
  if out.contains url then out else out ++ [url]

def TorrentFile.trackers (t : TorrentFile) : List Bytes :=
  let out := t.announceList.foldl (fun out tier => tier.foldl pushTracker out) []
  match t.announce with
  | some a => pushTracker out a
  | none => out

end RustyTorrent.Metainfo
