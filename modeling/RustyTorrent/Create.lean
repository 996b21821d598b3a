import RustyTorrent.Metainfo.Torrent

/-!
# Creating a torrent

`create.rs`: from a file or a directory tree to the bytes of a `.torrent`.

The contents of the file system are given as a tree and do not change during
the call, so a length read from the metadata is the length of the contents.
An I/O error ends the call with an error and is left out.  How many bytes a
`read` returns is up to the system; `readSize` says it for each call.  The
walk sorts the names of a directory before it visits them; here every entry is
visited and the results are sorted by name, which gives the same list.
-/

namespace RustyTorrent.Create

open UnixPath Metainfo BencodeValue

/-! ## The input -/

/-- What a name stands for on disk. -/
inductive Node where
  | file (contents : Bytes)
  | dir (entries : List (Bytes × Node))
  | symlink
  | other

/-- `InputFile`, with the contents in place of the path on disk. -/
structure InputFile where
  contents : Bytes
  relComponents : List Bytes
  deriving DecidableEq, Repr

/-- The length the metadata reports. -/
def InputFile.length (f : InputFile) : ℕ := f.contents.length

/-- The arguments of `create_torrent`, and what the path leads to when links
are followed. -/
structure Request where
  path : Path
  node : Node
  trackers : List Bytes
  pieceLength : ℕ
  nameOverride : Option Bytes
  isPrivate : Bool

def fileName (p : Path) : Option Bytes :=
  match (components p).getLast? with
  | some (.normal n) => some n
  | _ => none

/-- The name of the torrent. -/
def Request.name (r : Request) : Bytes :=
  r.nameOverride.getD ((fileName r.path).getD (ascii "torrent"))

/-- An error that shows the input path between two texts. -/
def Request.refuse {α : Type} (r : Request) (before after : String) :
    Outcome Error α :=
  .err (.bencodeEcho [.text before, .shown (Utf8.chars r.path), .text after])

/-! ## Collecting the files -/

/-- The files of a directory's entries, each group under the entry's name, in
the order of the names. -/
def visitSorted (groups : List (Bytes × List InputFile)) : List InputFile :=
  (groups.insertionSort fun a b => a.1 ≤ b.1).flatMap Prod.snd

mutual

/-- The files an entry of a directory contributes. -/
def collectEntry (parents : List Bytes) (name : Bytes) :
    Node → List InputFile
  | .symlink => []
  | .dir entries => visitSorted (collectGroups (parents ++ [name]) entries)
  | .file contents => [{ contents, relComponents := parents ++ [name] }]
  | .other => []

/-- The same for all entries of a directory. -/
def collectGroups (parents : List Bytes) :
    List (Bytes × Node) → List (Bytes × List InputFile)
  | [] => []
  | (name, node) :: rest =>
    (name, collectEntry parents name node) :: collectGroups parents rest

end

def collectFiles (entries : List (Bytes × Node)) : List InputFile :=
  visitSorted (collectGroups [] entries)

/-- The files to hash, and whether the input is a single file. -/
def Request.inputFiles (r : Request) :
    Outcome Error (List InputFile × Bool) :=
  match r.node with
  | .file contents => .ok ([{ contents, relComponents := [] }], true)
  | .dir entries =>
    let collected := (collectFiles entries).insertionSort
      fun a b => a.relComponents ≤ b.relComponents
    if collected.isEmpty then
      r.refuse "directory " " contains no regular files"
    else .ok (collected, false)
  | _ => r.refuse "" " is neither a regular file nor a directory"

/-! ## Hashing -/

section Hash

variable (sha1Of : Bytes → Digest) (readSize : ℕ → ℕ)

/-- The hashes so far, and the filled part of the piece buffer. -/
structure HashState where
  pieces : Bytes
  buf : Bytes
  deriving DecidableEq, Repr

/-- The bytes a read returns, given the room in the buffer and what is left
of the file: at least one unless one of the two is exhausted. -/
def readCount (wanted room left : ℕ) : ℕ :=
  min (max 1 wanted) (min room left)

/-- What happens to the bytes of one read. -/
def HashState.fill (pieceLength : ℕ) (st : HashState) (bytes : Bytes) :
    HashState :=
  let buf := st.buf ++ bytes
  if buf.length = pieceLength then
    { pieces := st.pieces ++ (sha1Of buf).1, buf := [] }
  else { st with buf }

/-- The read loop over one file.  Each round takes at least one byte, so the
length of the file bounds the rounds.  The counter numbers the reads. -/
def hashFile (pieceLength : ℕ) :
    ℕ → ℕ → HashState → Bytes → Outcome Error (ℕ × HashState)
  | 0, _, _, _ => .panic
  | fuel + 1, k, st, left =>
    let n := readCount (readSize k) (pieceLength - st.buf.length) left.length
    if n = 0 then .ok (k + 1, st)
    else
      hashFile pieceLength fuel (k + 1)
        (st.fill sha1Of pieceLength (left.take n)) (left.drop n)

/-- The loop over the files. -/
def hashFiles (pieceLength : ℕ) :
    ℕ → HashState → List InputFile → Outcome Error HashState
  | _, st, [] => .ok st
  | k, st, f :: files => do
    let (k, st) ← hashFile sha1Of readSize pieceLength
      (f.contents.length + 1) k st f.contents
    hashFiles pieceLength k st files

/-- `hash_pieces`.  A buffer of `2 ^ 63` bytes or more cannot be allocated:
`vec!` panics. -/
def hashPieces (files : List InputFile) (pieceLength : ℕ) :
    Outcome Error Bytes := do
  Outcome.assert (decide (pieceLength < 2 ^ 63))
  let st ← hashFiles sha1Of readSize pieceLength 0 ⟨[], []⟩ files
  return if st.buf.isEmpty then st.pieces
    else st.pieces ++ (sha1Of st.buf).1

end Hash

/-! ## The dictionaries -/

/-- An unsigned length in a dictionary (`as i64`). -/
def intValue (n : ℕ) : BencodeValue := .int (Int64.ofNat n)

/-- One member of the `files` list. -/
def fileValue (f : InputFile) : BencodeValue :=
  let d := SortedMap.insert (ascii "length") (intValue f.length) []
  .dict (SortedMap.insert (ascii "path")
    (.list (f.relComponents.map .bytes)) d)

/-- The info dictionary. -/
def Request.infoDict (r : Request) (files : List InputFile) (single : Bool)
    (pieces : Bytes) : Outcome Error (List (Bytes × BencodeValue)) := do
  let info := SortedMap.insert (ascii "name") (.bytes r.name) []
  let info := SortedMap.insert (ascii "piece length")
    (intValue r.pieceLength) info
  let info := SortedMap.insert (ascii "pieces") (.bytes pieces) info
  let info :=
    if r.isPrivate then SortedMap.insert (ascii "private") (.int 1) info
    else info
  if single then
    let first ← Outcome.index 0 files
    return SortedMap.insert (ascii "length") (intValue first.length) info
  else
    return SortedMap.insert (ascii "files") (.list (files.map fileValue)) info

/-- The root dictionary. -/
def topDict (trackers : List Bytes) (info : BencodeValue) :
    List (Bytes × BencodeValue) :=
  let top := SortedMap.insert (ascii "info") info []
  let top :=
    match trackers.head? with
    | some first => SortedMap.insert (ascii "announce") (.bytes first) top
    | none => top
  if trackers.length > 1 then
    SortedMap.insert (ascii "announce-list")
      (.list (trackers.map fun u => .list [.bytes u])) top
  else top

def createTorrent (sha1Of : Bytes → Digest) (readSize : ℕ → ℕ)
    (r : Request) : Outcome Error (Bytes × Digest) := do
  Outcome.check (decide (r.pieceLength ≠ 0))
    (.bencode "piece length must be > 0")
  let (files, single) ← r.inputFiles
  let totalLength ← Outcome.checkedSum 64 0 (files.map InputFile.length)
  if totalLength = 0 then
    r.refuse "" (" has zero total length; torrents of empty data are not " ++
      "representable")
  else
    let pieces ← hashPieces sha1Of readSize files r.pieceLength
    let info ← r.infoDict files single pieces
    let infoHash := sha1Of (BencodeValue.dict info).toBytes
    return ((BencodeValue.dict (topDict r.trackers (.dict info))).toBytes,
      infoHash)

end RustyTorrent.Create
