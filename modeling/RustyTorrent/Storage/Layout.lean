import RustyTorrent.Metainfo.TorrentReader

/-!
# Mapping the torrent stream to files

`storage/layout.rs`: the path checks, the placement of the files one after the
other, and the cut of a byte range into slices of files.
-/

namespace RustyTorrent.Storage

open UnixPath Metainfo

structure FileSpan where
  path : Path
  start : ℕ
  length : ℕ
  deriving DecidableEq, Repr

/-- `FileSpan::end`. -/
def FileSpan.stop (f : FileSpan) : Outcome Error ℕ :=
  Outcome.checkedAdd 64 f.start f.length

/-! ## Path checks -/

def windowsReserved : List Bytes :=
  ["con", "prn", "aux", "nul", "com1", "com2", "com3", "com4", "com5", "com6",
    "com7", "com8", "com9", "lpt1", "lpt2", "lpt3", "lpt4", "lpt5", "lpt6",
    "lpt7", "lpt8", "lpt9"].map ascii

/-- `to_ascii_lowercase` of a byte. -/
def asciiLower (c : UInt8) : UInt8 :=
  if asciiByte 'A' ≤ c ∧ c ≤ asciiByte 'Z' then c + 32 else c

/-- A byte that Windows ignores at the end of a name. -/
def isTrailer (c : UInt8) : Bool :=
  c = asciiByte ' ' || c = asciiByte '.'

/-- `trim_end_matches([' ', '.'])`. -/
def trimEnd (s : Bytes) : Bytes :=
  (s.reverse.dropWhile isTrailer).reverse

def isWindowsReserved (name : Bytes) : Bool :=
  let lower := name.map asciiLower
  let trimmed := trimEnd lower
  let stem := trimmed.takeWhile (· ≠ asciiByte '.')
  windowsReserved.contains stem

def joinedUnderRoot (base rel : Path) : Outcome Error Path := do
  let full := join base rel
  Outcome.check (UnixPath.startsWith full base)
    (.bencodeEcho [.text "unsafe torrent path ", .debug (Utf8.chars rel),
      .text ": escapes its download root"])
  return full

def ensureSafeLeafName (name : Bytes) : Outcome Error Unit :=
  match components name with
  | [.normal part] =>
    Outcome.check (!isWindowsReserved part)
      (.bencodeEcho [.text "unsafe torrent name ",
        .debug (Utf8.chars name), .text ": reserved device name"])
  | _ =>
    .err (.bencodeEcho [.text "unsafe torrent name ",
      .debug (Utf8.chars name),
      .text ": must be a single plain path component"])

/-- The debug text of a component other than a plain name. -/
def componentText : Component → String
  | .rootDir => "RootDir"
  | .curDir => "CurDir"
  | .parentDir => "ParentDir"
  | .normal _ => "Normal"

/-- The loop of `ensure_safe_relative_path`. -/
def checkComponents (shown : List ℕ) : List Component → Outcome Error Unit
  | [] => .ok ()
  | .normal part :: rest => do
    Outcome.check (!isWindowsReserved part)
      (.bencodeEcho [.text "unsafe torrent path ", .debug shown,
        .text ": component ", .shown (Utf8.chars part),
        .text " is a reserved device name"])
    checkComponents shown rest
  | other :: _ =>
    .err (.bencodeEcho [.text "unsafe torrent path ", .debug shown,
      .text s!": {componentText other} is not a plain relative component"])

def ensureSafeRelativePath (path : Path) : Outcome Error Unit := do
  let shown := Utf8.chars path
  checkComponents shown (components path)
  Outcome.check (!(components path).isEmpty)
    (.bencodeEcho [.text "unsafe torrent path ", .debug shown,
      .text ": empty path"])

/-! ## Building the layout -/

structure Layout where
  root : Path
  files : List FileSpan
  pieceLength : ℕ
  totalLength : ℕ
  numPieces : ℕ
  deriving DecidableEq, Repr

namespace Layout

/-- The loop over the entries of a multi-file torrent. -/
def place (base : Path) : ℕ → List FileEntry → Outcome Error (List FileSpan)
  | _, [] => .ok []
  | offset, e :: entries => do
    ensureSafeRelativePath e.path
    let full ← joinedUnderRoot base e.path
    let next ← Outcome.checkedAdd 64 offset e.length
    let rest ← place base next entries
    return { path := full, start := offset, length := e.length } :: rest

/-- The spans of all files. -/
def spans (root : Path) (info : Info) : Outcome Error (List FileSpan) :=
  match info.files with
  | .single length => do
    let path ← joinedUnderRoot root info.name
    return [{ path, start := 0, length }]
  | .multi entries => place (join root info.name) 0 entries

def fromTorrent (root : Path) (t : TorrentFile) : Outcome Error Layout := do
  ensureSafeLeafName t.info.name
  let files ← spans root t.info
  let totalLength ← t.totalLength
  return {
    root, files, pieceLength := t.info.pieceLength, totalLength,
    numPieces := t.numPieces }

/-! ## Slices -/

/-- The loop of `slices` over the files from number `i` on. -/
def slicesLoop (globalStart stop : ℕ) :
    ℕ → List FileSpan → Outcome Error (List (ℕ × ℕ × ℕ))
  | _, [] => .ok []
  | i, f :: files => do
    let fileStop ← f.stop
    if fileStop ≤ globalStart then
      slicesLoop globalStart stop (i + 1) files
    else if stop ≤ f.start then .ok []
    else
      let sliceStart := max globalStart f.start
      let sliceEnd := min stop fileStop
      if sliceEnd ≤ sliceStart then
        slicesLoop globalStart stop (i + 1) files
      else do
        let fileOff ← Outcome.checkedSub sliceStart f.start
        let count ← Outcome.checkedSub sliceEnd sliceStart
        let rest ← slicesLoop globalStart stop (i + 1) files
        return (i, fileOff, count) :: rest

def slices (l : Layout) (globalStart length : ℕ) :
    Outcome Error (List (ℕ × ℕ × ℕ)) := do
  let stop ← Outcome.checkedAdd 64 globalStart length
  slicesLoop globalStart stop 0 l.files

def slicesForPiece (l : Layout) (pieceIndex pieceSize : ℕ) :
    Outcome Error (List (ℕ × ℕ × ℕ)) := do
  let globalStart ← Outcome.checkedMul 64 pieceIndex l.pieceLength
  l.slices globalStart pieceSize

def pieceSize (l : Layout) (index : ℕ) : Outcome Error ℕ :=
  Geometry.checkedSize index l.pieceLength l.totalLength l.numPieces

end Layout

end RustyTorrent.Storage
