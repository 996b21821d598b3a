import RustyTorrent.Storage.LayoutSpec
import RustyTorrent.Support.Windows

/-!
# The plain-disk storage task

`storage/disk.rs`: opening the files of a layout, writing a piece, reading a
range, and the command loop.  The file system is a map from paths to contents;
an open file is its path.  No operation fails except for the reasons the code
itself checks and reads past the end of a file.  Creating directories and
flushing leave contents alone and are not represented.

A failed write keeps what was written before the failure, so the functions
return the file system next to the result of the call.
-/

namespace RustyTorrent.Storage

open UnixPath

/-- The contents of the files that exist. -/
abbrev FileSystem := Path → Option Bytes

/-- `StorageCommand`, without the reply channel. -/
inductive StorageCommand where
  | write (index : ℕ) (data : Bytes)
  | read (index begin length : ℕ)
  | shutdown
  deriving DecidableEq, Repr

/-- What the task sends back: a `StorageEvent`, or the reply to a read. -/
inductive StorageOutput where
  | written (index : ℕ)
  | error (index : ℕ) (e : Error)
  | reply (result : Except Error Bytes)
  | nothing
  deriving Repr

/-! ## Opening -/

/-- `set_len` to at least `length`: the file is extended by zeros. -/
def extend (content : Bytes) (length : ℕ) : Bytes :=
  content ++ List.replicate (length - content.length) 0

/-- Open one file, creating it when it does not exist. -/
def openFile (fs : FileSystem) (span : FileSpan) : FileSystem :=
  Function.update fs span.path
    (some (extend ((fs span.path).getD []) span.length))

/-- Whether the selection mask leaves out file `i`. -/
def isSkipped (wantedFiles : Option (List Bool)) (i : ℕ) : Bool :=
  match wantedFiles with
  | none => false
  | some mask => !mask.getD i true

/-- The opening loop of `run_storage` over the files from number `i` on. -/
def openFiles (wantedFiles : Option (List Bool)) :
    ℕ → List FileSpan → FileSystem → List (Option Path) × FileSystem
  | _, [], fs => ([], fs)
  | i, span :: spans, fs =>
    if isSkipped wantedFiles i then
      let (files, fs) := openFiles wantedFiles (i + 1) spans fs
      (none :: files, fs)
    else
      let (files, fs) :=
        openFiles wantedFiles (i + 1) spans (openFile fs span)
      (some span.path :: files, fs)

/-! ## Writing and reading -/

def fileAt (files : List (Option Path)) (fileIdx : ℕ) : Except Error Path :=
  match files[fileIdx]? with
  | some (some path) => .ok path
  | _ => .error (.io .notFound
      (s!"storage: file {fileIdx} skipped (selective download) but a piece " ++
        "referenced it"))

/-- Write `data` at an offset, filling a gap after the end with zeros. -/
def writeAt (content : Bytes) (off : ℕ) (data : Bytes) : Bytes :=
  (extend content off).take off ++ data ++ content.drop (off + data.length)

theorem writeAt_of_le {content data : Bytes} {off : ℕ}
    (h : off + data.length ≤ content.length) :
    writeAt content off data = Windows.put content off data := by
  rw [writeAt, extend, Nat.sub_eq_zero_of_le (by omega : off ≤ content.length),
    Windows.put]
  simp

/-- The loop of `write_piece` over the slices. -/
def writeSlices (files : List (Option Path)) (data : Bytes) :
    FileSystem → ℕ → List Segments.Slice →
      Outcome Error (FileSystem × Except Error Unit)
  | fs, _, [] => .ok (fs, .ok ())
  | fs, dataOff, (fileIdx, fileOff, count) :: slices =>
    match fileAt files fileIdx with
    | .error e => .ok (fs, .error e)
    | .ok path => do
      let part ← Outcome.slice dataOff (dataOff + count) data
      writeSlices files data
        (Function.update fs path
          (some (writeAt ((fs path).getD []) fileOff part)))
        (dataOff + count) slices

/-- `piece_size` of the disk back end. -/
def pieceSize (layout : Layout) (index : ℕ) : Outcome Error ℕ :=
  Geometry.checkedSize index layout.pieceLength layout.totalLength
    layout.numPieces

def writePiece (layout : Layout) (files : List (Option Path))
    (fs : FileSystem) (index : ℕ) (data : Bytes) :
    Outcome Error (FileSystem × Except Error Unit) := do
  let size ← pieceSize layout index
  if data.length ≠ size then
    return (fs, .error (.io .invalidInput
      s!"write piece {index}: data {data.length} != expected {size}"))
  else do
    let slices ← layout.slicesForPiece index size
    writeSlices files data fs 0 slices

/-- The loop of `read_range` over the slices, with the bytes it fills in. -/
def readSlices (files : List (Option Path)) (fs : FileSystem) :
    List Segments.Slice → Except Error Bytes
  | [] => .ok []
  | (fileIdx, fileOff, count) :: slices => do
    let path ← fileAt files fileIdx
    let content := (fs path).getD []
    if content.length < fileOff + count then
      .error (.io .unexpectedEof "failed to fill whole buffer")
    else do
      let rest ← readSlices files fs slices
      return (content.drop fileOff).take count ++ rest

def readRange (layout : Layout) (files : List (Option Path))
    (fs : FileSystem) (index begin length : ℕ) :
    Outcome Error (Except Error Bytes) := do
  let size ← pieceSize layout index
  if size < begin + length then
    return .error (.io .invalidInput "read past piece end")
  else do
    let pieceStart ← Outcome.checkedMul 64 index layout.pieceLength
    let globalStart ← Outcome.checkedAdd 64 pieceStart begin
    let slices ← layout.slices globalStart length
    return (readSlices files fs slices).map
      fun out => out ++ List.replicate (length - out.length) 0

/-! ## The command loop -/

/-- The state of the storage task between two commands. -/
structure Store where
  layout : Layout
  files : List (Option Path)
  fs : FileSystem
  running : Bool

/-- The task after it has opened the files of the layout. -/
def Store.opened (layout : Layout) (wantedFiles : Option (List Bool))
    (fs : FileSystem) : Store :=
  let (files, fs) := openFiles wantedFiles 0 layout.files fs
  { layout, files, fs, running := true }

/-- One round of the command loop of `run_storage`. -/
def Store.step (s : Store) (cmd : StorageCommand) :
    Outcome Error (Store × StorageOutput) :=
  if s.running then
    match cmd with
    | .shutdown => .ok ({ s with running := false }, .nothing)
    | .write index data => do
      let (fs, result) ← writePiece s.layout s.files s.fs index data
      match result with
      | .ok () => return ({ s with fs }, .written index)
      | .error e => return ({ s with fs }, .error index e)
    | .read index begin length => do
      let result ← readRange s.layout s.files s.fs index begin length
      return (s, .reply result)
  else .ok (s, .nothing)

end RustyTorrent.Storage
