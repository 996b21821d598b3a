import RustyTorrent.Storage.LayoutSpec

/-!
# Selective download

`storage/layout.rs`: which pieces and which files a list of selectors asks
for.  A selector is a text that is looked for in the path of a file.
-/

namespace RustyTorrent.Storage

open Utf8

/-- The test of `wanted_pieces` on a file: its path, read as text, contains a
selector. -/
def FileSpan.isSelected (selectors : List Str) (f : FileSpan) : Bool :=
  let path := fromUtf8Lossy f.path
  selectors.any fun s => decide (s.1 <:+: path)

namespace Layout

/-- `selected.iter().any(..)`: whether a file of the list overlaps a range. -/
def anyOverlap (pieceStart pieceEnd : ℕ) :
    List FileSpan → Outcome Error Bool
  | [] => .ok false
  | f :: files =>
    if f.start < pieceEnd then do
      let fileEnd ← f.stop
      if pieceStart < fileEnd then .ok true
      else anyOverlap pieceStart pieceEnd files
    else anyOverlap pieceStart pieceEnd files

/-- The body of the loop of `wanted_pieces`. -/
def isWantedPiece (l : Layout) (selected : List FileSpan) (idx : ℕ) :
    Outcome Error Bool := do
  let pieceStart ← Outcome.checkedMul 64 idx l.pieceLength
  let fullEnd ← Outcome.checkedAdd 64 pieceStart l.pieceLength
  anyOverlap pieceStart (min fullEnd l.totalLength) selected

def wantedPieces (l : Layout) (selectors : List Str) :
    Outcome Error (List Bool) :=
  if selectors.isEmpty then .ok (List.replicate l.numPieces true)
  else
    let selected := l.files.filter (FileSpan.isSelected selectors)
    Outcome.traverse (l.isWantedPiece selected) (List.range l.numPieces)

/-- The inner loop of `wanted_files`: the files of the slices are marked. -/
def markSlices : List (ℕ × ℕ × ℕ) → List Bool → Outcome Error (List Bool)
  | [], marks => .ok marks
  | (fileIdx, _, _) :: slices, marks => do
    let marks ← Outcome.update fileIdx true marks
    markSlices slices marks

/-- The outer loop of `wanted_files` over the pieces from number `idx` on. -/
def markPieces (l : Layout) :
    ℕ → List Bool → List Bool → Outcome Error (List Bool)
  | _, [], marks => .ok marks
  | idx, pieceWanted :: wanted, marks =>
    if !pieceWanted then markPieces l (idx + 1) wanted marks
    else do
      let size ← l.pieceSize idx
      let slices ← l.slicesForPiece idx size
      let marks ← markSlices slices marks
      markPieces l (idx + 1) wanted marks

def wantedFiles (l : Layout) (selectors : List Str) :
    Outcome Error (List Bool) :=
  if selectors.isEmpty then .ok (List.replicate l.files.length true)
  else do
    let wanted ← l.wantedPieces selectors
    l.markPieces 0 wanted (List.replicate l.files.length false)

end Layout

end RustyTorrent.Storage
