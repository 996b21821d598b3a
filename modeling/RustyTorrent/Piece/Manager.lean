import RustyTorrent.Error
import RustyTorrent.Support.Geometry

/-!
# The piece manager

`piece/manager.rs`: the block-level state of every piece.  Bit vectors are
lists of booleans; indexing past the end and arithmetic overflow unwind.
-/

namespace RustyTorrent.Piece

def blockSize : ℕ := 16384

inductive PieceState where
  | missing
  | inProgress
  | complete
  deriving DecidableEq, Repr

inductive BlockOutcome where
  | duplicate
  | stored
  | completed (bytes : Bytes)
  deriving DecidableEq, Repr

def pieceSizeFor (index pieceLength totalLength numPieces : ℕ) :
    Outcome Error ℕ :=
  Geometry.checkedSize index pieceLength totalLength numPieces

def numBlocksForPiece (index pieceLength totalLength numPieces : ℕ) :
    Outcome Error ℕ := do
  let ps ← pieceSizeFor index pieceLength totalLength numPieces
  Outcome.checkedDivCeil ps blockSize

structure PieceManager where
  pieceLength : ℕ
  totalLength : ℕ
  numPieces : ℕ
  states : List PieceState
  requested : List (List Bool)
  received : List (List Bool)
  buffers : List (Option Bytes)
  localBits : List Bool
  wanted : List Bool
  deriving DecidableEq, Repr

namespace PieceManager

def new (pieceLength totalLength numPieces : ℕ) :
    Outcome Error PieceManager := do
  Outcome.assert (decide (0 < numPieces))
  let blocks ← Outcome.traverse
    (fun i => numBlocksForPiece i pieceLength totalLength numPieces)
    (List.range numPieces)
  return {
    pieceLength, totalLength, numPieces,
    states := List.replicate numPieces .missing,
    requested := blocks.map fun nb => List.replicate nb false,
    received := blocks.map fun nb => List.replicate nb false,
    buffers := List.replicate numPieces none,
    localBits := List.replicate numPieces false,
    wanted := List.replicate numPieces true }

variable (pm : PieceManager)

/-- `set_wanted`: a mask of the wrong length is ignored. -/
def setWanted (mask : List Bool) : PieceManager :=
  if mask.length ≠ pm.numPieces then pm else { pm with wanted := mask }

def isWanted (index : ℕ) : Bool := pm.wanted.getD index false

def pieceSize (index : ℕ) : Outcome Error ℕ :=
  pieceSizeFor index pm.pieceLength pm.totalLength pm.numPieces

def numBlocks (index : ℕ) : Outcome Error ℕ :=
  numBlocksForPiece index pm.pieceLength pm.totalLength pm.numPieces

def blockLength (index blockIndex : ℕ) : Outcome Error ℕ := do
  let pieceSize ← pm.pieceSize index
  let begin ← Outcome.checkedMul 64 blockIndex blockSize
  let remain := pieceSize - begin
  return min remain blockSize

def markComplete (index : ℕ) : Outcome Error PieceManager := do
  let states ← Outcome.update index .complete pm.states
  let localBits ← Outcome.update index true pm.localBits
  let buffers ← Outcome.update index none pm.buffers
  return { pm with states, localBits, buffers }

def markCompleteVerified (index : ℕ) : Outcome Error PieceManager :=
  pm.markComplete index

/-- The transition out of `Missing`, with a zeroed assembly buffer. -/
def startPiece (index : ℕ) : Outcome Error PieceManager := do
  let state ← Outcome.index index pm.states
  if state = .missing then do
    let states ← Outcome.update index .inProgress pm.states
    let size ← pm.pieceSize index
    let buffers ← Outcome.update index (some (List.replicate size 0))
      pm.buffers
    return { pm with states, buffers }
  else return pm

/-- Set one bit of a row of a bit table. -/
def setBit (index b : ℕ) (value : Bool) (table : List (List Bool)) :
    Outcome Error (List (List Bool)) := do
  let row ← Outcome.index index table
  let row ← Outcome.update b value row
  Outcome.update index row table

/-- The begin offset and the length of a block (`u32`). -/
def blockSpan (index b : ℕ) : Outcome Error (ℕ × ℕ) := do
  let begin ← Outcome.checkedMul 32 (b % 2 ^ 32) blockSize
  let length ← pm.blockLength index b
  return (begin, length)

/-- The loop of `reserve_block` over the blocks from number `b` on. -/
def reserveLoop (index : ℕ) :
    ℕ → ℕ → Outcome Error (PieceManager × Option (ℕ × ℕ))
  | 0, _ => .ok (pm, none)
  | left + 1, b => do
    let requestedRow ← Outcome.index index pm.requested
    let requestedBit ← Outcome.index b requestedRow
    let receivedRow ← Outcome.index index pm.received
    let receivedBit ← Outcome.index b receivedRow
    if !requestedBit && !receivedBit then do
      let requested ← setBit index b true pm.requested
      let span ← pm.blockSpan index b
      return ({ pm with requested }, some span)
    else reserveLoop index left (b + 1)

def reserveBlock (index : ℕ) :
    Outcome Error (PieceManager × Option (ℕ × ℕ)) := do
  let state ← Outcome.index index pm.states
  if state = .complete then return (pm, none)
  else do
    let pm ← pm.startPiece index
    let nb ← pm.numBlocks index
    pm.reserveLoop index nb 0

def unfinishedBlocks (index : ℕ) : Outcome Error (List (ℕ × ℕ)) := do
  let nb ← pm.numBlocks index
  let spans ← Outcome.traverse
    (fun b => do
      let row ← Outcome.index index pm.received
      let bit ← Outcome.index b row
      if bit then return none
      else do
        let span ← pm.blockSpan index b
        return some span)
    (List.range nb)
  return spans.reduceOption

def releaseBlock (index begin : ℕ) : Outcome Error PieceManager := do
  let state ← Outcome.index index pm.states
  if state = .complete then return pm
  else if begin % blockSize = 0 then do
    let row ← Outcome.index index pm.requested
    if begin / blockSize < row.length then do
      let requested ← setBit index (begin / blockSize) false pm.requested
      return { pm with requested }
    else return pm
  else return pm

def releasePieceInflight (index : ℕ) : Outcome Error PieceManager := do
  let state ← Outcome.index index pm.states
  if state = .complete then return pm
  else do
    let nb ← pm.numBlocks index
    let receivedRow ← Outcome.index index pm.received
    let requestedRow ← Outcome.index index pm.requested
    let kept ← Outcome.traverse
      (fun b => do
        let receivedBit ← Outcome.index b receivedRow
        let requestedBit ← Outcome.index b requestedRow
        return requestedBit && receivedBit)
      (List.range nb)
    let requested ← Outcome.update index (kept ++ requestedRow.drop nb)
      pm.requested
    return { pm with requested }

/-- The copy of a block into the assembly buffer. -/
def writeInto (buf : Bytes) (begin : ℕ) (data : Bytes) : Bytes :=
  buf.take begin ++ data ++ buf.drop (begin + data.length)

/-- `received_block`, with the state it leaves. -/
def receivedBlock (index begin : ℕ) (data : Bytes) :
    Outcome Error (PieceManager × Except Error BlockOutcome) := do
  if pm.numPieces ≤ index then
    return (pm, .error (.network s!"block for invalid piece {index}"))
  let state ← Outcome.index index pm.states
  if state = .complete then return (pm, .ok .duplicate)
  if begin % blockSize ≠ 0 then
    return (pm, .error
      (.network s!"block begin {begin} not multiple of {blockSize}"))
  let blockIndex := begin / blockSize
  let nb ← pm.numBlocks index
  if nb ≤ blockIndex then
    return (pm, .error
      (.network s!"block {blockIndex} out of range for piece {index}"))
  let expectedLen ← pm.blockLength index blockIndex
  if data.length ≠ expectedLen then
    return (pm, .error
      (.network s!"block size {data.length} != expected {expectedLen}"))
  let pm ← pm.startPiece index
  let row ← Outcome.index index pm.received
  let bit ← Outcome.index blockIndex row
  if bit then return (pm, .ok .duplicate)
  let buffer ← Outcome.index index pm.buffers
  match buffer with
  | none => return (pm, .error (.network "buffer missing"))
  | some buf => do
    Outcome.assert (decide (begin + expectedLen ≤ buf.length))
    let written := writeInto buf begin data
    let received ← setBit index blockIndex true pm.received
    let requested ← setBit index blockIndex true pm.requested
    let row ← Outcome.index index received
    if row.all id then do
      let buffers ← Outcome.update index none pm.buffers
      return ({ pm with received, requested, buffers },
        .ok (.completed written))
    else do
      let buffers ← Outcome.update index (some written) pm.buffers
      return ({ pm with received, requested, buffers }, .ok .stored)

/-- Clear the first `nb` bits of a row of a bit table. -/
def clearBits (index nb : ℕ) (table : List (List Bool)) :
    Outcome Error (List (List Bool)) := do
  let row ← Outcome.index index table
  Outcome.assert (decide (nb ≤ row.length))
  Outcome.update index (List.replicate nb false ++ row.drop nb) table

def resetPiece (index : ℕ) : Outcome Error PieceManager := do
  let states ← Outcome.update index .missing pm.states
  let buffers ← Outcome.update index none pm.buffers
  let nb ← pm.numBlocks index
  let requested ← clearBits index nb pm.requested
  let received ← clearBits index nb pm.received
  return { pm with states, buffers, requested, received }

def state (index : ℕ) : Outcome Error PieceState :=
  Outcome.index index pm.states

def localBitfield : List Bool := pm.localBits

def isComplete : Bool :=
  (List.range pm.numPieces).all fun i =>
    !pm.wanted.getD i false || pm.localBits.getD i false

def completeCount : ℕ := pm.localBits.count true

def missingCount : ℕ :=
  ((List.range pm.numPieces).filter fun i =>
    pm.wanted.getD i false && !pm.localBits.getD i false).length

def missingPieces : List ℕ :=
  (pm.states.zipIdx.filter fun e => e.1 ≠ .complete).map Prod.snd

end PieceManager

end RustyTorrent.Piece
