import RustyTorrent.Piece.Manager

/-!
# The shape of a piece manager

A piece manager for a given cut of the stream: one entry per piece in every
table, and one bit per block in every row.  On such a manager the sizes are
those of the cut, no index is out of range and no product overflows.
-/

namespace RustyTorrent

open Outcome List Option

namespace Geometry

variable (g : Geometry)

/-- The number of blocks of a piece. -/
def blocks (i : ℕ) : ℕ := Outcome.divCeil (g.size i) Piece.blockSize

/-- The length of a block: full, except at the end of the piece. -/
def blockLength (i b : ℕ) : ℕ :=
  min (g.size i - b * Piece.blockSize) Piece.blockSize

theorem lt_blocks_iff {i b : ℕ} :
    b < g.blocks i ↔ b * Piece.blockSize < g.size i := by
  unfold blocks Outcome.divCeil Piece.blockSize
  split <;> omega

theorem blocks_pos (i : ℕ) : 0 < g.blocks i := by
  rw [lt_blocks_iff, Nat.zero_mul]
  exact g.size_pos i

end Geometry

namespace Piece.PieceManager

/-- The tables of `pm` fit the cut `g`. -/
structure Fits (pm : PieceManager) (g : Geometry) : Prop where
  pieceLength : pm.pieceLength = g.pieceLength
  totalLength : pm.totalLength = g.totalLength
  numPieces : pm.numPieces = g.numPieces
  pieceLength_le : g.pieceLength ≤ 2 ^ 30
  numPieces_lt : g.numPieces < 2 ^ 64
  states : pm.states.length = g.numPieces
  buffers : pm.buffers.length = g.numPieces
  localBits : pm.localBits.length = g.numPieces
  wanted : pm.wanted.length = g.numPieces
  requested : pm.requested.map List.length =
    (List.range g.numPieces).map g.blocks
  received : pm.received.map List.length =
    (List.range g.numPieces).map g.blocks

variable {pm : PieceManager} {g : Geometry}

theorem pieceSizeFor_eq {i : ℕ} (hi : i + 1 < 2 ^ 64) :
    pieceSizeFor i g.pieceLength g.totalLength g.numPieces = .ok (g.size i) :=
  g.checkedSize_eq hi

theorem numBlocksForPiece_eq {i : ℕ} (hi : i + 1 < 2 ^ 64) :
    numBlocksForPiece i g.pieceLength g.totalLength g.numPieces =
      .ok (g.blocks i) := by
  rw [numBlocksForPiece, pieceSizeFor_eq hi, ok_bind,
    checkedDivCeil_of_pos (by decide)]
  rfl

/-- The manager a download starts with. -/
def fresh (g : Geometry) : PieceManager where
  pieceLength := g.pieceLength
  totalLength := g.totalLength
  numPieces := g.numPieces
  states := List.replicate g.numPieces .missing
  requested := (List.range g.numPieces).map fun i =>
    List.replicate (g.blocks i) false
  received := (List.range g.numPieces).map fun i =>
    List.replicate (g.blocks i) false
  buffers := List.replicate g.numPieces none
  localBits := List.replicate g.numPieces false
  wanted := List.replicate g.numPieces true

theorem new_eq (hcount : g.numPieces < 2 ^ 64) :
    new g.pieceLength g.totalLength g.numPieces = .ok (fresh g) := by
  have hblocks : Outcome.traverse
      (fun i => numBlocksForPiece i g.pieceLength g.totalLength g.numPieces)
      (range g.numPieces) =
      .ok ((range g.numPieces).map g.blocks) := by
    apply traverse_of_forall
    intro i hi
    apply numBlocksForPiece_eq
    have := mem_range.mp hi
    omega
  rw [new, hblocks]
  simp [g.numPieces_pos, fresh]

theorem fresh_fits (hlen : g.pieceLength ≤ 2 ^ 30)
    (hcount : g.numPieces < 2 ^ 64) : (fresh g).Fits g where
  pieceLength := rfl
  totalLength := rfl
  numPieces := rfl
  pieceLength_le := hlen
  numPieces_lt := hcount
  states := length_replicate
  buffers := length_replicate
  localBits := length_replicate
  wanted := length_replicate
  requested := by simp [fresh, Function.comp_def]
  received := by simp [fresh, Function.comp_def]

/-! ## Sizes -/

namespace Fits

variable (h : pm.Fits g)

include h

variable {i : ℕ}

theorem pieceSize_eq (hi : i < g.numPieces) :
    pm.pieceSize i = .ok (g.size i) := by
  have hlt := h.numPieces_lt
  rw [pieceSize, h.pieceLength, h.totalLength, h.numPieces]
  exact pieceSizeFor_eq (by omega)

theorem numBlocks_eq (hi : i < g.numPieces) :
    pm.numBlocks i = .ok (g.blocks i) := by
  have hlt := h.numPieces_lt
  rw [numBlocks, h.pieceLength, h.totalLength, h.numPieces]
  exact numBlocksForPiece_eq (by omega)

theorem block_bound {b : ℕ} (hb : b < g.blocks i) : b * blockSize < 2 ^ 30 := by
  have hlt := g.lt_blocks_iff.mp hb
  have hsize := g.size_le i
  have hlen := h.pieceLength_le
  omega

theorem blockLength_eq {b : ℕ} (hi : i < g.numPieces) (hb : b < g.blocks i)
    : pm.blockLength i b = .ok (g.blockLength i b) := by
  have hbound := h.block_bound hb
  rw [blockLength, h.pieceSize_eq hi, ok_bind,
    checkedMul_of_lt (by omega), ok_bind]
  rfl

theorem blockSpan_eq {b : ℕ} (hi : i < g.numPieces) (hb : b < g.blocks i) :
    pm.blockSpan i b = .ok (b * blockSize, g.blockLength i b) := by
  have hbound := h.block_bound hb
  have hsmall : b % 2 ^ 32 = b := by
    apply Nat.mod_eq_of_lt
    unfold blockSize at hbound
    omega
  rw [blockSpan, hsmall, checkedMul_of_lt (by omega),
    ok_bind, h.blockLength_eq hi hb]
  rfl

/-! ## Rows of bits -/

theorem received_row (hi : i < g.numPieces) :
    ∃ row, pm.received[i]? = some row ∧ row.length = g.blocks i := by
  have hlen := congrArg (fun l : List ℕ => l[i]?) h.received
  simp only [getElem?_map, getElem?_range hi, map_some, map_eq_some_iff] at hlen
  exact hlen

theorem requested_row (hi : i < g.numPieces) :
    ∃ row, pm.requested[i]? = some row ∧ row.length = g.blocks i := by
  have hlen := congrArg (fun l : List ℕ => l[i]?) h.requested
  simp only [getElem?_map, getElem?_range hi, map_some, map_eq_some_iff] at hlen
  exact hlen

theorem requested_length : pm.requested.length = g.numPieces := by
  simpa using congrArg length h.requested

theorem received_length : pm.received.length = g.numPieces := by
  simpa using congrArg length h.received

end Fits

end Piece.PieceManager

end RustyTorrent
