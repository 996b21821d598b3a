import Mathlib.Algebra.BigOperators.Fin
import RustyTorrent.Piece.ManagerSpec

/-!
# Sums over pieces and blocks

The pieces of a torrent add up to it, and the blocks of a piece to the piece.
-/

namespace RustyTorrent.Geometry

open Finset

variable (g : Geometry)

theorem sum_size_lt {k : ℕ} (hk : k < g.numPieces) :
    ∑ i ∈ range k, g.size i = g.start k := by
  induction k with
  | zero => simp [start]
  | succ k ih =>
    rw [sum_range_succ, ih (by omega), g.size_of_lt hk, g.start_succ]

theorem sum_size : ∑ i ∈ range g.numPieces, g.size i = g.totalLength := by
  obtain ⟨last, hlast⟩ : ∃ last, last + 1 = g.numPieces :=
    ⟨g.numPieces - 1, Nat.sub_add_cancel g.numPieces_pos⟩
  rw [← hlast, sum_range_succ, g.sum_size_lt (by omega)]
  exact g.start_add_size_last hlast

theorem sum_blockLength_min (i k : ℕ) :
    ∑ b ∈ range k, g.blockLength i b =
      min (k * Piece.blockSize) (g.size i) := by
  induction k with
  | zero => simp
  | succ k ih =>
    rw [sum_range_succ, ih, blockLength, Nat.succ_mul]
    omega

theorem sum_blockLength (i : ℕ) :
    ∑ b ∈ range (g.blocks i), g.blockLength i b = g.size i := by
  have hle : g.size i ≤ g.blocks i * Piece.blockSize :=
    Nat.le_of_not_lt (mt g.lt_blocks_iff.mpr (Nat.lt_irrefl _))
  rw [sum_blockLength_min, Nat.min_eq_right hle]

end RustyTorrent.Geometry
