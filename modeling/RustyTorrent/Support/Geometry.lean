import RustyTorrent.Support.Outcome

/-!
# Cutting a stream into pieces

A stream of `totalLength` bytes cut into pieces of `pieceLength` bytes, the
last one possibly shorter.  The number of pieces and the bounds are carried by
the structure, so every position computed from it is in range.
-/

namespace RustyTorrent

open Outcome Nat

/-- A stream with its cut into pieces. -/
structure Geometry where
  pieceLength : ℕ
  totalLength : ℕ
  numPieces : ℕ
  pieceLength_pos : 0 < pieceLength
  totalLength_pos : 0 < totalLength
  numPieces_eq : numPieces = Outcome.divCeil totalLength pieceLength

namespace Geometry

/-- The length of a piece as programs compute it: a checked increment, a
remainder, and the full length when nothing is left over. -/
def checkedSize {ε : Type*} (i pieceLength totalLength numPieces : ℕ) :
    Outcome ε ℕ := do
  let next ← Outcome.checkedAdd 64 i 1
  if next = numPieces then do
    let r ← Outcome.checkedRem totalLength pieceLength
    if r = 0 then return pieceLength else return r
  else return pieceLength

variable (g : Geometry)

/-- The position at which piece `i` starts. -/
def start (i : ℕ) : ℕ := i * g.pieceLength

/-- The length of piece `i`. -/
def size (i : ℕ) : ℕ :=
  if i + 1 = g.numPieces then
    if g.totalLength % g.pieceLength = 0 then g.pieceLength
    else g.totalLength % g.pieceLength
  else g.pieceLength

variable {i : ℕ}

theorem checkedSize_eq {ε : Type*} (hi : i + 1 < 2 ^ 64) :
    (checkedSize i g.pieceLength g.totalLength g.numPieces : Outcome ε ℕ) =
      .ok (g.size i) := by
  rw [checkedSize, checkedAdd_of_lt hi, ok_bind,
    checkedRem_of_pos g.pieceLength_pos, ok_bind, size]
  split
  · split
    · rfl
    · rfl
  · rfl

theorem numPieces_pos : 0 < g.numPieces := by
  have htotal := g.totalLength_pos
  rw [g.numPieces_eq, Outcome.divCeil]
  split
  next hmod =>
    have hle := le_of_dvd htotal (dvd_of_mod_eq_zero hmod)
    exact div_pos hle g.pieceLength_pos
  next => exact succ_pos _

theorem start_add_size_last (hi : i + 1 = g.numPieces) :
    g.start i + g.size i = g.totalLength := by
  have hsplit := div_add_mod g.totalLength g.pieceLength
  have hcount := g.numPieces_eq
  rw [Outcome.divCeil] at hcount
  rw [start, size, if_pos hi, mul_comm]
  by_cases hmod : g.totalLength % g.pieceLength = 0
  · rw [if_pos hmod] at hcount ⊢
    rw [← hcount, ← hi, mul_add, hmod] at hsplit
    omega
  · rw [if_neg hmod] at hcount ⊢
    have hquot : i = g.totalLength / g.pieceLength := by omega
    rw [hquot]
    exact hsplit

theorem size_of_lt (hi : i + 1 < g.numPieces) : g.size i = g.pieceLength :=
  if_neg (by omega)

theorem start_succ (i : ℕ) : g.start (i + 1) = g.start i + g.pieceLength := by
  rw [start, start, add_mul, one_mul]

theorem size_le (i : ℕ) : g.size i ≤ g.pieceLength := by
  have hmod := mod_lt g.totalLength g.pieceLength_pos
  unfold size
  split
  · split
    · exact le_refl _
    · omega
  · exact le_refl _

theorem size_pos (i : ℕ) : 0 < g.size i := by
  have hpos := g.pieceLength_pos
  unfold size
  split
  · split
    · exact hpos
    · omega
  · exact hpos

theorem start_add_size_le_start {j : ℕ} (h : i < j) :
    g.start i + g.size i ≤ g.start j := by
  have hsize := g.size_le i
  have hmono : g.start (i + 1) ≤ g.start j := mul_le_mul_right _ h
  rw [start_succ] at hmono
  omega

theorem start_add_size_le (hi : i < g.numPieces) :
    g.start i + g.size i ≤ g.totalLength := by
  by_cases hlast : i + 1 = g.numPieces
  · exact le_of_eq (g.start_add_size_last hlast)
  · have hnext := g.start_add_size_le_start
      (lt_sub_of_add_lt (by omega : i + 1 < g.numPieces))
    have hend := g.start_add_size_last (Nat.sub_add_cancel g.numPieces_pos)
    omega

theorem exists_piece {pos : ℕ} (hpos : pos < g.totalLength) :
    ∃ i < g.numPieces, g.start i ≤ pos ∧ pos < g.start i + g.size i := by
  have hstart : g.start (pos / g.pieceLength) ≤ pos :=
    div_mul_le_self pos g.pieceLength
  have hnext : pos < g.start (pos / g.pieceLength + 1) := by
    rw [start_succ, start, mul_comm]
    have := div_add_mod pos g.pieceLength
    have := mod_lt pos g.pieceLength_pos
    omega
  have hcount : pos / g.pieceLength < g.numPieces := by
    by_contra hge
    -- A later start would already be past the end of the stream.
    have hlast := g.start_add_size_last (Nat.sub_add_cancel g.numPieces_pos)
    have hbefore := g.start_add_size_le_start
      (by have := g.numPieces_pos; omega :
        g.numPieces - 1 < pos / g.pieceLength)
    omega
  refine ⟨pos / g.pieceLength, hcount, hstart, ?_⟩
  by_cases hlast : pos / g.pieceLength + 1 = g.numPieces
  · rw [g.start_add_size_last hlast]
    exact hpos
  · rw [g.size_of_lt (by omega), ← start_succ]
    exact hnext

end Geometry

end RustyTorrent
