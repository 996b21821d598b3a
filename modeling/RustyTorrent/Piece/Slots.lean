import RustyTorrent.Piece.ManagerSpec

/-!
# One piece at a time

The four tables of a piece manager hold, for each piece, its state, its
assembly buffer and two rows of bits.  Every operation reads and replaces the
entries of one piece only: on a manager that fits the cut it returns, and what
it does is an operation on that piece's slot (`Slot.reserve`, `Slot.release`,
`Slot.receive`, …).
-/

namespace RustyTorrent.Piece

open Outcome List Option Nat

/-- The entries of one piece. -/
structure Slot where
  state : PieceState
  buffer : Option Bytes
  requested : List Bool
  received : List Bool

namespace Slot

/-- A piece of `blocks` blocks of which nothing is known. -/
def blank (blocks : ℕ) : Slot where
  state := .missing
  buffer := none
  requested := List.replicate blocks false
  received := List.replicate blocks false

/-- The transition out of `Missing`, with a zeroed assembly buffer. -/
def started (size : ℕ) (s : Slot) : Slot :=
  if s.state = .missing then
    { s with
      state := .inProgress
      buffer := some (List.replicate size 0) }
  else s

/-- Whether a block is neither requested nor received. -/
def free (s : Slot) (b : ℕ) : Bool :=
  !s.requested.getD b false && !s.received.getD b false

/-- `reserve_block`: the first free block. -/
def reserve (g : Geometry) (i : ℕ) (s : Slot) : Slot × Option (ℕ × ℕ) :=
  if s.state = .complete then (s, none)
  else
    match (List.range (g.blocks i)).find? s.free with
    | none => (s.started (g.size i), none)
    | some b =>
      ({ s.started (g.size i) with requested := s.requested.set b true },
        some (b * blockSize, g.blockLength i b))

/-- `release_block`. -/
def release (begin : ℕ) (s : Slot) : Slot :=
  if s.state ≠ .complete ∧ begin % blockSize = 0 then
    { s with requested := s.requested.set (begin / blockSize) false }
  else s

/-- `release_piece_inflight`: only what is received stays requested. -/
def releaseInflight (s : Slot) : Slot :=
  if s.state = .complete then s
  else { s with requested := s.requested.zipWith (· && ·) s.received }

/-- `mark_complete`. -/
def complete (s : Slot) : Slot :=
  { s with state := .complete, buffer := none }

/-- Block `b` goes into the buffer; with the last one the buffer is handed
out. -/
def store (b : ℕ) (data buf : Bytes) (s : Slot) :
    Slot × Except Error BlockOutcome :=
  let written := PieceManager.writeInto buf (b * blockSize) data
  if (s.received.set b true).all id then
    ({ s with
       buffer := none
       requested := s.requested.set b true
       received := s.received.set b true }, .ok (.completed written))
  else
    ({ s with
       buffer := some written
       requested := s.requested.set b true
       received := s.received.set b true }, .ok .stored)

/-- What `received_block` finds wrong with a block. -/
def fault (g : Geometry) (i begin : ℕ) (data : Bytes) : Option String :=
  let blockIndex := begin / blockSize
  let expectedLen := g.blockLength i blockIndex
  if begin % blockSize ≠ 0 then
    some s!"block begin {begin} not multiple of {blockSize}"
  else if g.blocks i ≤ blockIndex then
    some s!"block {blockIndex} out of range for piece {i}"
  else if data.length ≠ expectedLen then
    some s!"block size {data.length} != expected {expectedLen}"
  else none

/-- `received_block` for a block that passed the checks. -/
def take (g : Geometry) (i b : ℕ) (data : Bytes) (s : Slot) :
    Slot × Except Error BlockOutcome :=
  if s.received.getD b false then (s.started (g.size i), .ok .duplicate)
  else
    match (s.started (g.size i)).buffer with
    | none =>
      (s.started (g.size i), .error (.network "buffer missing"))
    | some buf => (s.started (g.size i)).store b data buf

/-- `received_block`. -/
def receive (g : Geometry) (i begin : ℕ) (data : Bytes) (s : Slot) :
    Slot × Except Error BlockOutcome :=
  if s.state = .complete then (s, .ok .duplicate)
  else
    match fault g i begin data with
    | some text => (s, .error (.network text))
    | none => s.take g i (begin / blockSize) data

variable {s : Slot} {size : ℕ}

theorem started_of_missing (h : s.state = .missing) : s.started size =
      { s with
        state := .inProgress
        buffer := some (replicate size 0) } :=
  if_pos h

theorem started_of_ne (h : s.state ≠ .missing) : s.started size = s :=
  if_neg h

@[simp] theorem started_requested (size : ℕ) (s : Slot) :
    (s.started size).requested = s.requested := by
  rw [started]
  split <;> rfl

@[simp] theorem started_received (size : ℕ) (s : Slot) :
    (s.started size).received = s.received := by
  rw [started]
  split <;> rfl

theorem started_buffer {buf : Bytes} (h : (s.started size).buffer = some buf) :
    s.buffer = some buf ∨ buf.length = size := by
  rw [started] at h
  split at h
  · cases h
    exact .inr length_replicate
  · exact .inl h

theorem free_iff {b : ℕ} : s.free b = true ↔
    s.requested.getD b false = false ∧ s.received.getD b false = false := by
  rw [free, Bool.and_eq_true, Bool.not_eq_true', Bool.not_eq_true']

theorem fault_eq_none {g : Geometry} {i begin : ℕ} {data : Bytes} :
    fault g i begin data = none ↔ begin % blockSize = 0 ∧
      begin / blockSize < g.blocks i ∧
      data.length = g.blockLength i (begin / blockSize) := by
  rw [fault]
  split_ifs with hbegin hblock hlen
  · simp [hbegin]
  · simp [not_lt.mpr hblock]
  · simp [hlen]
  · simpa using ⟨not_not.mp hbegin, Nat.lt_of_not_le hblock, not_not.mp hlen⟩

end Slot

namespace PieceManager

variable {pm : PieceManager} {g : Geometry} {i j : ℕ} {s t : Slot}

/-! ## Tables -/

variable {table : List (List Bool)}

theorem setBit_eq_ok {b : ℕ} {value : Bool} {table' : List (List Bool)} :
    setBit i b value table = .ok table' ↔
      ∃ row, table[i]? = some row ∧ b < row.length ∧
        table' = table.set i (row.set b value) := by
  simp only [setBit, bind_eq_ok, index_eq_ok, update_eq_ok]
  constructor
  · rintro ⟨row, hrow, row', ⟨hb, rfl⟩, -, rfl⟩
    exact ⟨row, hrow, hb, rfl⟩
  · rintro ⟨row, hrow, hb, rfl⟩
    have hi : i < table.length := (List.getElem?_eq_some_iff.mp hrow).1
    exact ⟨row, hrow, _, ⟨hb, rfl⟩, hi, rfl⟩

theorem map_length_set {row row' : List Bool} (hrow : table[i]? = some row)
    (hlen : row'.length = row.length) :
    (table.set i row').map length = table.map length := by
  rw [map_set, hlen]
  apply ext_getElem?
  intro j
  by_cases hj : i = j
  · subst hj
    have hi : i < table.length := (List.getElem?_eq_some_iff.mp hrow).1
    rw [getElem?_set_self (by simpa using hi), getElem?_map, hrow]
    rfl
  · rw [getElem?_set_ne hj]

theorem clearBits_eq {row : List Bool} {n : ℕ} (hrow : table[i]? = some row)
    (hlen : row.length = n) :
    clearBits i n table = .ok (table.set i (replicate n false)) := by
  have hi : i < table.length := (List.getElem?_eq_some_iff.mp hrow).1
  have hle : decide (n ≤ row.length) = true := by
    rw [decide_eq_true_eq]
    exact le_of_eq hlen.symm
  rw [clearBits, index_eq_ok.mpr hrow, ok_bind, hle,
    assert_true, ok_bind, ← hlen, drop_length,
    append_nil, update_of_lt hi]

/-- The entries of piece `i` are those of `s`. -/
structure SlotAt (pm : PieceManager) (i : ℕ) (s : Slot) : Prop where
  state : pm.states[i]? = some s.state
  buffer : pm.buffers[i]? = some s.buffer
  requested : pm.requested[i]? = some s.requested
  received : pm.received[i]? = some s.received

/-- Replace the entries of piece `i`. -/
def put (pm : PieceManager) (i : ℕ) (s : Slot) : PieceManager :=
  { pm with
    states := pm.states.set i s.state
    buffers := pm.buffers.set i s.buffer
    requested := pm.requested.set i s.requested
    received := pm.received.set i s.received }

theorem put_put (pm : PieceManager) (i : ℕ) (s t : Slot) :
    (pm.put i s).put i t = pm.put i t := by
  simp [put, set_set]

theorem set_of_getElem? {α : Type*} {xs : List α} {a : α}
    (h : xs[i]? = some a) : xs.set i a = xs := by
  obtain ⟨hlt, rfl⟩ := List.getElem?_eq_some_iff.mp h
  exact set_getElem_self hlt

theorem SlotAt.put_self (h : pm.SlotAt i s) : pm.put i s = pm := by
  rw [put, set_of_getElem? h.state, set_of_getElem? h.buffer,
    set_of_getElem? h.requested, set_of_getElem? h.received]

theorem SlotAt.put_ne (h : pm.SlotAt j t) (hne : i ≠ j) (s : Slot) :
    (pm.put i s).SlotAt j t where
  state := (getElem?_set_ne hne).trans h.state
  buffer := (getElem?_set_ne hne).trans h.buffer
  requested := (getElem?_set_ne hne).trans h.requested
  received := (getElem?_set_ne hne).trans h.received

theorem SlotAt.put_requested (h : pm.SlotAt i s) (row : List Bool) :
    pm.put i { s with requested := row } =
      { pm with requested := pm.requested.set i row } := by
  rw [PieceManager.put, set_of_getElem? h.state, set_of_getElem? h.buffer,
    set_of_getElem? h.received]

namespace Fits

variable (h : pm.Fits g)

include h

section

variable (hi : i < g.numPieces)

include hi

theorem exists_slotAt : ∃ s, pm.SlotAt i s := by
  obtain ⟨requested, hrequested, -⟩ := h.requested_row hi
  obtain ⟨received, hreceived, -⟩ := h.received_row hi
  have hstate : i < pm.states.length := by rwa [h.states]
  have hbuffer : i < pm.buffers.length := by rwa [h.buffers]
  exact ⟨⟨pm.states[i], pm.buffers[i], requested, received⟩,
    getElem?_eq_getElem hstate, getElem?_eq_getElem hbuffer,
    hrequested, hreceived⟩

theorem slotAt_put (s : Slot) :
    (pm.put i s).SlotAt i s where
  state := getElem?_set_self (by rwa [h.states])
  buffer := getElem?_set_self (by rwa [h.buffers])
  requested := getElem?_set_self (by rwa [h.requested_length])
  received := getElem?_set_self (by rwa [h.received_length])

theorem rows_length (hs : pm.SlotAt i s) :
    s.requested.length = g.blocks i ∧ s.received.length = g.blocks i := by
  obtain ⟨requested, hrequested, hreqLen⟩ := h.requested_row hi
  obtain ⟨received, hreceived, hrecLen⟩ := h.received_row hi
  rw [hs.requested, some.injEq] at hrequested
  rw [hs.received, some.injEq] at hreceived
  exact ⟨hrequested ▸ hreqLen, hreceived ▸ hrecLen⟩

theorem put (hrequested : s.requested.length = g.blocks i)
    (hreceived : s.received.length = g.blocks i) : (pm.put i s).Fits g := by
  obtain ⟨requested, hreqRow, hreqLen⟩ := h.requested_row hi
  obtain ⟨received, hrecRow, hrecLen⟩ := h.received_row hi
  refine { h with
    states := ?_, buffers := ?_, requested := ?_, received := ?_ }
  · exact length_set.trans h.states
  · exact length_set.trans h.buffers
  · exact (map_length_set hreqRow (hrequested.trans hreqLen.symm)).trans
      h.requested
  · exact (map_length_set hrecRow (hreceived.trans hrecLen.symm)).trans
      h.received

theorem put_started (hs : pm.SlotAt i s) (n : ℕ) :
    (pm.put i (s.started n)).Fits g := by
  obtain ⟨hreqLen, hrecLen⟩ := h.rows_length hi hs
  exact h.put hi (by simpa using hreqLen) (by simpa using hrecLen)

end

/-! ## The operations -/

section

variable (hi : i < g.numPieces) (hs : pm.SlotAt i s)

include hi hs

theorem startPiece_eq :
    pm.startPiece i = .ok (pm.put i (s.started (g.size i))) := by
  have hstates : i < pm.states.length := by rwa [h.states]
  have hbuffers : i < pm.buffers.length := by rwa [h.buffers]
  rw [PieceManager.startPiece, index_eq_ok.mpr hs.state, ok_bind]
  by_cases hmissing : s.state = .missing
  · rw [if_pos hmissing, update_of_lt hstates, ok_bind,
      h.pieceSize_eq hi, ok_bind, update_of_lt hbuffers,
      ok_bind, Slot.started_of_missing hmissing,
      PieceManager.put, set_of_getElem? hs.requested,
      set_of_getElem? hs.received]
    rfl
  · rw [if_neg hmissing, Slot.started_of_ne hmissing, hs.put_self]
    rfl

theorem setBit_requested {b : ℕ} (hb : b < g.blocks i) (value : Bool) :
    setBit i b value pm.requested =
      .ok (pm.requested.set i (s.requested.set b value)) := by
  refine setBit_eq_ok.mpr ⟨s.requested, hs.requested, ?_, rfl⟩
  rwa [(h.rows_length hi hs).1]

theorem reserveLoop_eq {left b : ℕ} (hb : b + left ≤ g.blocks i) :
    pm.reserveLoop i left b = .ok (
      match (range' b left).find? s.free with
      | none => (pm, none)
      | some c =>
        (pm.put i { s with requested := s.requested.set c true },
          some (c * blockSize, g.blockLength i c))) := by
  induction left generalizing b with
  | zero => rfl
  | succ left ih =>
    obtain ⟨hreqLen, hrecLen⟩ := h.rows_length hi hs
    have hlt : b < g.blocks i := by omega
    have hreq : b < s.requested.length := by rwa [hreqLen]
    have hrec : b < s.received.length := by rwa [hrecLen]
    have hfree : s.free b = (!s.requested[b] && !s.received[b]) := by
      simp [Slot.free, hreq, hrec]
    rw [reserveLoop, index_eq_ok.mpr hs.requested,
      ok_bind, index_of_lt hreq, ok_bind,
      index_eq_ok.mpr hs.received, ok_bind,
      index_of_lt hrec, ok_bind, ← hfree,
      range'_succ, find?_cons]
    cases s.free b with
    | true =>
      rw [if_pos rfl, h.setBit_requested hi hs hlt, ok_bind,
        h.blockSpan_eq hi hlt, ok_bind]
      dsimp only
      rw [hs.put_requested]
      rfl
    | false => exact ih (by omega)

theorem reserveBlock_eq :
    pm.reserveBlock i =
      .ok (pm.put i (s.reserve g i).1, (s.reserve g i).2) := by
  rw [reserveBlock, index_eq_ok.mpr hs.state, ok_bind, Slot.reserve]
  by_cases hcomplete : s.state = .complete
  · rw [if_pos hcomplete, if_pos hcomplete, hs.put_self]
    rfl
  have hfits := h.put_started hi hs (g.size i)
  have hfree : (s.started (g.size i)).free = s.free := by
    funext b
    simp [Slot.free]
  rw [if_neg hcomplete, if_neg hcomplete, h.startPiece_eq hi hs,
    ok_bind, hfits.numBlocks_eq hi, ok_bind,
    hfits.reserveLoop_eq hi (h.slotAt_put hi _)
      (le_of_eq (zero_add _)), hfree, range_eq_range']
  cases (range' 0 (g.blocks i)).find? s.free with
  | none => rfl
  | some c => simp [put_put]

theorem releaseBlock_eq (begin : ℕ) :
    pm.releaseBlock i begin = .ok (pm.put i (s.release begin)) := by
  rw [releaseBlock, index_eq_ok.mpr hs.state, ok_bind, Slot.release]
  by_cases hcomplete : s.state = .complete
  · rw [if_pos hcomplete, if_neg (fun hor => hor.1 hcomplete), hs.put_self]
    rfl
  rw [if_neg hcomplete]
  by_cases hbegin : begin % blockSize = 0
  · rw [if_pos hbegin, if_pos ⟨hcomplete, hbegin⟩,
      index_eq_ok.mpr hs.requested, ok_bind]
    by_cases hlt : begin / blockSize < s.requested.length
    · rw [if_pos hlt, h.setBit_requested hi hs
        (by rwa [← (h.rows_length hi hs).1]), ok_bind,
        hs.put_requested]
      rfl
    · rw [if_neg hlt, set_eq_of_length_le (Nat.le_of_not_lt hlt), hs.put_self]
      rfl
  · rw [if_neg hbegin, if_neg (fun hor => hbegin hor.2), hs.put_self]
    rfl

theorem releasePieceInflight_eq :
    pm.releasePieceInflight i = .ok (pm.put i s.releaseInflight) := by
  obtain ⟨hreqLen, hrecLen⟩ := h.rows_length hi hs
  rw [releasePieceInflight, index_eq_ok.mpr hs.state,
    ok_bind, Slot.releaseInflight]
  by_cases hcomplete : s.state = .complete
  · rw [if_pos hcomplete, if_pos hcomplete, hs.put_self]
    rfl
  have hkept : Outcome.traverse (fun b => do
        let receivedBit ← Outcome.index b s.received
        let requestedBit ← Outcome.index b s.requested
        return requestedBit && receivedBit)
      (range (g.blocks i)) =
      (.ok (s.requested.zipWith (· && ·) s.received) :
        Outcome Error (List Bool)) := by
    have hrow : s.requested.zipWith (· && ·) s.received =
        (range (g.blocks i)).map fun b =>
          s.requested.getD b false && s.received.getD b false := by
      apply ext_getElem
      · simp [hreqLen, hrecLen]
      · intro b hb hb'
        rw [length_zipWith] at hb
        obtain ⟨hreq, hrec⟩ := Nat.lt_min.mp hb
        simp [hreq, hrec]
    rw [hrow]
    apply traverse_of_forall
    intro b hb
    have hlt := mem_range.mp hb
    have hreq : b < s.requested.length := by rwa [hreqLen]
    have hrec : b < s.received.length := by rwa [hrecLen]
    simp [index_of_lt hreq, index_of_lt hrec, hreq, hrec]
  have hrequested : i < pm.requested.length := by rwa [h.requested_length]
  have hdrop : s.requested.drop (g.blocks i) = [] := by
    rw [← hreqLen, drop_length]
  rw [if_neg hcomplete, if_neg hcomplete, h.numBlocks_eq hi,
    ok_bind, index_eq_ok.mpr hs.received, ok_bind,
    index_eq_ok.mpr hs.requested, ok_bind, hkept,
    ok_bind, hdrop, append_nil,
    update_of_lt hrequested, ok_bind, hs.put_requested]
  rfl

theorem resetPiece_eq :
    pm.resetPiece i = .ok (pm.put i (.blank (g.blocks i))) := by
  obtain ⟨hreqLen, hrecLen⟩ := h.rows_length hi hs
  have hstates : i < pm.states.length := by rwa [h.states]
  have hbuffers : i < pm.buffers.length := by rwa [h.buffers]
  rw [resetPiece, update_of_lt hstates, ok_bind,
    update_of_lt hbuffers, ok_bind, h.numBlocks_eq hi,
    ok_bind, clearBits_eq hs.requested hreqLen, ok_bind,
    clearBits_eq hs.received hrecLen, ok_bind]
  rfl

theorem markComplete_eq :
    pm.markComplete i =
      .ok { pm.put i s.complete with
        localBits := pm.localBits.set i true } := by
  have hstates : i < pm.states.length := by rwa [h.states]
  have hbuffers : i < pm.buffers.length := by rwa [h.buffers]
  have hlocal : i < pm.localBits.length := by rwa [h.localBits]
  rw [markComplete, update_of_lt hstates, ok_bind, update_of_lt hlocal, ok_bind,
    update_of_lt hbuffers, ok_bind, PieceManager.put,
    Slot.complete, set_of_getElem? hs.requested,
    set_of_getElem? hs.received]
  rfl

/-- A block that passed the checks is known already, or goes into the buffer
of its piece. -/
theorem receivedBlock_take (hne : s.state ≠ .complete)
    (hbuf : ∀ buf, s.buffer = some buf → buf.length = g.size i) {b : ℕ}
    (hb : b < g.blocks i) {data : Bytes}
    (hlen : data.length = g.blockLength i b) :
    pm.receivedBlock i (b * blockSize) data =
      .ok (pm.put i (s.take g i b data).1, (s.take g i b data).2) := by
  obtain ⟨hreqLen, hrecLen⟩ := h.rows_length hi hs
  have hrange : ¬ pm.numPieces ≤ i := by
    rw [h.numPieces]
    omega
  have hmod : ¬ b * blockSize % blockSize ≠ 0 :=
    not_not.mpr (mul_mod_left b blockSize)
  have hdiv : b * blockSize / blockSize = b :=
    Nat.mul_div_cancel b (by decide)
  have hfits := h.put_started hi hs (g.size i)
  have hslot := h.slotAt_put hi (s.started (g.size i))
  have hrow := hslot.received
  rw [Slot.started_received] at hrow
  have hbit : s.received[b]? = some (s.received.getD b false) := by
    have hrec : b < s.received.length := by rwa [hrecLen]
    simp [hrec]
  rw [receivedBlock, if_neg hrange, index_eq_ok.mpr hs.state,
    ok_bind, if_neg hne, if_neg hmod, h.numBlocks_eq hi,
    ok_bind, hdiv, if_neg (not_le.mpr hb),
    h.blockLength_eq hi hb, ok_bind, if_neg (not_not.mpr hlen),
    h.startPiece_eq hi hs, ok_bind, index_eq_ok.mpr hrow,
    ok_bind, index_eq_ok.mpr hbit, ok_bind,
    Slot.take]
  cases s.received.getD b false with
  | true => rfl
  | false =>
    rw [if_neg Bool.false_ne_true, if_neg Bool.false_ne_true,
      index_eq_ok.mpr hslot.buffer, ok_bind]
    cases hbuffer : (s.started (g.size i)).buffer with
    | none => rfl
    | some buf =>
      have hsize : buf.length = g.size i :=
        (Slot.started_buffer hbuffer).elim (hbuf buf) id
      have hroom : b * blockSize + g.blockLength i b ≤ buf.length := by
        have hlt := g.lt_blocks_iff.mp hb
        rw [hsize, Geometry.blockLength]
        omega
      have hreceived : setBit i b true
          (pm.put i (s.started (g.size i))).received =
          .ok ((pm.put i (s.started (g.size i))).received.set i
            (s.received.set b true)) := by
        refine setBit_eq_ok.mpr ⟨s.received, hrow, ?_, rfl⟩
        rwa [hrecLen]
      have hnew : ((pm.put i (s.started (g.size i))).received.set i
          (s.received.set b true))[i]? = some (s.received.set b true) :=
        getElem?_set_self (by rwa [hfits.received_length])
      have hupdate : i < (pm.put i (s.started (g.size i))).buffers.length := by
        rwa [hfits.buffers]
      dsimp only
      rw [decide_eq_true hroom, assert_true, ok_bind,
        hreceived, ok_bind, hfits.setBit_requested hi hslot hb,
        ok_bind, index_eq_ok.mpr hnew, ok_bind,
        Slot.store, Slot.started_requested, Slot.started_received]
      split
      all_goals
        rw [update_of_lt hupdate, ok_bind]
        simp [PieceManager.put, set_set]

theorem receivedBlock_eq
    (hbuf : ∀ buf, s.buffer = some buf → buf.length = g.size i) (begin : ℕ)
    (data : Bytes) :
    pm.receivedBlock i begin data = .ok (pm.put i (s.receive g i begin data).1,
        (s.receive g i begin data).2) := by
  have hrange : ¬ pm.numPieces ≤ i := by
    rw [h.numPieces]
    omega
  rw [Slot.receive]
  by_cases hcomplete : s.state = .complete
  · rw [receivedBlock, if_neg hrange, index_eq_ok.mpr hs.state,
      ok_bind, if_pos hcomplete, if_pos hcomplete, hs.put_self]
    rfl
  rw [if_neg hcomplete]
  cases hfault : Slot.fault g i begin data with
  | none =>
    obtain ⟨hbegin, hb, hlen⟩ := Slot.fault_eq_none.mp hfault
    have htake := h.receivedBlock_take hi hs hcomplete hbuf hb hlen
    rwa [Nat.div_mul_cancel (Nat.dvd_of_mod_eq_zero hbegin)] at htake
  | some text =>
    rw [receivedBlock, if_neg hrange, index_eq_ok.mpr hs.state,
      ok_bind, if_neg hcomplete, h.numBlocks_eq hi, hs.put_self]
    rw [Slot.fault] at hfault
    split_ifs at hfault with hbegin hblock hlen
    · obtain rfl := some.inj hfault
      rw [if_pos hbegin]
      rfl
    · obtain rfl := some.inj hfault
      rw [if_neg hbegin, ok_bind, if_pos hblock]
      rfl
    · obtain rfl := some.inj hfault
      rw [if_neg hbegin, ok_bind, if_neg hblock,
        h.blockLength_eq hi (Nat.lt_of_not_le hblock), ok_bind,
        if_pos hlen]
      rfl

end

end Fits

end PieceManager

end RustyTorrent.Piece
