import RustyTorrent.Piece.Slots

/-!
# What the operations of a piece manager do

One statement for each operation that returns: what it changes, and that the
tables still fit the cut.  Reserving and releasing blocks changes neither what
was received nor what is complete (`Reserves`); a block that is accepted sets
one bit (`Adds`).
-/

namespace RustyTorrent.Piece

open Outcome List Slot

/-- Only the reservations change, and the piece may be started. -/
structure Slot.Keeps (g : Geometry) (i : ℕ) (s t : Slot) : Prop where
  requested : t.requested.length = s.requested.length
  received : t.received = s.received
  complete : t.state = .complete ↔ s.state = .complete
  buffer : ∀ buf, t.buffer = some buf →
    s.buffer = some buf ∨ buf.length = g.size i

namespace Slot

variable {g : Geometry} {i : ℕ}

theorem Keeps.of_requested {s t : Slot} (h : s.Keeps g i t) {row : List Bool}
    (hrow : row.length = t.requested.length) :
    s.Keeps g i { t with requested := row } :=
  { h with requested := hrow.trans h.requested }

variable (s : Slot)

theorem keeps_self : s.Keeps g i s := ⟨rfl, rfl, .rfl, fun _ => .inl⟩

theorem keeps_started : s.Keeps g i (s.started (g.size i)) where
  requested := by rw [started_requested]
  received := started_received _ s
  complete := by
    rw [started]
    split
    next h => simp [h]
    next => rfl
  buffer _ := started_buffer

theorem keeps_reserve : s.Keeps g i (s.reserve g i).1 := by
  rw [reserve]
  split
  · exact s.keeps_self
  · split
    · exact s.keeps_started
    · refine s.keeps_started.of_requested ?_
      rw [started_requested, length_set]

theorem keeps_release (begin : ℕ) : s.Keeps g i (s.release begin) := by
  rw [release]
  split
  · exact s.keeps_self.of_requested length_set
  · exact s.keeps_self

theorem keeps_releaseInflight (h : s.requested.length = s.received.length) :
    s.Keeps g i s.releaseInflight := by
  rw [releaseInflight]
  split
  · exact s.keeps_self
  · refine s.keeps_self.of_requested ?_
    rw [length_zipWith, ← h, Nat.min_self]

end Slot

namespace PieceManager

variable {pm pm' : PieceManager} {g : Geometry} {i j b c begin : ℕ}

/-! ## Slots of the operations that return -/

/-- The assembly buffers have the sizes of their pieces. -/
def Buffered (pm : PieceManager) (g : Geometry) : Prop :=
  ∀ i buf, pm.buffers[i]? = some (some buf) → buf.length = g.size i

variable {s : Slot}

theorem Buffered.slot (h : pm.Buffered g) (hs : pm.SlotAt i s) :
    ∀ buf, s.buffer = some buf → buf.length = g.size i :=
  fun buf hbuf => h i buf (hs.buffer.trans (congrArg some hbuf))

namespace Fits

variable (h : pm.Fits g)

include h

theorem slot_of_index {α β : Type} {xs : List α} {f : α → Outcome Error β}
    {r : β} (hlen : xs.length = g.numPieces)
    (hok : (Outcome.index i xs >>= f) = .ok r) :
    i < g.numPieces ∧ ∃ s, pm.SlotAt i s := by
  obtain ⟨a, ha, -⟩ := bind_eq_ok.mp hok
  have hi : i < g.numPieces := by
    rw [← hlen]
    exact (List.getElem?_eq_some_iff.mp (index_eq_ok.mp ha)).1
  exact ⟨hi, h.exists_slotAt hi⟩

theorem slot_of_update {β : Type} {state : PieceState}
    {f : List PieceState → Outcome Error β} {r : β}
    (hok : (Outcome.update i state pm.states >>= f) = .ok r) :
    i < g.numPieces ∧ ∃ s, pm.SlotAt i s := by
  obtain ⟨states, hstates, -⟩ := bind_eq_ok.mp hok
  have hi : i < g.numPieces := by
    rw [← h.states]
    exact (update_eq_ok.mp hstates).1
  exact ⟨hi, h.exists_slotAt hi⟩

theorem reserveBlock_slot {block : Option (ℕ × ℕ)}
    (hok : pm.reserveBlock i = .ok (pm', block)) :
    i < g.numPieces ∧ ∃ s, pm.SlotAt i s ∧
      pm' = pm.put i (s.reserve g i).1 ∧ block = (s.reserve g i).2 := by
  obtain ⟨hi, s, hs⟩ := h.slot_of_index h.states hok
  rw [h.reserveBlock_eq hi hs, ok.injEq, Prod.mk.injEq] at hok
  exact ⟨hi, s, hs, hok.1.symm, hok.2.symm⟩

theorem releaseBlock_slot (hok : pm.releaseBlock i begin = .ok pm') :
    i < g.numPieces ∧ ∃ s, pm.SlotAt i s ∧
      pm' = pm.put i (s.release begin) := by
  obtain ⟨hi, s, hs⟩ := h.slot_of_index h.states hok
  rw [h.releaseBlock_eq hi hs, ok.injEq] at hok
  exact ⟨hi, s, hs, hok.symm⟩

theorem releasePieceInflight_slot (hok : pm.releasePieceInflight i = .ok pm') :
    i < g.numPieces ∧ ∃ s, pm.SlotAt i s ∧
      pm' = pm.put i s.releaseInflight := by
  obtain ⟨hi, s, hs⟩ := h.slot_of_index h.states hok
  rw [h.releasePieceInflight_eq hi hs, ok.injEq] at hok
  exact ⟨hi, s, hs, hok.symm⟩

theorem resetPiece_slot (hok : pm.resetPiece i = .ok pm') :
    i < g.numPieces ∧ pm' = pm.put i (.blank (g.blocks i)) := by
  obtain ⟨hi, s, hs⟩ := h.slot_of_update hok
  rw [h.resetPiece_eq hi hs, ok.injEq] at hok
  exact ⟨hi, hok.symm⟩

theorem markComplete_slot (hok : pm.markComplete i = .ok pm') :
    i < g.numPieces ∧ ∃ s, pm.SlotAt i s ∧
      pm' = { pm.put i s.complete with
        localBits := pm.localBits.set i true } := by
  obtain ⟨hi, s, hs⟩ := h.slot_of_update hok
  rw [h.markComplete_eq hi hs, ok.injEq] at hok
  exact ⟨hi, s, hs, hok.symm⟩

theorem receivedBlock_slot (hbuf : pm.Buffered g) {data : Bytes}
    {result : Except Error BlockOutcome}
    (hok : pm.receivedBlock i begin data = .ok (pm', result)) :
    pm' = pm ∧ (∃ e, result = .error e) ∨ i < g.numPieces ∧ ∃ s, pm.SlotAt i s ∧
        pm' = pm.put i (s.receive g i begin data).1 ∧
        result = (s.receive g i begin data).2 := by
  by_cases hrange : pm.numPieces ≤ i
  · rw [receivedBlock, if_pos hrange] at hok
    cases hok
    exact .inl ⟨rfl, _, rfl⟩
  · have hi : i < g.numPieces := by
      rw [← h.numPieces]
      omega
    obtain ⟨s, hs⟩ := h.exists_slotAt hi
    rw [h.receivedBlock_eq hi hs (hbuf.slot hs), ok.injEq, Prod.mk.injEq] at hok
    exact .inr ⟨hi, s, hs, hok.1.symm, hok.2.symm⟩

theorem unfinishedBlocks_ne_panic (hi : i < g.numPieces) :
    pm.unfinishedBlocks i ≠ .panic := by
  obtain ⟨row, hrow, hlen⟩ := h.received_row hi
  rw [unfinishedBlocks, h.numBlocks_eq hi, ok_bind]
  refine bind_ne_panic ?_ fun spans _ => by simp
  apply traverse_ne_panic
  intro b hb
  have hlt := mem_range.mp hb
  rw [index_eq_ok.mpr hrow, ok_bind, index_of_lt (by omega), ok_bind,
    h.blockSpan_eq hi hlt]
  split
  · simp
  · simp

theorem reserveBlock_ne_panic (hi : i < g.numPieces) :
    pm.reserveBlock i ≠ .panic := by
  obtain ⟨s, hs⟩ := h.exists_slotAt hi
  rw [h.reserveBlock_eq hi hs]
  exact nofun

end Fits

/-! ## Reserving and releasing -/

/-- The piece `i` is `Complete`. -/
def Done (pm : PieceManager) (i : ℕ) : Prop :=
  pm.states[i]? = some PieceState.complete

theorem SlotAt.done_iff (h : pm.SlotAt i s) :
    pm.Done i ↔ s.state = .complete := by
  rw [Done, h.state, Option.some.injEq]

/-- Only the reservations change, and pieces may be started. -/
structure Reserves (g : Geometry) (pm pm' : PieceManager) : Prop where
  fits : pm'.Fits g
  received : pm'.received = pm.received
  localBits : pm'.localBits = pm.localBits
  wanted : pm'.wanted = pm.wanted
  done_iff : ∀ i, pm'.Done i ↔ pm.Done i
  buffers : ∀ i buf, pm'.buffers[i]? = some (some buf) →
    pm.buffers[i]? = some (some buf) ∨ buf.length = g.size i

theorem Reserves.refl (h : pm.Fits g) : Reserves g pm pm where
  fits := h
  received := rfl
  localBits := rfl
  wanted := rfl
  done_iff _ := Iff.rfl
  buffers _ _ := .inl

theorem Reserves.trans {pm'' : PieceManager} (h : Reserves g pm pm')
    (h' : Reserves g pm' pm'') : Reserves g pm pm'' where
  fits := h'.fits
  received := h'.received.trans h.received
  localBits := h'.localBits.trans h.localBits
  wanted := h'.wanted.trans h.wanted
  done_iff i := (h'.done_iff i).trans (h.done_iff i)
  buffers i buf hbuf := (h'.buffers i buf hbuf).elim (h.buffers i buf) .inr

theorem Buffered.reserves (h : pm.Buffered g) (hr : Reserves g pm pm') :
    pm'.Buffered g := by
  intro i buf hbuf
  exact (hr.buffers i buf hbuf).elim (h i buf) id

theorem done_put_ne (h : j ≠ i) (s : Slot) :
    (pm.put i s).Done j ↔ pm.Done j := by
  rw [Done, Done, put, getElem?_set_ne h.symm]

namespace Fits

variable (h : pm.Fits g)

include h

theorem done_put (hi : i < g.numPieces) (s : Slot) :
    (pm.put i s).Done i ↔ s.state = .complete :=
  (h.slotAt_put hi s).done_iff

theorem buffer_put (hi : i < g.numPieces) {s : Slot} {buf : Bytes}
    (hbuf : (pm.put i s).buffers[j]? = some (some buf)) :
    j = i ∧ s.buffer = some buf ∨ pm.buffers[j]? = some (some buf) := by
  by_cases hj : j = i
  · subst hj
    rw [(h.slotAt_put hi s).buffer, Option.some.injEq] at hbuf
    exact .inl ⟨rfl, hbuf⟩
  · rw [PieceManager.put, getElem?_set_ne (Ne.symm hj)] at hbuf
    exact .inr hbuf

theorem buffered_put (hbuf : pm.Buffered g) (hi : i < g.numPieces)
    {s : Slot} (hs : ∀ buf, s.buffer = some buf → buf.length = g.size i) :
    (pm.put i s).Buffered g := by
  intro j buf hj
  rcases h.buffer_put hi hj with ⟨rfl, hs'⟩ | hold
  · exact hs buf hs'
  · exact hbuf j buf hold

theorem reserves_put {s t : Slot} (hi : i < g.numPieces)
    (hs : pm.SlotAt i s) (hk : s.Keeps g i t) :
    Reserves g pm (pm.put i t) where
  fits := by
    obtain ⟨hreq, hrec⟩ := h.rows_length hi hs
    exact h.put hi (hk.requested.trans hreq) (by rw [hk.received, hrec])
  received := by
    rw [PieceManager.put, hk.received]
    exact set_of_getElem? hs.received
  localBits := rfl
  wanted := rfl
  done_iff j := by
    by_cases hj : j = i
    · rw [hj, h.done_put hi, hs.done_iff, hk.complete]
    · exact done_put_ne hj t
  buffers j buf hbuf := by
    rcases h.buffer_put hi hbuf with ⟨rfl, ht⟩ | hold
    · rw [hs.buffer, Option.some.injEq]
      exact hk.buffer buf ht
    · exact .inl hold

theorem reserveBlock_reserves {block : Option (ℕ × ℕ)}
    (hok : pm.reserveBlock i = .ok (pm', block)) : Reserves g pm pm' := by
  obtain ⟨hi, s, hs, rfl, -⟩ := h.reserveBlock_slot hok
  exact h.reserves_put hi hs s.keeps_reserve

theorem releaseBlock_reserves (hok : pm.releaseBlock i begin = .ok pm') :
    Reserves g pm pm' := by
  obtain ⟨hi, s, hs, rfl⟩ := h.releaseBlock_slot hok
  exact h.reserves_put hi hs (s.keeps_release begin)

theorem releasePieceInflight_reserves
    (hok : pm.releasePieceInflight i = .ok pm') : Reserves g pm pm' := by
  obtain ⟨hi, s, hs, rfl⟩ := h.releasePieceInflight_slot hok
  obtain ⟨hreq, hrec⟩ := h.rows_length hi hs
  exact h.reserves_put hi hs (s.keeps_releaseInflight (hreq.trans hrec.symm))

end Fits

/-! ## Receiving a block -/

/-- The block numbered `b` of piece `i` is accepted: its bit is set. -/
structure Adds (g : Geometry) (i b : ℕ) (pm pm' : PieceManager) : Prop where
  fits : pm'.Fits g
  index_lt : i < g.numPieces
  block_lt : b < g.blocks i
  not_done : ¬ pm.Done i
  localBits : pm'.localBits = pm.localBits
  wanted : pm'.wanted = pm.wanted
  done_iff : ∀ j, pm'.Done j ↔ pm.Done j
  received : ∃ row, pm.received[i]? = some row ∧ row[b]? = some false ∧
    pm'.received = pm.received.set i (row.set b true)

/-- All blocks of a piece were received. -/
def AllReceived (pm : PieceManager) (i : ℕ) : Prop :=
  ∃ row, pm.received[i]? = some row ∧ row.all id = true

/-- What `received_block` can do. -/
inductive Receives (g : Geometry) (i : ℕ) (data : Bytes)
    (pm pm' : PieceManager) : Except Error BlockOutcome → Prop where
  | refused (e : Error) (h : Reserves g pm pm') :
      Receives g i data pm pm' (.error e)
  | duplicate (h : Reserves g pm pm') :
      Receives g i data pm pm' (.ok .duplicate)
  | stored {b : ℕ} (h : Adds g i b pm pm')
      (hlen : data.length = g.blockLength i b) :
      Receives g i data pm pm' (.ok .stored)
  | completed {b : ℕ} {bytes : Bytes} (h : Adds g i b pm pm')
      (hlen : data.length = g.blockLength i b)
      (hall : AllReceived pm' i) (hbytes : bytes.length = g.size i) :
      Receives g i data pm pm' (.ok (.completed bytes))

theorem writeInto_length {buf data : Bytes}
    (h : begin + data.length ≤ buf.length) :
    (writeInto buf begin data).length = buf.length := by
  simp only [writeInto, length_append, length_take, length_drop]
  omega

theorem Adds.trans_reserves {pm'' : PieceManager}
    (h : Adds g i b pm pm') (h' : Reserves g pm' pm'') :
    Adds g i b pm pm'' where
  fits := h'.fits
  index_lt := h.index_lt
  block_lt := h.block_lt
  not_done := h.not_done
  localBits := h'.localBits.trans h.localBits
  wanted := h'.wanted.trans h.wanted
  done_iff j := (h'.done_iff j).trans (h.done_iff j)
  received := by
    obtain ⟨row, hrow, hbit, hset⟩ := h.received
    exact ⟨row, hrow, hbit, h'.received.trans hset⟩

theorem AllReceived.reserves (h : pm.AllReceived i)
    (hr : Reserves g pm pm') : pm'.AllReceived i := by
  rw [AllReceived, hr.received]
  exact h

/-- The slot of a block that is written. -/
theorem Fits.adds_put (h : pm.Fits g) (hi : i < g.numPieces)
    (hs : pm.SlotAt i s) (hne : s.state ≠ .complete) (hb : b < g.blocks i)
    (hbit : s.received.getD b false = false) (buffer : Option Bytes) :
    Adds g i b pm (pm.put i { s.started (g.size i) with
      buffer
      requested := s.requested.set b true
      received := s.received.set b true }) := by
  obtain ⟨hreq, hrec⟩ := h.rows_length hi hs
  have hlt : b < s.received.length := by rwa [hrec]
  refine { fits := h.put hi (length_set.trans hreq) (length_set.trans hrec),
           index_lt := hi, block_lt := hb, not_done := mt hs.done_iff.mp hne,
           localBits := rfl, wanted := rfl, done_iff := fun j => ?_,
           received := ⟨s.received, hs.received, ?_, rfl⟩ }
  · by_cases hj : j = i
    · rw [hj, h.done_put hi, hs.done_iff]
      exact s.keeps_started.complete
    · exact done_put_ne hj _
  · rw [getD_eq_getElem?_getD, getElem?_eq_getElem hlt] at hbit
    rw [getElem?_eq_getElem hlt]
    exact congrArg some hbit

/-- What is stored for a block: the checks it passed and the new buffer. -/
inductive Stores (g : Geometry) (i begin : ℕ) (data : Bytes) (s : Slot) :
    Slot × Except Error BlockOutcome → Prop where
  | kept {t : Slot} {result : Except Error BlockOutcome}
      (h : s.Keeps g i t) (hreq : t.requested = s.requested)
      (hresult : result = .ok .duplicate ∧
          (s.state = .complete ∨ s.received.getD (begin / blockSize) false) ∨
        ∃ e, result = .error e ∧ s.state ≠ .complete ∧
          (Slot.fault g i begin data ≠ none ∨
            (s.started (g.size i)).buffer = none)) :
      Stores g i begin data s (t, result)
  | stored {buf : Bytes} (hne : s.state ≠ .complete)
      (hfault : Slot.fault g i begin data = none)
      (hbit : s.received.getD (begin / blockSize) false = false)
      (hbuf : (s.started (g.size i)).buffer = some buf) :
      Stores g i begin data s
        ((s.started (g.size i)).store (begin / blockSize) data buf)

theorem stores_receive (g : Geometry) (i begin : ℕ) (data : Bytes)
    (s : Slot) : Stores g i begin data s (s.receive g i begin data) := by
  rw [receive]
  split
  next hcomplete =>
    exact .kept s.keeps_self rfl (.inl ⟨rfl, .inl hcomplete⟩)
  next hne =>
    cases hfault : fault g i begin data with
    | some text =>
      refine .kept s.keeps_self rfl (.inr ⟨_, rfl, hne, .inl ?_⟩)
      rw [hfault]
      simp
    | none =>
      dsimp only
      rw [Slot.take]
      split
      next hbit =>
        exact .kept s.keeps_started (s.started_requested _)
          (.inl ⟨rfl, .inr hbit⟩)
      next hbit =>
        split
        next hbuf =>
          exact .kept s.keeps_started (s.started_requested _)
            (.inr ⟨_, rfl, hne, .inr hbuf⟩)
        next buf hbuf =>
          exact .stored hne hfault (Bool.eq_false_iff.mpr hbit) hbuf

theorem Fits.receivedBlock_receives (h : pm.Fits g) (hbuf : pm.Buffered g)
    {data : Bytes} {result : Except Error BlockOutcome}
    (hok : pm.receivedBlock i begin data = .ok (pm', result)) :
    Receives g i data pm pm' result ∧ pm'.Buffered g := by
  rcases h.receivedBlock_slot hbuf hok with
    ⟨rfl, e, rfl⟩ | ⟨hi, s, hs, rfl, rfl⟩
  · exact ⟨.refused e (.refl h), hbuf⟩
  have hstores := stores_receive g i begin data s
  generalize s.receive g i begin data = r at hstores
  cases hstores with
  | kept hk _ hresult =>
    have hr := h.reserves_put hi hs hk
    refine ⟨?_, hbuf.reserves hr⟩
    rcases hresult with ⟨rfl, -⟩ | ⟨e, rfl, -⟩
    · exact .duplicate hr
    · exact .refused e hr
  | @stored buf hne hfault hbit hbuffer =>
    obtain ⟨-, hb, hlen⟩ := fault_eq_none.mp hfault
    have hadds := h.adds_put hi hs hne hb hbit
    have hsize : buf.length = g.size i :=
      (started_buffer hbuffer).elim (hbuf.slot hs buf) id
    have hwritten : (writeInto buf (begin / blockSize * blockSize)
        data).length = g.size i := by
      have hlt := g.lt_blocks_iff.mp hb
      rw [writeInto_length, hsize]
      rw [hlen, hsize, Geometry.blockLength]
      omega
    rw [store, started_requested, started_received]
    split
    next hall =>
      refine ⟨.completed (hadds none) hlen ?_ hwritten, ?_⟩
      · exact ⟨_, (h.slotAt_put hi _).received, hall⟩
      · exact h.buffered_put hbuf hi (by simp)
    next =>
      refine ⟨.stored (hadds _) hlen, h.buffered_put hbuf hi ?_⟩
      rintro _ ⟨rfl⟩
      exact hwritten

/-! ## Starting over and completing -/

/-- Piece `i` starts over. -/
structure Resets (g : Geometry) (i : ℕ) (pm pm' : PieceManager) : Prop where
  fits : pm'.Fits g
  index_lt : i < g.numPieces
  localBits : pm'.localBits = pm.localBits
  wanted : pm'.wanted = pm.wanted
  done_iff : ∀ j, pm'.Done j ↔ j ≠ i ∧ pm.Done j
  received : pm'.received =
    pm.received.set i (List.replicate (g.blocks i) false)

theorem Fits.resetPiece_resets (h : pm.Fits g) (hbuf : pm.Buffered g)
    (hok : pm.resetPiece i = .ok pm') : Resets g i pm pm' ∧ pm'.Buffered g := by
  obtain ⟨hi, rfl⟩ := h.resetPiece_slot hok
  refine ⟨{ fits := h.put hi length_replicate length_replicate,
            index_lt := hi, localBits := rfl, wanted := rfl,
            done_iff := fun j => ?_, received := rfl },
    h.buffered_put hbuf hi nofun⟩
  by_cases hj : j = i
  · rw [hj, h.done_put hi]
    exact ⟨nofun, fun hor => absurd rfl hor.1⟩
  · rw [done_put_ne hj, and_iff_right hj]

/-- Piece `i` is complete and present. -/
structure Completes (g : Geometry) (i : ℕ) (pm pm' : PieceManager) :
    Prop where
  fits : pm'.Fits g
  index_lt : i < g.numPieces
  localBits : pm'.localBits = pm.localBits.set i true
  wanted : pm'.wanted = pm.wanted
  done_iff : ∀ j, pm'.Done j ↔ j = i ∨ pm.Done j
  received : pm'.received = pm.received

theorem Fits.markComplete_completes (h : pm.Fits g) (hbuf : pm.Buffered g)
    (hok : pm.markComplete i = .ok pm') :
    Completes g i pm pm' ∧ pm'.Buffered g := by
  obtain ⟨hi, s, hs, rfl⟩ := h.markComplete_slot hok
  obtain ⟨hreq, hrec⟩ := h.rows_length hi hs
  have hfits : (pm.put i s.complete).Fits g := h.put hi hreq hrec
  have hbuf' : (pm.put i s.complete).Buffered g :=
    h.buffered_put hbuf hi nofun
  refine ⟨{ fits := { hfits with
              localBits := length_set.trans h.localBits },
            index_lt := hi, localBits := rfl, wanted := rfl,
            done_iff := fun j => ?_,
            received := set_of_getElem? hs.received }, hbuf'⟩
  change (pm.put i s.complete).Done j ↔ _
  by_cases hj : j = i
  · rw [hj, h.done_put hi]
    exact ⟨fun _ => .inl rfl, fun _ => rfl⟩
  · rw [done_put_ne hj, or_iff_right hj]

/-- Whether the block `b` of piece `i` is received. -/
def got (pm : PieceManager) (i b : ℕ) : Bool :=
  (pm.received[i]?.getD [])[b]?.getD false

end PieceManager

end RustyTorrent.Piece
