import RustyTorrent.Piece.ManagerSteps
import RustyTorrent.Support.Run
import RustyTorrent.Support.Windows

/-!
# Assembling pieces

Beside a piece manager runs a ledger of what its callers saw: for each block
the first data that was accepted since the piece was last reset, whether a
reservation is out, and whether the piece was returned as completed.  The
manager's tables represent the ledger after every sequence of calls
(`Represents`), so its answers are those the ledger asks for
(`assembly_exact`).
-/

namespace RustyTorrent.Piece

open List Function PieceManager Slot Nat Windows

/-! ## The ledger -/

/-- What the callers of a manager saw of one piece. -/
structure Entry where
  accepted : ℕ → Option Bytes := fun _ => none
  reserved : ℕ → Bool := fun _ => false
  completed : Bool := false

namespace Entry

/-- A reservation of block `b` is handed out. -/
def reserve (b : ℕ) (e : Entry) : Entry :=
  { e with reserved := Function.update e.reserved b true }

/-- The reservation of block `b` is taken back. -/
def release (b : ℕ) (e : Entry) : Entry :=
  { e with reserved := Function.update e.reserved b false }

/-- Data for block `b` is accepted; only the first is kept. -/
def accept (b : ℕ) (data : Bytes) (e : Entry) : Entry :=
  { e with
    accepted := Function.update e.accepted b
      (some ((e.accepted b).getD data))
    reserved := Function.update e.reserved b false }

end Entry

/-- The entries of all pieces. -/
abbrev Ledger := ℕ → Entry

/-- All blocks of piece `i` were accepted. -/
def Full (g : Geometry) (i : ℕ) (accepted : ℕ → Option Bytes) : Prop :=
  ∀ b < g.blocks i, (accepted b).isSome = true

/-- The bytes of block `b` in a buffer for piece `i`. -/
def blockAt (g : Geometry) (i b : ℕ) (buf : Bytes) : Bytes :=
  (buf.drop (b * blockSize)).take (g.blockLength i b)

/-! ## Calls -/

/-- A piece manager and the ledger of its callers. -/
structure Assembly where
  manager : PieceManager
  ledger : Ledger

namespace Assembly

/-- A call on a piece manager. -/
inductive Call where
  | reserveBlock (index : ℕ)
  | receivedBlock (index begin : ℕ) (data : Bytes)
  | releaseBlock (index begin : ℕ)
  | releasePieceInflight (index : ℕ)
  | resetPiece (index : ℕ)
  | markComplete (index : ℕ)

/-- What a call returns. -/
inductive Reply where
  | block (span : Option (ℕ × ℕ))
  | outcome (result : Except Error BlockOutcome)
  | done

/-- The call, on the manager. -/
def perform (pm : PieceManager) :
    Call → Outcome Error (PieceManager × Reply)
  | .reserveBlock i => do
    let (pm, span) ← pm.reserveBlock i
    return (pm, .block span)
  | .receivedBlock i begin data => do
    let (pm, result) ← pm.receivedBlock i begin data
    return (pm, .outcome result)
  | .releaseBlock i begin => do
    let pm ← pm.releaseBlock i begin
    return (pm, .done)
  | .releasePieceInflight i => do
    let pm ← pm.releasePieceInflight i
    return (pm, .done)
  | .resetPiece i => do
    let pm ← pm.resetPiece i
    return (pm, .done)
  | .markComplete i => do
    let pm ← pm.markComplete i
    return (pm, .done)

/-- What the caller notes down. -/
def record (l : Ledger) : Call → Reply → Ledger
  | .reserveBlock i, .block (some (begin, _)) =>
    Function.update l i ((l i).reserve (begin / blockSize))
  | .receivedBlock i begin data, .outcome (.ok .stored) =>
    Function.update l i ((l i).accept (begin / blockSize) data)
  | .receivedBlock i begin data, .outcome (.ok (.completed _)) =>
    Function.update l i
      { (l i).accept (begin / blockSize) data with completed := true }
  | .releaseBlock i begin, .done =>
    if begin % blockSize = 0 then
      Function.update l i ((l i).release (begin / blockSize))
    else l
  | .releasePieceInflight i, .done =>
    Function.update l i { l i with reserved := fun _ => false }
  | .resetPiece i, .done => Function.update l i {}
  | _, _ => l

/-- The state after a call.  A call that unwinds does so at its first access
to a table and leaves the manager as it was. -/
def next (s : Assembly) (c : Call) : Assembly :=
  match perform s.manager c with
  | .ok (pm, r) => ⟨pm, record s.ledger c r⟩
  | _ => s

/-- `mark_complete` is called for pieces that were returned as completed
since their last reset. -/
def May (s : Assembly) : Call → Prop
  | .markComplete i => (s.ledger i).completed = true
  | _ => True

/-- Sequences of calls. -/
def calls : System Assembly Call where
  next := next
  may := May

/-- Only `received_block` is given indices that come from the network. -/
def Call.InRange (g : Geometry) : Call → Prop
  | .receivedBlock _ _ _ => True
  | .reserveBlock i | .releaseBlock i _ | .releasePieceInflight i
  | .resetPiece i | .markComplete i => i < g.numPieces

/-! ## Exactness -/

/-- The answer to a call, and the manager it leaves, are right. -/
def Faithful (g : Geometry) (s : Assembly) (pm' : PieceManager) :
    Call → Reply → Prop
  | .reserveBlock i, .block span =>
    ∀ begin length, span = some (begin, length) →
      ∃ b < g.blocks i, begin = b * blockSize ∧
        length = g.blockLength i b ∧ (s.ledger i).reserved b = false ∧
        (s.ledger i).accepted b = none
  | .receivedBlock i begin data, .outcome result =>
    let ledger' := record s.ledger (.receivedBlock i begin data)
      (.outcome result)
    (∀ e, result = .error e → pm' = s.manager ∧
      e ≠ .network "buffer missing" ∧
      e ≠ .network "piece buffer vanished") ∧
    ((∃ bytes, result = .ok (.completed bytes)) ↔
      ¬ Full g i (s.ledger i).accepted ∧
        Full g i (ledger' i).accepted) ∧
    ∀ bytes, result = .ok (.completed bytes) →
      bytes.length = g.size i ∧ ∀ b < g.blocks i,
        (ledger' i).accepted b = some (blockAt g i b bytes)
  | _, _ => True

/-- What is promised of the manager after a sequence of calls. -/
structure Exact (g : Geometry) (s : Assembly) : Prop where
  tiled : ∀ i < g.numPieces, s.manager.pieceSize i = .ok (g.size i) ∧
    s.manager.numBlocks i = .ok (g.blocks i) ∧
    (∀ b < g.blocks i,
      s.manager.blockSpan i b = .ok (b * blockSize, g.blockLength i b) ∧
        b * blockSize < 2 ^ 32 ∧
        b * blockSize + g.blockLength i b ≤ g.size i) ∧
    ∀ pos < g.size i, ∃! b, b < g.blocks i ∧ b * blockSize ≤ pos ∧
      pos < b * blockSize + g.blockLength i b
  buffered : ∀ i < g.numPieces,
    (∃ buf, s.manager.buffers[i]? = some (some buf)) ↔
      s.manager.states[i]? = some .inProgress ∧ ¬ s.manager.AllReceived i
  answers : ∀ c, s.May c → c.InRange g →
    ∃ pm' r, perform s.manager c = .ok (pm', r) ∧ Faithful g s pm' c r

end Assembly

/-! ## Blocks in a buffer -/

section Buffers

variable {g : Geometry} {i b c : ℕ} {buf data : Bytes}

theorem blockLength_le (g : Geometry) (i b : ℕ) :
    g.blockLength i b ≤ blockSize :=
  min_le_right _ _

theorem block_div (b : ℕ) : b * blockSize / blockSize = b :=
  Nat.mul_div_cancel b (by decide)

theorem block_end_le (hb : b < g.blocks i) :
    b * blockSize + g.blockLength i b ≤ g.size i := by
  have hlt := g.lt_blocks_iff.mp hb
  rw [Geometry.blockLength]
  omega

theorem existsUnique_block {pos : ℕ} (hpos : pos < g.size i) :
    ∃! b, b < g.blocks i ∧ b * blockSize ≤ pos ∧
      pos < b * blockSize + g.blockLength i b := by
  have hdiv := div_add_mod pos blockSize
  have hmod := mod_lt pos (show 0 < blockSize by decide)
  rw [mul_comm] at hdiv
  have hlt : pos / blockSize < g.blocks i := by
    rw [g.lt_blocks_iff]
    omega
  refine ⟨pos / blockSize, ⟨hlt, by omega, ?_⟩, ?_⟩
  · rw [Geometry.blockLength]
    omega
  · rintro c ⟨-, hle, hend⟩
    have hlen := blockLength_le g i c
    refine (Nat.div_eq_of_lt_le hle ?_).symm
    rw [Nat.succ_mul]
    omega

theorem blockAt_writeInto_self (hend : b * blockSize + data.length ≤
    buf.length) (hlen : data.length = g.blockLength i b) :
    blockAt g i b (writeInto buf (b * blockSize) data) =
      data := by
  have hself := window_put_self hend
  rwa [hlen] at hself

theorem blockAt_writeInto_ne (hend : b * blockSize + data.length ≤
    buf.length) (hlen : data.length ≤ blockSize) (hne : c ≠ b) :
    blockAt g i c (writeInto buf (b * blockSize) data) = blockAt g i c buf := by
  have hc := blockLength_le g i c
  have hapart := slot_disjoint 0 blockSize hne.symm
  exact window_put_of_disjoint hend (by omega)

end Buffers

/-! ## Slots that represent an entry -/

/-- The blocks accepted so far stand in the buffer. -/
def Contents (g : Geometry) (i : ℕ) (accepted : ℕ → Option Bytes)
    (buf : Bytes) : Prop :=
  ∀ b < g.blocks i, ∀ data, accepted b = some data →
    blockAt g i b buf = data

/-- The state and the buffer of a piece, by what was accepted. -/
inductive Stage (g : Geometry) (i : ℕ) (accepted : ℕ → Option Bytes) :
    PieceState → Option Bytes → Prop where
  | missing (h : ∀ b < g.blocks i, accepted b = none) :
      Stage g i accepted .missing none
  | assembling {buf : Bytes} (hlen : buf.length = g.size i)
      (hbuf : Contents g i accepted buf) (hopen : ¬ Full g i accepted) :
      Stage g i accepted .inProgress (some buf)
  | assembled (hfull : Full g i accepted) :
      Stage g i accepted .inProgress none
  | complete (hfull : Full g i accepted) :
      Stage g i accepted .complete none

variable {accepted : ℕ → Option Bytes} {g : Geometry} {i : ℕ}

theorem Stage.none_of_missing {state : PieceState} {buffer : Option Bytes}
    (h : Stage g i accepted state buffer) (hstate : state = .missing)
    : ∀ b < g.blocks i, accepted b = none := by
  cases h with
  | missing hnone => exact hnone
  | assembling | assembled | complete => cases hstate

/-- The slot of piece `i` represents the entry `e`. -/
structure Tracks (g : Geometry) (i : ℕ) (s : Slot) (e : Entry) : Prop where
  requested_length : s.requested.length = g.blocks i
  received_length : s.received.length = g.blocks i
  received : ∀ b < g.blocks i,
    s.received[b]? = some (e.accepted b).isSome
  reserved : ∀ b, e.reserved b = true → s.requested[b]? = some true
  stage : Stage g i e.accepted s.state s.buffer
  completed : e.completed = true ↔ Full g i e.accepted

theorem not_full_of_none {b : ℕ} (hb : b < g.blocks i) (h : accepted b = none)
    : ¬ Full g i accepted := by
  intro hfull
  have hsome := hfull b hb
  rw [h] at hsome
  cases hsome

theorem row_all_iff {row : List Bool} (hlen : row.length = g.blocks i)
    (hrow : ∀ b < g.blocks i, row[b]? = some (accepted b).isSome) :
    row.all id = true ↔ Full g i accepted := by
  rw [all_eq_true]
  constructor
  · intro hall b hb
    exact hall _ (mem_of_getElem? (hrow b hb))
  · intro hfull bit hbit
    obtain ⟨b, hb, rfl⟩ := getElem_of_mem hbit
    rw [hlen] at hb
    have hget := hrow b hb
    rw [getElem?_eq_getElem (by omega), Option.some.injEq] at hget
    rw [hget]
    exact hfull b hb

namespace Tracks

variable {b : ℕ} {s : Slot} {e : Entry}

theorem blank (g : Geometry) (i : ℕ) :
    Tracks g i (.blank (g.blocks i)) {} where
  requested_length := length_replicate
  received_length := length_replicate
  received b hb := by
    rw [Slot.blank, getElem?_replicate, if_pos hb]
    rfl
  reserved _ h := by cases h
  stage := .missing fun _ _ => rfl
  completed := by
    refine ⟨nofun, fun hfull => ?_⟩
    exact absurd hfull (not_full_of_none (g.blocks_pos i) rfl)

section

variable (h : Tracks g i s e)

include h

theorem accepted_eq_none (hb : b < g.blocks i) :
    s.received[b]? = some false ↔ e.accepted b = none := by
  rw [h.received b hb, Option.some.injEq, Option.isSome_eq_false_iff,
    Option.isNone_iff_eq_none]

theorem started : Tracks g i (s.started (g.size i)) e := by
  have hstage := h.stage
  obtain ⟨state, buffer, requested, received⟩ := s
  dsimp only at hstage
  cases hstage with
  | missing hnone =>
    refine { h with stage := ?_ }
    refine .assembling length_replicate (fun b hb data hdata => ?_)
      (not_full_of_none (g.blocks_pos i) (hnone 0 (g.blocks_pos i)))
    rw [hnone b hb] at hdata
    cases hdata
  | assembling | assembled | complete => exact h

theorem withRequested {row : List Bool} {reserved : ℕ → Bool}
    (hlen : row.length = s.requested.length)
    (hreserved : ∀ b, reserved b = true → row[b]? = some true) :
    Tracks g i { s with requested := row } { e with reserved } :=
  { h with
    requested_length := hlen.trans h.requested_length
    reserved := hreserved }

theorem reserve (hb : b < g.blocks i) :
    Tracks g i { s with requested := s.requested.set b true }
      (e.reserve b) := by
  refine h.withRequested length_set fun c hc => ?_
  by_cases heq : c = b
  · rw [heq, getElem?_set_self (by rwa [h.requested_length])]
  · rw [getElem?_set_ne (Ne.symm heq)]
    rw [update_of_ne heq] at hc
    exact h.reserved c hc

theorem open_buffer (hne : s.state ≠ .complete) (hopen : ¬ Full g i e.accepted)
    :
    ∃ buf, s.started (g.size i) =
        { s with state := .inProgress, buffer := some buf } ∧
      buf.length = g.size i ∧ Contents g i e.accepted buf := by
  have hstage := h.started.stage
  have hbuffer : ∃ buf, s.started (g.size i) =
      { s with state := .inProgress, buffer := some buf } := by
    obtain ⟨state, buffer, requested, received⟩ := s
    have hs := h.stage
    dsimp only at hs hne
    cases hs with
    | missing | assembling => exact ⟨_, rfl⟩
    | assembled hfull => exact absurd hfull hopen
    | complete hfull => exact absurd rfl hne
  obtain ⟨buf, heq⟩ := hbuffer
  rw [heq] at hstage
  cases hstage with
  | assembling hlen hbuf _ => exact ⟨buf, heq, hlen, hbuf⟩

end

theorem contents_write {buf data : Bytes} {accepted : ℕ → Option Bytes}
    (hbuf : Contents g i accepted buf) (hlen : buf.length = g.size i)
    (hb : b < g.blocks i) (hdata : data.length = g.blockLength i b) :
    Contents g i (update accepted b (some data))
      (writeInto buf (b * blockSize) data) := by
  have hend := block_end_le hb
  intro c hc d hd
  by_cases heq : c = b
  · rw [heq, update_self, Option.some.injEq] at hd
    rw [heq, ← hd]
    exact blockAt_writeInto_self (by omega) hdata
  · rw [update_of_ne heq] at hd
    rw [blockAt_writeInto_ne (by omega)
      (hdata.trans_le (blockLength_le g i b)) heq]
    exact hbuf c hc d hd

theorem accept_accepted {data : Bytes} (hnone : e.accepted b = none) :
    (e.accept b data).accepted = update e.accepted b (some data) := by
  rw [Entry.accept, hnone]
  rfl

section

variable (h : Tracks g i s e)

include h

theorem received_set (hb : b < g.blocks i) (data : Bytes) :
    ∀ c < g.blocks i, (s.received.set b true)[c]? =
      some (update e.accepted b (some data) c).isSome := by
  intro c hc
  by_cases heq : c = b
  · rw [heq, getElem?_set_self (by rwa [h.received_length]),
      update_self]
    rfl
  · rw [getElem?_set_ne (Ne.symm heq), update_of_ne heq]
    exact h.received c hc

/-- A block that is accepted sets both its bits; the stage is what the
buffer says. -/
theorem accept (hb : b < g.blocks i) {data : Bytes}
    (hnone : e.accepted b = none) {buffer : Option Bytes} {completed : Bool}
    (hstage : Stage g i (update e.accepted b (some data)) .inProgress buffer)
    (hcompleted : completed = true ↔ Full g i (update e.accepted b (some data)))
    :
    Tracks g i
      { state := .inProgress, buffer,
        requested := s.requested.set b true,
        received := s.received.set b true }
      { e.accept b data with completed } where
  requested_length := length_set.trans h.requested_length
  received_length := length_set.trans h.received_length
  received := by
    rw [accept_accepted hnone]
    exact h.received_set hb data
  reserved c hc := by
    by_cases heq : c = b
    · rw [heq, getElem?_set_self (by rwa [h.requested_length])]
    · have hold : e.reserved c = true := by
        simpa [Entry.accept, heq] using hc
      rw [getElem?_set_ne (Ne.symm heq)]
      exact h.reserved c hold
  stage := by
    rw [accept_accepted hnone]
    exact hstage
  completed := by
    rw [accept_accepted hnone]
    exact hcompleted

theorem complete (hcompleted : e.completed = true) :
    Tracks g i { s with state := .complete, buffer := none } e :=
  { h with stage := .complete (h.completed.mp hcompleted) }

theorem buffer_length (buf : Bytes) (hbuf : s.buffer = some buf)
    : buf.length = g.size i := by
  obtain ⟨state, buffer, requested, received⟩ := s
  have hstage := h.stage
  dsimp only at hstage hbuf
  subst hbuf
  cases hstage with
  | assembling hlen => exact hlen

/-- A piece has a buffer exactly while it is in progress and a block is
missing. -/
theorem buffer_iff :
    (∃ buf, s.buffer = some buf) ↔
      s.state = .inProgress ∧ ¬ s.received.all id = true := by
  rw [row_all_iff h.received_length h.received]
  obtain ⟨state, buffer, requested, received⟩ := s
  have hstage := h.stage
  dsimp only at hstage ⊢
  cases hstage with
  | missing | complete => simp
  | assembling hlen hbuf hopen => simp [hopen]
  | assembled hfull => simp [hfull]

end

end Tracks

/-! ## Managers that represent a ledger -/

/-- Every piece's slot represents its entry. -/
structure Represents (g : Geometry) (pm : PieceManager) (l : Ledger) :
    Prop where
  fits : pm.Fits g
  slots : ∀ i < g.numPieces, ∃ s, pm.SlotAt i s ∧ Tracks g i s (l i)

namespace Represents

variable {pm : PieceManager} {l : Ledger} {s : Slot} {e : Entry}

theorem put (h : Represents g pm l) (hi : i < g.numPieces)
    (ht : Tracks g i s e) :
    Represents g (pm.put i s) (update l i e) where
  fits := h.fits.put hi ht.requested_length ht.received_length
  slots j hj := by
    by_cases heq : j = i
    · subst heq
      refine ⟨s, h.fits.slotAt_put hi s, ?_⟩
      rwa [update_self]
    · obtain ⟨t, hslot, htracks⟩ := h.slots j hj
      refine ⟨t, hslot.put_ne (Ne.symm heq) s, ?_⟩
      rwa [update_of_ne heq]

theorem put_slot (h : Represents g pm l) (hi : i < g.numPieces)
    (ht : Tracks g i s (l i)) : Represents g (pm.put i s) l := by
  have hput := h.put hi ht
  rwa [update_eq_self] at hput

theorem withLocalBits (h : Represents g pm l) {bits : List Bool}
    (hlen : bits.length = pm.localBits.length) :
    Represents g { pm with localBits := bits } l where
  fits := { h.fits with localBits := hlen.trans h.fits.localBits }
  slots j hj := by
    obtain ⟨t, ⟨hstate, hbuffer, hreq, hrec⟩, htracks⟩ := h.slots j hj
    exact ⟨t, ⟨hstate, hbuffer, hreq, hrec⟩, htracks⟩

theorem fresh (hlen : g.pieceLength ≤ 2 ^ 30) (hcount : g.numPieces < 2 ^ 64) :
    Represents g (PieceManager.fresh g) fun _ => {} where
  fits := PieceManager.fresh_fits hlen hcount
  slots i hi := by
    refine ⟨.blank (g.blocks i), ?_, Tracks.blank g i⟩
    constructor <;> simp [PieceManager.fresh, blank, hi]

end Represents

namespace Assembly

variable {s : Assembly}

/-- The manager represents the ledger. -/
def Sound (g : Geometry) (s : Assembly) : Prop :=
  Represents g s.manager s.ledger

/-- A call answers faithfully and keeps the representation. -/
def Serves (g : Geometry) (s : Assembly) (c : Call) : Prop :=
  ∃ pm' r, perform s.manager c = .ok (pm', r) ∧ Faithful g s pm' c r ∧
    Represents g pm' (record s.ledger c r)

section

variable (h : s.Sound g) (hi : i < g.numPieces)

include h hi

theorem Sound.reserveBlock : s.Serves g (.reserveBlock i) := by
  obtain ⟨slot, hslot, htracks⟩ := h.slots i hi
  have heq := h.fits.reserveBlock_eq hi hslot
  rw [reserve] at heq
  by_cases hcomplete : slot.state = .complete
  · rw [if_pos hcomplete, hslot.put_self] at heq
    refine ⟨s.manager, .block none, ?_, by simp [Faithful], h⟩
    rw [perform, heq]
    rfl
  rw [if_neg hcomplete] at heq
  cases hfind : (List.range (g.blocks i)).find? slot.free with
  | none =>
    rw [hfind] at heq
    refine ⟨_, .block none, ?_, by simp [Faithful],
      h.put_slot hi htracks.started⟩
    rw [perform, heq]
    rfl
  | some b =>
    rw [hfind] at heq
    have hb := mem_range.mp (mem_of_find?_eq_some hfind)
    obtain ⟨hrequested, hreceived⟩ :=
      free_iff.mp (find?_some hfind)
    refine ⟨s.manager.put i { slot.started (g.size i) with
      requested := slot.requested.set b true },
      .block (some (b * blockSize, g.blockLength i b)), ?_, ?_, ?_⟩
    · rw [perform, heq]
      rfl
    · rintro begin length ⟨rfl, rfl⟩
      refine ⟨b, hb, rfl, rfl, ?_, ?_⟩
      · -- a reservation that is out has its bit set
        by_contra hreserved
        rw [Bool.not_eq_false] at hreserved
        rw [getD_eq_getElem?_getD, htracks.reserved b hreserved] at hrequested
        cases hrequested
      · rw [getD_eq_getElem?_getD, htracks.received b hb,
          Option.getD_some] at hreceived
        simpa using hreceived
    · rw [record, block_div]
      refine h.put hi ?_
      have hreserve := htracks.started.reserve hb
      rwa [started_requested] at hreserve

theorem Sound.releaseBlock (begin : ℕ)
    : s.Serves g (.releaseBlock i begin) := by
  obtain ⟨slot, hslot, htracks⟩ := h.slots i hi
  refine ⟨_, .done,
    by rw [perform, h.fits.releaseBlock_eq hi hslot]; rfl, trivial, ?_⟩
  rw [record, release]
  by_cases hbegin : begin % blockSize = 0
  · have hold {b : ℕ} (hb : update (s.ledger i).reserved
        (begin / blockSize) false b = true) :
        b ≠ begin / blockSize ∧ slot.requested[b]? = some true := by
      by_cases hblock : b = begin / blockSize
      · rw [hblock, update_self] at hb
        cases hb
      · rw [update_of_ne hblock] at hb
        exact ⟨hblock, htracks.reserved b hb⟩
    rw [if_pos hbegin]
    refine h.put hi ?_
    split
    · refine htracks.withRequested length_set fun b hb => ?_
      rw [getElem?_set_ne (hold hb).1.symm]
      exact (hold hb).2
    · exact htracks.withRequested rfl fun b hb => (hold hb).2
  · rw [if_neg hbegin, if_neg fun hor => hbegin hor.2]
    exact h.put_slot hi htracks

theorem Sound.releasePieceInflight : s.Serves g (.releasePieceInflight i) := by
  obtain ⟨slot, hslot, htracks⟩ := h.slots i hi
  refine ⟨_, .done,
    by rw [perform, h.fits.releasePieceInflight_eq hi hslot]; rfl,
    trivial, h.put hi ?_⟩
  rw [releaseInflight]
  split
  · exact htracks.withRequested rfl (by simp)
  · refine htracks.withRequested ?_ (by simp)
    rw [length_zipWith, htracks.requested_length,
      htracks.received_length, min_self]

theorem Sound.resetPiece : s.Serves g (.resetPiece i) := by
  obtain ⟨slot, hslot, -⟩ := h.slots i hi
  refine ⟨_, .done, ?_, trivial, h.put hi (Tracks.blank g i)⟩
  rw [perform, h.fits.resetPiece_eq hi hslot]
  rfl

theorem Sound.markComplete (hcompleted : (s.ledger i).completed = true) :
    s.Serves g (.markComplete i) := by
  obtain ⟨slot, hslot, htracks⟩ := h.slots i hi
  have hmarked := (h.put_slot hi (htracks.complete hcompleted)).withLocalBits
    (length_set : (s.manager.localBits.set i true).length = _)
  refine ⟨_, .done, ?_, trivial, hmarked⟩
  rw [perform, h.fits.markComplete_eq hi hslot]
  rfl

end

/-! ## A block arrives -/

variable {begin : ℕ} {data : Bytes} {c : Call}

theorem Sound.serves_unchanged (h : s.Sound g)
    (result : Except Error BlockOutcome)
    (heq : s.manager.receivedBlock i begin data = .ok (s.manager, result))
    (hledger : record s.ledger (.receivedBlock i begin data)
      (.outcome result) = s.ledger)
    (hcompleted : ∀ bytes, result ≠ .ok (.completed bytes))
    (herror : ∀ e, result = .error e → e ≠ .network "buffer missing" ∧
      e ≠ .network "piece buffer vanished") :
    s.Serves g (.receivedBlock i begin data) := by
  refine ⟨s.manager, .outcome result, ?_, ?_, ?_⟩
  · rw [perform, heq]
    rfl
  · refine ⟨fun e he => ⟨rfl, herror e he⟩, ?_,
      fun bytes hb => absurd hb (hcompleted bytes)⟩
    simp only [hledger]
    refine ⟨fun ⟨bytes, hb⟩ => absurd hb (hcompleted bytes), ?_⟩
    rintro ⟨hopen, hfull⟩
    exact absurd hfull hopen
  · rw [hledger]
    exact h

theorem Sound.serves_refused (h : s.Sound g) (text : String)
    (htext : "block".toList <+: text.toList)
    (heq : s.manager.receivedBlock i begin data =
      .ok (s.manager, .error (.network text))) :
    s.Serves g (.receivedBlock i begin data) := by
  refine h.serves_unchanged _ heq rfl nofun fun e he => ?_
  obtain rfl := Except.error.inj he
  refine ⟨fun hmissing => ?_, fun hvanished => ?_⟩
  · rw [Error.network.inj hmissing] at htext
    exact absurd htext (by decide)
  · rw [Error.network.inj hvanished] at htext
    exact absurd htext (by decide)

theorem fault_text {text : String} (h : fault g i begin data = some text) :
    "block".toList <+: text.toList := by
  unfold fault at h
  dsimp only at h
  split_ifs at h
  all_goals
    obtain rfl := Option.some.inj h
    simp [toString]

section Taken

variable (h : s.Sound g) (hi : i < g.numPieces) {slot : Slot}
  (hslot : s.manager.SlotAt i slot) (htracks : Tracks g i slot (s.ledger i))
  (hne : slot.state ≠ .complete) {b : ℕ} (hb : b < g.blocks i)
  (hlen : data.length = g.blockLength i b)

include h hi hslot htracks hne hb hlen

theorem Sound.serves_accepted (hnone : (s.ledger i).accepted b = none) :
    s.Serves g (.receivedBlock i (b * blockSize) data) := by
  have hopen := not_full_of_none hb hnone
  obtain ⟨buf, hstarted, hbufLen, hcontents⟩ :=
    htracks.open_buffer hne hopen
  have hend := block_end_le hb
  have hbit : slot.received.getD b false = false := by
    rw [getD_eq_getElem?_getD,
      (htracks.accepted_eq_none hb).mpr hnone, Option.getD_some]
  have heq := h.fits.receivedBlock_take hi hslot hne htracks.buffer_length
    hb hlen
  have hwritten := Tracks.contents_write hcontents hbufLen hb hlen
  have hwrittenLen : (writeInto buf (b * blockSize)
      data).length = g.size i := by
    rw [writeInto_length (by omega), hbufLen]
  have hall : (slot.received.set b true).all id = true ↔
      Full g i (update (s.ledger i).accepted b (some data)) :=
    row_all_iff (length_set.trans htracks.received_length)
      (htracks.received_set hb data)
  rw [Slot.take, if_neg (Bool.eq_false_iff.mp hbit), hstarted] at heq
  simp only [Slot.store] at heq
  by_cases hlast : (slot.received.set b true).all id = true
  · have hfull := hall.mp hlast
    rw [if_pos hlast] at heq
    refine ⟨_, .outcome (.ok (.completed _)), by rw [perform, heq]; rfl, ?_, ?_⟩
    · refine ⟨by simp, ⟨fun _ => ⟨hopen, ?_⟩, fun _ => ⟨_, rfl⟩⟩, ?_⟩
      · rw [record, block_div, update_self]
        rwa [Tracks.accept_accepted hnone]
      · rintro bytes ⟨rfl⟩
        refine ⟨hwrittenLen, fun c hc => ?_⟩
        rw [record, block_div, update_self]
        rw [Tracks.accept_accepted hnone]
        obtain ⟨d, hd⟩ := Option.isSome_iff_exists.mp (hfull c hc)
        rw [hd, hwritten c hc d hd]
    · rw [record, block_div]
      exact h.put hi (htracks.accept hb hnone (.assembled hfull)
        ⟨fun _ => hfull, fun _ => rfl⟩)
  · have hmissing := mt hall.mpr hlast
    rw [if_neg hlast] at heq
    refine ⟨_, .outcome (.ok .stored), by rw [perform, heq]; rfl, ?_, ?_⟩
    · refine ⟨by simp, ⟨by simp, ?_⟩, by simp⟩
      rintro ⟨_, hfull⟩
      rw [record, block_div, update_self, Tracks.accept_accepted hnone] at hfull
      exact absurd hfull hmissing
    · rw [record, block_div]
      have hcompleted : (s.ledger i).completed = true ↔
          Full g i (update (s.ledger i).accepted b (some data)) :=
        htracks.completed.trans (iff_of_false hopen hmissing)
      exact h.put hi (htracks.accept hb hnone
        (.assembling hwrittenLen hwritten hmissing) hcompleted)

theorem Sound.serves_duplicate (hsome : (s.ledger i).accepted b ≠ none) :
    s.Serves g (.receivedBlock i (b * blockSize) data) := by
  have hbit : slot.received.getD b false = true := by
    rw [getD_eq_getElem?_getD, htracks.received b hb,
      Option.isSome_iff_ne_none.mpr hsome, Option.getD_some]
  have hmissing : slot.state ≠ .missing := by
    intro hstate
    exact hsome (htracks.stage.none_of_missing hstate b hb)
  have heq := h.fits.receivedBlock_take hi hslot hne htracks.buffer_length
    hb hlen
  rw [Slot.take, if_pos hbit, Slot.started_of_ne hmissing,
    hslot.put_self] at heq
  exact h.serves_unchanged _ heq rfl (by simp) (by simp)

end Taken

theorem Sound.receivedBlock (h : s.Sound g) (i begin : ℕ) (data : Bytes) :
    s.Serves g (.receivedBlock i begin data) := by
  by_cases hrange : s.manager.numPieces ≤ i
  · refine h.serves_refused
      (s!"block for invalid piece {i}") (by simp [toString]) ?_
    rw [PieceManager.receivedBlock, if_pos hrange]
    rfl
  have hi : i < g.numPieces := by
    rw [← h.fits.numPieces]
    omega
  obtain ⟨slot, hslot, htracks⟩ := h.slots i hi
  have heq := h.fits.receivedBlock_eq hi hslot htracks.buffer_length begin data
  rw [receive] at heq
  by_cases hcomplete : slot.state = .complete
  · rw [if_pos hcomplete, hslot.put_self] at heq
    exact h.serves_unchanged (.ok .duplicate) heq rfl (by simp) (by simp)
  rw [if_neg hcomplete] at heq
  cases hfault : fault g i begin data with
  | some text =>
    rw [hfault] at heq
    dsimp only at heq
    rw [hslot.put_self] at heq
    exact h.serves_refused text (fault_text hfault) heq
  | none =>
    obtain ⟨hbegin, hb, hlen⟩ := fault_eq_none.mp hfault
    rw [← Nat.div_mul_cancel (Nat.dvd_of_mod_eq_zero hbegin)]
    by_cases hnone : (s.ledger i).accepted (begin / blockSize) = none
    · exact h.serves_accepted hi hslot htracks hcomplete hb hlen hnone
    · exact h.serves_duplicate hi hslot htracks hcomplete hb hlen hnone

/-! ## Sequences of calls -/

theorem Sound.serves (h : s.Sound g) (hmay : s.May c) (hrange : c.InRange g)
    : s.Serves g c := by
  cases c with
  | reserveBlock i => exact h.reserveBlock hrange
  | receivedBlock i begin data => exact h.receivedBlock i begin data
  | releaseBlock i begin => exact h.releaseBlock hrange begin
  | releasePieceInflight i => exact h.releasePieceInflight hrange
  | resetPiece i => exact h.resetPiece hrange
  | markComplete i => exact h.markComplete hrange hmay

theorem Sound.unwinds (h : s.Sound g) (hrange : ¬ c.InRange g) :
    perform s.manager c = .panic := by
  have hindex {α : Type} {xs : List α} {i : ℕ}
      (hlen : xs.length = g.numPieces) (hi : ¬ i < g.numPieces) :
      (Outcome.index i xs : Outcome Error α) = .panic := by
    rw [Outcome.index, getElem?_eq_none (by omega)]
  have hupdate {i : ℕ} (state : PieceState) (hi : ¬ i < g.numPieces) :
      (Outcome.update i state s.manager.states :
        Outcome Error (List PieceState)) = .panic :=
    if_neg (by rwa [h.fits.states])
  cases c with
  | reserveBlock i =>
    rw [perform, PieceManager.reserveBlock, hindex h.fits.states hrange]
    rfl
  | receivedBlock i begin data => exact absurd trivial hrange
  | releaseBlock i begin =>
    rw [perform, PieceManager.releaseBlock, hindex h.fits.states hrange]
    rfl
  | releasePieceInflight i =>
    rw [perform, PieceManager.releasePieceInflight, hindex h.fits.states hrange]
    rfl
  | resetPiece i =>
    rw [perform, PieceManager.resetPiece, hupdate _ hrange]
    rfl
  | markComplete i =>
    rw [perform, PieceManager.markComplete, hupdate _ hrange]
    rfl

theorem Sound.next (h : s.Sound g) (hmay : s.May c) : (s.next c).Sound g := by
  by_cases hrange : c.InRange g
  · obtain ⟨pm', r, heq, -, hrep⟩ := h.serves hmay hrange
    rw [Assembly.next, heq]
    exact hrep
  · rw [Assembly.next, h.unwinds hrange]
    exact h

theorem Sound.buffered (h : s.Sound g) (hi : i < g.numPieces) :
    (∃ buf, s.manager.buffers[i]? = some (some buf)) ↔
      s.manager.states[i]? = some .inProgress ∧ ¬ s.manager.AllReceived i := by
  obtain ⟨slot, hslot, htracks⟩ := h.slots i hi
  rw [PieceManager.AllReceived, hslot.buffer, hslot.state, hslot.received]
  simpa using htracks.buffer_iff

theorem Sound.exact (h : s.Sound g) : s.Exact g where
  tiled i hi := by
    refine ⟨h.fits.pieceSize_eq hi, h.fits.numBlocks_eq hi, fun b hb => ?_,
      fun pos hpos => existsUnique_block hpos⟩
    have hbound := h.fits.block_bound hb
    exact ⟨h.fits.blockSpan_eq hi hb, by omega, block_end_le hb⟩
  buffered i hi := h.buffered hi
  answers c hmay hrange := by
    obtain ⟨pm', r, heq, hfaithful, -⟩ := h.serves hmay hrange
    exact ⟨pm', r, heq, hfaithful⟩

end Assembly

end RustyTorrent.Piece
