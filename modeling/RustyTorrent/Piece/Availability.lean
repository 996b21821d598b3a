import RustyTorrent.Piece.PickerContract

/-!
# How many peers have a piece

The picker keeps a count for each piece beside the bitfields of the peers, and
moves it with every message.  The count is always the number of peers whose
stored bitfield has the piece, whatever the bitfields' lengths and however
often they are replaced (`availability_exact`).
-/

namespace RustyTorrent.Piece.Picker

open List Option Dict AList

/-- What a bitfield adds to the count of piece `i`. -/
def bit (i : ℕ) (bf : List Bool) : ℕ := if bf.getD i false then 1 else 0

/-- The number of peers whose stored bitfield has piece `i`. -/
def holders (p : Picker) (i : ℕ) : ℕ :=
  p.peerBitfields.pairs.countP fun entry => entry.2.getD i false

/-- The peer a call is made for. -/
def Op.caller : Op → Option SocketAddr
  | .setSequential _ => none
  | .setPeerBitfield addr _ | .addHave addr _ | .forgetPeer addr
  | .releaseAssignment addr | .clearAssignmentIf addr _
  | .pickFor addr _ _ _ => some addr

/-- The counts are right, and a count from which one is taken is positive. -/
structure Exact (p : Picker) : Prop where
  length : p.availability.length = p.numPieces
  count : ∀ i < p.numPieces, p.availability[i]? = some (p.holders i)
  discount : ∀ addr, ∀ i < p.numPieces, p.peerHas addr i = true →
    (p.discount addr).getD i 0 + 1 = p.availability.getD i 0

/-! ## Counts as sums -/

/-- The number of peers apart from `addr` that have piece `i`. -/
def others (p : Picker) (addr : SocketAddr) (i : ℕ) : ℕ :=
  Dict.total (fun _ => bit i) (p.peerBitfields.erase addr)

theorem holders_eq_total (p : Picker) (i : ℕ) :
    p.holders i = total (fun _ => bit i) p.peerBitfields := by
  rw [holders, pairs, total]
  generalize p.peerBitfields.entries = entries
  induction entries with
  | nil => rfl
  | cons e rest ih =>
    rw [map_cons, countP_cons, map_cons, sum_cons, ih, Nat.add_comm]
    rfl

variable {peers : Finset SocketAddr} {p : Picker} {addr : SocketAddr}

theorem holders_of_lookup {bf : List Bool}
    (h : p.peerBitfields.lookup addr = some bf) (i : ℕ) :
    p.holders i = p.others addr i + bit i bf := by
  rw [holders_eq_total, total_erase h, others]

theorem holders_of_none (h : p.peerBitfields.lookup addr = none) (i : ℕ) :
    p.holders i = p.others addr i := by
  rw [holders_eq_total, others, total_erase_of_none h]

theorem bit_le_one (i : ℕ) (bf : List Bool) : bit i bf ≤ 1 := by
  rw [bit]
  split <;> decide

theorem total_bit_le (i : ℕ) (m : Dict SocketAddr (List Bool)) :
    total (fun _ => bit i) m ≤ m.keys.length := by
  rw [total, AList.keys, List.keys, length_map]
  generalize m.entries = entries
  induction entries with
  | nil => exact Nat.le_refl 0
  | cons e rest ih =>
    have hbit := bit_le_one i e.2
    rw [map_cons, sum_cons, length_cons]
    omega

/-- All bitfields belong to peers of a set. -/
def From (p : Picker) (peers : Finset SocketAddr) : Prop :=
  ∀ addr ∈ p.peerBitfields.keys, addr ∈ peers

theorem From.others_lt (h : p.From peers) (haddr : addr ∈ peers) (i : ℕ) :
    p.others addr i < peers.card := by
  have hkeys : (p.peerBitfields.erase addr).keys.toFinset ⊆
      peers.erase addr := by
    intro other hother
    have hmem := mem_erase.mp (mem_toFinset.mp hother)
    exact Finset.mem_erase.mpr ⟨hmem.1, h other hmem.2⟩
  have hle := Finset.card_le_card hkeys
  rw [toFinset_card_of_nodup (keys_nodup _),
    Finset.card_erase_of_mem haddr] at hle
  have hpos : 0 < peers.card := Finset.card_pos.mpr ⟨addr, haddr⟩
  have htotal := total_bit_le i (p.peerBitfields.erase addr)
  rw [others]
  omega

theorem From.insert (h : p.From peers) (haddr : addr ∈ peers) {bf : List Bool}
    {other : SocketAddr}
    (hother : other ∈ (p.peerBitfields.insert addr bf).keys) :
    other ∈ peers := by
  rcases mem_insert _ |>.mp hother with rfl | hmem
  · exact haddr
  · exact h other hmem

/-! ## The calls -/

theorem getElem?_count (bf : List Bool) (f : ℕ → ℕ) (av : List ℕ) (i : ℕ) :
    (count bf f av)[i]? =
      av[i]?.map fun a => if bf.getD i false then f a else a := by
  rw [count, getElem?_mapIdx]

namespace Exact

theorem discount_eq
    (hcount : ∀ i < p.numPieces, p.availability[i]? = some (p.holders i))
    {i : ℕ} (hi : i < p.numPieces) :
    (p.discount addr)[i]? = some (p.others addr i) := by
  rw [Picker.discount]
  split
  next bf hbf =>
    rw [getElem?_count, hcount i hi, holders_of_lookup hbf, bit]
    simp only [map_some, some.injEq]
    split <;> rfl
  next hnone => rw [hcount i hi, holders_of_none hnone]

theorem of_count (hlength : p.availability.length = p.numPieces)
    (hcount : ∀ i < p.numPieces, p.availability[i]? = some (p.holders i)) :
    p.Exact := by
  refine ⟨hlength, hcount, fun addr i hi hhas => ?_⟩
  rw [getD_eq_getElem?_getD, getD_eq_getElem?_getD,
    discount_eq hcount hi, hcount i hi, getD_some, getD_some]
  rw [peerHas] at hhas
  split at hhas
  next bf hbf => rw [holders_of_lookup hbf, bit, if_pos hhas]
  next => cases hhas

theorem new (n : ℕ) : (Picker.new n).Exact := by
  refine of_count length_replicate fun i hi => ?_
  exact getElem?_replicate_of_lt hi

theorem insert {q : Picker} {bf : List Bool}
    (hpieces : q.numPieces = p.numPieces)
    (hfields : q.peerBitfields = p.peerBitfields.insert addr bf)
    (hlength : q.availability.length = p.numPieces)
    (hcount : ∀ i < p.numPieces,
      q.availability[i]? = some (p.others addr i + bit i bf)) : q.Exact := by
  refine of_count (hlength.trans hpieces.symm) fun i hi => ?_
  rw [hcount i (hpieces ▸ hi), holders_eq_total, hfields, total_insert, others]

theorem setPeerBitfield (h : p.Exact) (hfrom : p.From peers)
    (hcard : peers.card < 2 ^ 32) (haddr : addr ∈ peers) (bf : List Bool) :
    (p.setPeerBitfield addr bf).Exact := by
  refine insert (p := p) rfl rfl ?_ fun i hi => ?_
  · rw [Picker.setPeerBitfield, length_count, Picker.discount]
    split
    · rw [length_count, h.length]
    · exact h.length
  · have hlt := hfrom.others_lt haddr i
    rw [Picker.setPeerBitfield, getElem?_count, discount_eq h.count hi,
      map_some, bit]
    split
    · rw [saturatingAdd, Nat.min_eq_left (by omega)]
    · rfl

theorem forgetPeer (h : p.Exact) (addr : SocketAddr) :
    (p.forgetPeer addr).Exact := by
  refine of_count ?_ fun i hi => ?_
  · rw [Picker.forgetPeer, Picker.discount]
    split
    · rw [length_count, h.length]
    · exact h.length
  · rw [holders_eq_total]
    exact discount_eq h.count hi

/-- `add_have` works on the stored bitfield, or on an empty one, extended to
all pieces: its bits are those of the stored one. -/
theorem padded_bit (n i : ℕ) (bf : List Bool) :
    (bf ++ List.replicate n false).getD i false = bf.getD i false := by
  rw [getD_eq_getElem?_getD, getD_eq_getElem?_getD, getElem?_append]
  split
  · rfl
  next hlt =>
    rw [getElem?_replicate, getElem?_eq_none (Nat.le_of_not_lt hlt)]
    split <;> rfl

theorem addHave (h : p.Exact) (hfrom : p.From peers)
    (hcard : peers.card < 2 ^ 32) (haddr : addr ∈ peers) (index : ℕ) :
    (p.addHave addr index).Exact := by
  by_cases hrange : p.numPieces ≤ index
  · rw [Picker.addHave, if_pos hrange]
    exact h
  have hlt := hfrom.others_lt haddr index
  obtain ⟨old, hold, hcount⟩ : ∃ old : List Bool,
      (p.peerBitfields.lookup addr).getD
        (List.replicate p.numPieces false) = old ∧
      ∀ i, p.holders i = p.others addr i + bit i old := by
    cases hlookup : p.peerBitfields.lookup addr with
    | some bf => exact ⟨bf, rfl, holders_of_lookup hlookup⟩
    | none =>
      refine ⟨_, rfl, fun i => ?_⟩
      have hbit := padded_bit p.numPieces i []
      rw [nil_append] at hbit
      rw [holders_of_none hlookup, bit, Option.getD_none, hbit]
      rfl
  rw [Picker.addHave, if_neg hrange, hold]
  dsimp only
  generalize hpad : old ++ List.replicate (p.numPieces - old.length) false = bf
  have hbits : ∀ i, bf.getD i false = old.getD i false := fun i =>
    hpad ▸ padded_bit _ i old
  split
  next =>
    refine insert (p := p) rfl rfl h.length fun i hi => ?_
    rw [h.count i hi, hcount, bit, bit, hbits]
  next hunset =>
    refine insert (p := p) rfl rfl ?_ fun i hi => ?_
    · exact (length_modify ..).trans h.length
    rw [getElem?_modify, h.count i hi, hcount, bit, bit, ← hbits]
    by_cases hi' : index = i
    · subst hi'
      have hlen : index < bf.length := by
        rw [← hpad, length_append, length_replicate]
        omega
      have hset : (bf.set index true).getD index false = true := by
        rw [getD_eq_getElem?_getD, getElem?_set_self hlen]
        rfl
      rw [if_neg hunset, if_pos hset, Option.map_eq_map, Option.map_some,
        if_pos rfl, Nat.add_zero, saturatingAdd, Nat.min_eq_left (by omega)]
    · have hset : (bf.set index true).getD i false = bf.getD i false := by
        rw [getD_eq_getElem?_getD, getElem?_set_ne hi', getD_eq_getElem?_getD]
      rw [hset, Option.map_eq_map, Option.map_some, if_neg hi']

end Exact

/-! ## Histories -/

/-- A history of calls by the peers of a set, and the state it leaves. -/
structure Counted (peers : Finset SocketAddr) (p : Picker) : Prop where
  wellFormed : p.WellFormed
  exact : p.Exact
  known : p.From peers

theorem Counted.frame (h : Counted peers p) {q : Picker} (hq : q.WellFormed)
    (hpieces : q.numPieces = p.numPieces)
    (hcounts : q.availability = p.availability)
    (hfields : q.peerBitfields = p.peerBitfields) : Counted peers q := by
  obtain ⟨numPieces, fields, counts, assigned, sequential⟩ := q
  cases hpieces
  cases hcounts
  cases hfields
  exact ⟨hq, ⟨h.exact.length, h.exact.count, h.exact.discount⟩, h.known⟩

theorem Counted.perform (hcard : peers.card < 2 ^ 32) (h : Counted peers p)
    (op : Op) (hop : ∀ addr, op.caller = some addr → addr ∈ peers) :
    Counted peers (p.perform op) := by
  have hwell := h.wellFormed.perform op
  cases op with
  | setSequential | releaseAssignment => exact h.frame hwell rfl rfl rfl
  | setPeerBitfield addr bf =>
    have haddr := hop addr rfl
    exact ⟨hwell, h.exact.setPeerBitfield h.known hcard haddr bf,
      fun _ => h.known.insert haddr⟩
  | addHave addr index =>
    have haddr := hop addr rfl
    refine ⟨hwell, h.exact.addHave h.known hcard haddr index, ?_⟩
    rw [Picker.perform, Picker.addHave]
    dsimp only
    split_ifs
    · exact h.known
    · exact fun _ => h.known.insert haddr
    · exact fun _ => h.known.insert haddr
  | forgetPeer addr =>
    refine ⟨hwell, h.exact.forgetPeer addr, fun other hother => ?_⟩
    exact h.known other (mem_erase.mp hother).2
  | clearAssignmentIf addr index =>
    have hframe : (p.clearAssignmentIf addr index).numPieces = p.numPieces ∧
        (p.clearAssignmentIf addr index).availability = p.availability ∧
        (p.clearAssignmentIf addr index).peerBitfields = p.peerBitfields := by
      rw [Picker.clearAssignmentIf]
      split <;> exact ⟨rfl, rfl, rfl⟩
    exact h.frame hwell hframe.1 hframe.2.1 hframe.2.2
  | pickFor addr pm endgame choice =>
    rw [Picker.perform] at hwell ⊢
    split at hwell
    next p' r hok =>
      cases pickFor_picks h.wellFormed hok with
      | kept => exact h
      | found => exact h.frame hwell rfl rfl rfl
      | nothing => exact h
    next => exact h

/-- After every history of calls by fewer than `2 ^ 32` peers, the counts are
the numbers of peers that have each piece, and no subtraction from a count has
saturated or ever will. -/
theorem availability_exact (n : ℕ) (peers : Finset SocketAddr)
    (hcard : peers.card < 2 ^ 32) (ops : List Op)
    (hops : ∀ op ∈ ops, ∀ addr, op.caller = some addr → addr ∈ peers) :
    (operations.after (new n) ops).Exact := by
  have hstart : Counted peers (new n) :=
    ⟨new_wellFormed n, .new n, fun _ h => absurd h not_mem_nil⟩
  have hrun : ∀ {p : Picker}, Counted peers p → (∀ op ∈ ops, ∀ addr,
      op.caller = some addr → addr ∈ peers) →
      Counted peers (operations.after p ops) := by
    clear hops
    induction ops with
    | nil => exact fun h _ => h
    | cons op ops ih =>
      intro p h hops
      exact ih (h.perform hcard op (hops op mem_cons_self))
        fun op' hop' => hops op' (mem_cons_of_mem _ hop')
  exact (hrun hstart hops).exact

/-- Bitfields that are too long and too short, replaced and extended. -/
def unevenBitfields : List Op :=
  [.setPeerBitfield (peerAt 1) [true, false, true, true],
    .setPeerBitfield (peerAt 2) [true], .addHave (peerAt 2) 1,
    .setPeerBitfield (peerAt 1) [false, true], .forgetPeer (peerAt 3)]

theorem availability_exact_uneven :
    (operations.after (new 2) unevenBitfields).availability = [1, 2] ∧
      (operations.after (new 2) unevenBitfields).Exact :=
  ⟨by decide, availability_exact 2 {peerAt 1, peerAt 2, peerAt 3}
    (by decide) unevenBitfields (by decide)⟩

end RustyTorrent.Piece.Picker
