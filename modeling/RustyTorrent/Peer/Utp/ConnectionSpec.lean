import RustyTorrent.Peer.Utp.Connection

/-!
# What the operations of a connection change

The receive half of a connection (`inbound`: the frontier, the in-order buffer
and the stash) and its send half (`outbound`: the state, the block queue, the
next sequence number and the packets in flight) are changed by different
operations.  One lemma for each operation says what it leaves in the two
halves, so the invariants of the two directions can be kept apart.
-/

namespace RustyTorrent.Utp

open Serial List Nat OrdMap

/-- The states in which a connection takes no more blocks. -/
def State.Ended (s : State) : Prop := s = .finSent ∨ s = .closed ∨ s = .reset

/-- A packet in flight with another timer and possibly another
acknowledgement. -/
def Same (e e' : InFlight) : Prop :=
  e'.seqNr = e.seqNr ∧ ∃ ackNr, e'.packet = { e.packet with ackNr := ackNr }

theorem Same.refl (e : InFlight) : Same e e := ⟨rfl, e.packet.ackNr, rfl⟩

namespace Connection

/-- The receive half of a connection. -/
structure Inbound where
  frontier : UInt16
  buffer : Bytes
  logical : ℕ
  stash : List (ℕ × Bytes)

def inbound (c : Connection) : Inbound :=
  ⟨c.peerSeqNrAcked, c.inBuf, c.peerLogicalAcked, c.pendingIn⟩

/-- The send half of a connection. -/
structure Outbound where
  state : State
  next : UInt16
  blocks : List Bytes
  head : ℕ
  len : ℕ
  flight : List InFlight

def outbound (c : Connection) : Outbound :=
  ⟨c.state, c.nextSeqNr, c.outBlocks, c.outHead, c.outLen, c.inFlight⟩

/-- The send half in another state and with other packets in flight. -/
def Outbound.become (o : Outbound) (state : State)
    (flight : List InFlight) : Outbound :=
  { o with state := state, flight := flight }

/-! ## Acknowledgements -/

/-- What the acknowledgements of a packet leave in flight. -/
def remaining (p : Packet) (entries : List InFlight) : List InFlight :=
  let left := entries.dropWhile fun e => seqLe e.seqNr p.ackNr
  match sackOf p with
  | none => left
  | some sack => left.filter fun e => !isSacked p.ackNr sack.data e.seqNr

@[simp]
theorem remaining_nil (p : Packet) : remaining p [] = [] := by
  unfold remaining
  cases sackOf p <;> rfl

theorem remaining_sublist (p : Packet) (entries : List InFlight) :
    (remaining p entries).Sublist entries := by
  have hdrop := dropWhile_sublist (l := entries) fun e => seqLe e.seqNr p.ackNr
  unfold remaining
  cases sackOf p with
  | none => exact hdrop
  | some sack => exact filter_sublist.trans hdrop

section

variable (c : Connection)

theorem confirmReturnPath_eq (p : Packet) :
    c.confirmReturnPath p =
      { c with
        returnPathConfirmed := c.returnPathConfirmed ||
          (p.packetType ≠ .syn && c.ackInTokenWindow p.ackNr) } := by
  unfold confirmReturnPath
  rw [Bool.and_assoc]
  split_ifs with h
  · rw [((Bool.and_eq_true _ _).mp h).2, Bool.or_true]
  · have hsame : (c.returnPathConfirmed || (p.packetType ≠ .syn &&
        c.ackInTokenWindow p.ackNr)) = c.returnPathConfirmed := by
      cases hc : c.returnPathConfirmed <;> simp_all
    rw [hsame]

theorem confirmReturnPath_spec (p : Packet) :
    (c.confirmReturnPath p).inbound = c.inbound ∧
    (c.confirmReturnPath p).outbound = c.outbound ∧
    (c.confirmReturnPath p).cc = c.cc ∧
    (p.packetType = .syn → (c.confirmReturnPath p).returnPathConfirmed =
        c.returnPathConfirmed) := by
  rw [confirmReturnPath_eq]
  exact ⟨rfl, rfl, rfl, fun hsyn => by simp [hsyn]⟩

theorem scheduleFastRtx_spec (mask : Bytes) :
    (c.scheduleFastRtx mask).inbound = c.inbound ∧
    (c.scheduleFastRtx mask).outbound = c.outbound ∧
    (c.scheduleFastRtx mask).cc = c.cc ∧
    (c.scheduleFastRtx mask).returnPathConfirmed = c.returnPathConfirmed := by
  unfold scheduleFastRtx
  split_ifs
  · split
    next => exact ⟨rfl, rfl, rfl, rfl⟩
    next => split_ifs <;> exact ⟨rfl, rfl, rfl, rfl⟩
  · exact ⟨rfl, rfl, rfl, rfl⟩

theorem applySack_spec (p : Packet) :
    (c.applySack p).1.inbound = c.inbound ∧
    (c.applySack p).1.outbound = c.outbound.become c.state
        (match sackOf p with
        | none => c.inFlight
        | some sack => c.inFlight.filter
            (fun e => !isSacked p.ackNr sack.data e.seqNr)) ∧
    (c.applySack p).1.cc = c.cc ∧
    (c.applySack p).1.returnPathConfirmed = c.returnPathConfirmed := by
  unfold applySack
  cases sackOf p with
  | none => exact ⟨rfl, rfl, rfl, rfl⟩
  | some sack => exact scheduleFastRtx_spec _ sack.data

theorem reportAcked_spec (p : Packet) (bytes now : ℕ) :
    (c.reportAcked p bytes now).inbound = c.inbound ∧
    (c.reportAcked p bytes now).outbound = c.outbound ∧
    (c.cc.InBounds → (c.reportAcked p bytes now).cc.InBounds) ∧
    (c.reportAcked p bytes now).returnPathConfirmed =
      c.returnPathConfirmed := by
  unfold reportAcked
  split_ifs
  · exact ⟨rfl, rfl, fun h => Ledbat.onAck_inBounds h _ _ _ _, rfl⟩
  · exact ⟨rfl, rfl, id, rfl⟩

/-- The acknowledgements of a packet change what is in flight and nothing
else in the two halves; those of a SYN do not open the accept gate. -/
theorem processAck_spec (p : Packet) (now : ℕ) :
    (c.processAck p now).inbound = c.inbound ∧
    (c.processAck p now).outbound =
      c.outbound.become c.state (remaining p c.inFlight) ∧
    (c.cc.InBounds → (c.processAck p now).cc.InBounds) ∧
    (p.packetType = .syn →
      (c.processAck p now).returnPathConfirmed = c.returnPathConfirmed) := by
  let acked : InFlight → Bool := fun e => seqLe e.seqNr p.ackNr
  let c₁ : Connection := { c with inFlight := c.inFlight.dropWhile acked }
  let c₂ := c₁.confirmReturnPath p
  let c₃ := (c₂.applySack p).1
  obtain ⟨hin₂, hout₂, hcc₂, hconf₂⟩ := confirmReturnPath_spec c₁ p
  obtain ⟨hin₃, hout₃, hcc₃, hconf₃⟩ := applySack_spec c₂ p
  obtain ⟨hin₄, hout₄, hcc₄, hconf₄⟩ := reportAcked_spec c₃ p
    (payloadBytes (c.inFlight.takeWhile acked) + (c₂.applySack p).2) now
  have hflight : c₂.inFlight = c.inFlight.dropWhile acked :=
    congrArg Outbound.flight hout₂
  have hstate : c₂.state = c.state := congrArg Outbound.state hout₂
  refine ⟨hin₄.trans (hin₃.trans hin₂), hout₄.trans (hout₃.trans ?_), ?_, ?_⟩
  · rw [hout₂, hflight, hstate, remaining]
    rfl
  · intro h
    refine hcc₄ ?_
    rw [hcc₃, hcc₂]
    exact h
  · intro hsyn
    exact hconf₄.trans (hconf₃.trans (hconf₂ hsyn))

theorem processAck_state (p : Packet) (now : ℕ) :
    (c.processAck p now).state = c.state :=
  congrArg Outbound.state (processAck_spec c p now).2.1

end

variable {c : Connection} {p : Packet} {mask unsent : Bytes} {n : ℕ}

/-- The acknowledgements of a packet without a mask and without a delay
sample. -/
theorem processAck_plain (hsack : sackOf p = none)
    (hdiff : p.timestampDiffMicros = 0) (now : ℕ) :
    c.processAck p now =
      { c with
        inFlight := c.inFlight.dropWhile fun e => seqLe e.seqNr p.ackNr
        returnPathConfirmed := c.returnPathConfirmed ||
          (p.packetType ≠ .syn && c.ackInTokenWindow p.ackNr) } := by
  have hcc : ∀ (l : Ledbat) (bytes wnd : ℕ),
      l.onAck p.timestampDiffMicros.toNat bytes wnd now = l := by
    simp [Ledbat.onAck, hdiff]
  unfold processAck applySack reportAcked
  simp only [hsack, hcc, ite_self, confirmReturnPath_eq]
  rfl

/-! ## Receiving -/

theorem drainStep_outbound {c' : Connection} (h : c.drainStep = some c') :
    c'.outbound = c.outbound ∧ c'.cc = c.cc := by
  unfold drainStep at h
  split_ifs at h
  split at h
  next => cases h
  next =>
    cases h
    exact ⟨rfl, rfl⟩

theorem drainLoop_outbound (fuel : ℕ) (c : Connection) :
    (drainLoop fuel c).outbound = c.outbound ∧
      (drainLoop fuel c).cc = c.cc := by
  induction fuel generalizing c with
  | zero => exact ⟨rfl, rfl⟩
  | succ fuel ih =>
    unfold drainLoop
    cases hstep : c.drainStep with
    | none => exact ⟨rfl, rfl⟩
    | some c' =>
      obtain ⟨hout, hcc⟩ := drainStep_outbound hstep
      rw [← hout, ← hcc]
      exact ih c'

theorem drainStep_length {c' : Connection} (h : c.drainStep = some c') :
    c'.pendingIn.length < c.pendingIn.length := by
  unfold drainStep at h
  split_ifs at h
  cases hget : get c.pendingIn (c.peerLogicalAcked + 1) with
  | none =>
    rw [hget] at h
    cases h
  | some buf =>
    rw [hget] at h
    cases h
    exact length_erase_lt hget

theorem drainPendingIn_stops (c : Connection) :
    c.drainPendingIn.drainStep = none := by
  have hloop : ∀ fuel c, c.pendingIn.length ≤ fuel →
      (drainLoop fuel c).drainStep = none := by
    intro fuel
    induction fuel with
    | zero =>
      intro c hlen
      rw [drainLoop, drainStep, eq_nil_of_length_eq_zero (le_zero.1 hlen)]
      simp
    | succ fuel ih =>
      intro c hlen
      unfold drainLoop
      cases hstep : c.drainStep with
      | none => exact hstep
      | some c' =>
        have hlt := drainStep_length hstep
        exact ih c' (by omega)
  exact hloop _ c (le_refl _)

theorem receiveData_outbound (c : Connection) (p : Packet) :
    (c.receiveData p).outbound = c.outbound ∧ (c.receiveData p).cc = c.cc := by
  unfold receiveData acceptInOrder stashAhead
  split_ifs
  · exact ⟨rfl, rfl⟩
  · exact ⟨rfl, rfl⟩
  · exact drainLoop_outbound _ _
  · exact ⟨rfl, rfl⟩
  · exact ⟨rfl, rfl⟩

/-- The receive half after a packet of the given type. -/
def received (c : Connection) (p : Packet) (now : ℕ) : Inbound :=
  match p.packetType with
  | .data => ((c.processAck p now).receiveData p).inbound
  | .fin => { c.inbound with frontier := p.seqNr }
  | .state =>
    if c.state = .synSent then { c.inbound with frontier := p.seqNr - 1 }
    else c.inbound
  | _ => c.inbound

theorem handleIncoming_spec (hmatch : c.matchesIncoming p = true)
    (htype : p.packetType ≠ .reset) (now : ℕ) :
    (c.handleIncoming p now).1.inbound = c.received p now ∧
    (∃ state, (c.handleIncoming p now).1.outbound =
      c.outbound.become state (remaining p c.inFlight) ∧
      (c.state.Ended → state.Ended) ∧
      (c.state ≠ .synSent → state ≠ .synSent)) ∧
    (c.cc.InBounds → (c.handleIncoming p now).1.cc.InBounds) ∧
    ∀ reply ∈ (c.handleIncoming p now).2,
      reply = (c.handleIncoming p now).1.buildStateAck := by
  obtain ⟨hin, hout, hcc, -⟩ := processAck_spec c p now
  have hstate := processAck_state c p now
  unfold handleIncoming received
  rw [hmatch]
  cases hp : p.packetType with
  | reset => exact absurd hp htype
  | syn =>
    exact ⟨hin, ⟨c.state, hout, id, id⟩, hcc, by simp⟩
  | state =>
    simp only [Bool.not_true, Bool.false_eq_true, if_false, hstate]
    split_ifs with hsyn
    · rw [← hin, hsyn]
      exact ⟨rfl, ⟨.connected,
        congrArg (fun o => o.become .connected o.flight) hout,
        by simp [State.Ended], by simp⟩, hcc, by simp⟩
    · exact ⟨hin, ⟨c.state, hout, id, id⟩, hcc, by simp⟩
  | data =>
    obtain ⟨hout', hcc'⟩ := receiveData_outbound (c.processAck p now) p
    refine ⟨rfl, ⟨c.state, hout'.trans hout, id, id⟩, ?_, by simp⟩
    intro h
    exact hcc' ▸ hcc h
  | fin =>
    simp only [Bool.not_true, Bool.false_eq_true, if_false]
    rw [← hin]
    split_ifs with hdone
    · refine ⟨rfl, ⟨.closed, ?_, by simp [State.Ended], by simp⟩, hcc, ?_⟩
      · exact congrArg (fun o => o.become .closed o.flight) hout
      · simp [buildStateAck, packet, buildSack, sackMask, recvWindow]
    · exact ⟨rfl, ⟨c.state, hout, id, id⟩, hcc, by simp⟩

/-- Whatever a packet is, it changes the state and takes packets out of
flight. -/
theorem handleIncoming_outbound (c : Connection) (p : Packet) (now : ℕ) :
    ∃ state entries, (c.handleIncoming p now).1.outbound =
        c.outbound.become state entries ∧ entries.Sublist c.inFlight ∧
      (c.state.Ended → state.Ended) := by
  cases hmatch : c.matchesIncoming p with
  | false =>
    exact ⟨c.state, c.inFlight, by simp [handleIncoming, hmatch]; rfl, .refl _,
      id⟩
  | true =>
    by_cases hreset : p.packetType = .reset
    · refine ⟨.reset, c.inFlight, ?_, .refl _, fun _ => .inr (.inr rfl)⟩
      simp only [handleIncoming, hmatch, hreset]
      rfl
    · obtain ⟨-, ⟨state, hout, hended, -⟩, -⟩ :=
        handleIncoming_spec hmatch hreset now
      exact ⟨state, _, hout, remaining_sublist p _, hended⟩

theorem handleIncoming_state (hmatch : c.matchesIncoming p = true)
    (htype : p.packetType = .state) (now : ℕ) :
    c.handleIncoming p now = (if c.state = .synSent then
        { c.processAck p now with
          state := .connected
          peerSeqNrAcked := p.seqNr - 1 }
      else c.processAck p now, none) := by
  unfold handleIncoming
  rw [hmatch, htype]
  simp only [Bool.not_true, Bool.false_eq_true, if_false, processAck_state]
  split_ifs <;> rfl

/-! ## Reading, writing and closing -/

theorem takeReceived_all {max : ℕ}
    (h : c.inBuf.length ≤ max) : (c.takeReceived max).2 = c.inBuf := by
  rw [takeReceived, min_eq_left h, take_length]

theorem enqueueSendBlock_frame (c : Connection) (block : Bytes) :
    let r := c.enqueueSendBlock block
    r.1.inbound = c.inbound ∧ r.1.cc = c.cc ∧ r.1.state = c.state := by
  unfold enqueueSendBlock
  split_ifs <;> exact ⟨rfl, rfl, rfl⟩

theorem close_frame (c : Connection) :
    c.close.inbound = c.inbound ∧ c.close.cc = c.cc ∧
      (c.state ≠ .synSent → c.close.state ≠ .synSent) := by
  unfold close
  split_ifs
  · exact ⟨rfl, rfl, id⟩
  · exact ⟨rfl, rfl, fun _ => nofun⟩

/-! ## Selective acknowledgements -/

/-- Bit `n` of a mask, least significant bits first. -/
def maskBit (mask : Bytes) (n : ℕ) : Bool :=
  (mask[n / 8]?).any fun b => b.toNat.testBit (n % 8)

theorem maskBit_eq_true : maskBit mask n = true ↔
      ∃ b, mask[n / 8]? = some b ∧ b.toNat.testBit (n % 8) = true := by
  cases h : mask[n / 8]? with
  | none | some => simp [maskBit, h]

theorem isSacked_eq (ackNr : UInt16) (mask : Bytes) (seqNr : UInt16) :
    isSacked ackNr mask seqNr = maskBit mask (seqNr - (ackNr + 2)).toNat :=
  rfl

theorem lt_of_maskBit (h : maskBit mask n = true) : n < 8 * mask.length := by
  obtain ⟨b, hb, -⟩ := maskBit_eq_true.1 h
  have hlt := (List.getElem?_eq_some_iff.1 hb).1
  omega

theorem maskBit_append_zeros (mask : Bytes) (k n : ℕ) :
    maskBit (mask ++ List.replicate k 0) n = maskBit mask n := by
  unfold maskBit
  rcases lt_or_ge (n / 8) mask.length with hlt | hge
  · rw [getElem?_append_left hlt]
  · rw [getElem?_append_right hge, getElem?_eq_none hge, getElem?_replicate]
    split_ifs <;> simp

theorem maskBit_modify {offset : ℕ} (h : offset / 8 < mask.length) :
    maskBit (mask.modify (offset / 8)
        (· ||| UInt8.ofNat (2 ^ (offset % 8)))) n = true ↔
      maskBit mask n = true ∨ n = offset := by
  unfold maskBit
  rw [getElem?_modify]
  by_cases hbyte : offset / 8 = n / 8
  · have hpow : 2 ^ (offset % 8) < 2 ^ 8 :=
      Nat.pow_lt_pow_right (by decide) (Nat.mod_lt _ (by decide))
    rw [← hbyte, getElem?_eq_getElem h]
    simp only [if_true, Option.map_eq_map, Option.map_some, Option.any_some,
      UInt8.toNat_or, testBit_or, Bool.or_eq_true,
      UInt8.toNat_ofNat_of_lt' hpow, testBit_two_pow, decide_eq_true_eq]
    exact or_congr_right (by omega)
  · simp only [if_neg hbyte, id_map']
    exact (or_iff_left fun heq => hbyte (by rw [heq])).symm

/-- Marking an offset sets its bit, unless the mask cannot reach it. -/
theorem maskBit_sackMark (mask : Bytes) (offset n : ℕ) :
    maskBit (sackMark mask offset) n = true ↔
      maskBit mask n = true ∨ n = offset ∧ offset < 512 := by
  have hlimit : maxSackBytes = 64 := rfl
  simp only [sackMark]
  by_cases hmax : maxSackBytes ≤ offset / 8
  · rw [if_pos hmax]
    exact (or_iff_left (by omega)).symm
  rw [if_neg hmax, and_iff_left (by omega : offset < 512)]
  by_cases hgrow : mask.length ≤ offset / 8
  · rw [if_pos hgrow, maskBit_modify, maskBit_append_zeros]
    rw [length_append, length_replicate]
    omega
  · rw [if_neg hgrow, maskBit_modify (by omega)]

theorem length_sackMark (h : mask.length ≤ maxSackBytes) (offset : ℕ) :
    (sackMark mask offset).length ≤ maxSackBytes := by
  unfold sackMark
  simp only
  split_ifs with hmax hgrow
  · exact h
  · rw [length_modify, length_append, length_replicate]
    omega
  · rw [length_modify]
    exact h

/-- The mask of a stash: at most 64 bytes, with the bits of the stashed
packets that are 2 to 513 ahead of the frontier. -/
theorem sackMask_spec (c : Connection) : c.sackMask.length ≤ maxSackBytes ∧
    ∀ n, maskBit c.sackMask n = true ↔ n < 512 ∧
      ∃ v, get c.pendingIn (c.peerLogicalAcked + 2 + n) = some v := by
  let f : Bytes → ℕ → Bytes := fun mask logical =>
    if logical - c.peerLogicalAcked < 2 then mask
    else sackMark mask (logical - c.peerLogicalAcked - 2)
  have hbit : ∀ mask k n, maskBit (f mask k) n = true ↔
      maskBit mask n = true ∨ n < 512 ∧ c.peerLogicalAcked + 2 + n = k := by
    intro mask k n
    by_cases hk : k - c.peerLogicalAcked < 2
    · simp only [f, if_pos hk]
      exact (or_iff_left (by omega)).symm
    · simp only [f, if_neg hk, maskBit_sackMark]
      exact or_congr_right (by omega)
  have hfold : ∀ (ks : List ℕ) (mask : Bytes), mask.length ≤ maxSackBytes →
      (ks.foldl f mask).length ≤ maxSackBytes ∧
      ∀ n, maskBit (ks.foldl f mask) n = true ↔
        maskBit mask n = true ∨ n < 512 ∧ c.peerLogicalAcked + 2 + n ∈ ks := by
    intro ks
    induction ks with
    | nil => simp
    | cons k ks ih =>
      intro mask hlen
      have hlen' : (f mask k).length ≤ maxSackBytes := by
        simp only [f]
        split_ifs
        · exact hlen
        · exact length_sackMark hlen _
      refine ⟨(ih _ hlen').1, fun n => ?_⟩
      rw [foldl_cons, (ih _ hlen').2 n, hbit, or_assoc, ← and_or_left,
        ← mem_cons]
  obtain ⟨hlen, hbits⟩ := hfold (keys c.pendingIn)
    (List.replicate 4 0) (by decide)
  refine ⟨hlen, fun n => (hbits n).trans ?_⟩
  have hzero := maskBit_append_zeros [] 4 n
  rw [nil_append] at hzero
  rw [hzero, mem_keys_iff]
  exact or_iff_right (by simp [maskBit])

theorem sackOf_buildStateAck {sack : Extension}
    (h : sackOf c.buildStateAck = some sack) : sack.data = c.sackMask := by
  simp only [sackOf, buildStateAck, packet, buildSack] at h
  split_ifs at h
  · simp at h
  · simp at h
  · simp [extSelectiveAck] at h
    rw [← h]

/-! ## The block queue -/

/-- The unsent bytes of a send half: whole blocks, none of them empty, with
the front one sent up to the cursor. -/
structure Queue (o : Outbound) (unsent : Bytes) : Prop where
  unsent_eq : unsent = o.blocks.flatten.drop o.head
  len_eq : o.len = unsent.length
  blocks : ∀ b ∈ o.blocks, b ≠ []
  head : ∀ b ∈ o.blocks.head?, o.head < b.length
  idle : o.blocks = [] → o.head = 0

theorem Queue.congr {o o' : Outbound} (h : Queue o unsent)
    (hblocks : o'.blocks = o.blocks) (hhead : o'.head = o.head)
    (hlen : o'.len = o.len) : Queue o' unsent := by
  obtain ⟨state, next, blocks, head, len, flight⟩ := o'
  cases hblocks
  cases hhead
  cases hlen
  exact ⟨h.unsent_eq, h.len_eq, h.blocks, h.head, h.idle⟩

theorem Queue.enqueue {o : Outbound} {block : Bytes}
    (h : Queue o unsent) (hne : block ≠ []) :
    Queue { o with len := o.len + block.length
                   blocks := o.blocks ++ [block] } (unsent ++ block) := by
  have hhead : o.head ≤ o.blocks.flatten.length := by
    cases hb : o.blocks with
    | nil => rw [h.idle hb]; exact zero_le _
    | cons b rest =>
      have hlt := h.head b (by rw [hb]; rfl)
      rw [flatten_cons, length_append]
      omega
  refine ⟨?_, ?_, ?_, ?_, ?_⟩
  · simp only [flatten_append, flatten_cons, flatten_nil, append_nil]
    rw [drop_append_of_le_length hhead, ← h.unsent_eq]
  · simp only [length_append, h.len_eq]
  · intro b hb
    rcases mem_append.1 hb with hold | hnew
    · exact h.blocks b hold
    · rw [mem_singleton.1 hnew]
      exact hne
  · intro b hb
    cases hblocks : o.blocks with
    | nil =>
      simp only [hblocks, nil_append, List.head?_cons,
        Option.mem_def, Option.some.injEq] at hb
      rw [h.idle hblocks, ← hb]
      exact length_pos_of_ne_nil hne
    | cons b' rest =>
      refine h.head b ?_
      simpa [hblocks] using hb
  · intro hnil
    simp at hnil

/-- The connection after a payload was cut off its block queue. -/
def cut (c : Connection) (blocks : List Bytes) (head len : ℕ) : Connection :=
  { c with outBlocks := blocks, outHead := head, outLen := len }

variable {c' : Connection} {payload : Bytes}

theorem nextPayload_cut (h : c.nextPayload = some (c', payload)) :
    ∃ blocks head len, c' = c.cut blocks head len := by
  unfold nextPayload at h
  split_ifs at h
  split at h
  next => cases h
  next =>
    dsimp only at h
    split_ifs at h <;> cases h <;> exact ⟨_, _, _, rfl⟩

theorem nextPayload_none (h : Queue c.outbound unsent)
    (hnone : c.nextPayload = none) : unsent = [] := by
  have hlen : c.outLen = unsent.length := h.len_eq
  have hunsent : unsent = c.outBlocks.flatten.drop c.outHead := h.unsent_eq
  unfold nextPayload at hnone
  split_ifs at hnone with hzero
  · exact eq_nil_of_length_eq_zero (hlen ▸ hzero)
  · split at hnone
    next hb => simpa [hb] using hunsent
    next =>
      dsimp only at hnone
      split_ifs at hnone

theorem nextPayload_spec (h : Queue c.outbound unsent)
    (hnext : c.nextPayload = some (c', payload)) :
    payload ≠ [] ∧ payload.length ≤ maxDataPayload ∧
      ∃ rest, unsent = payload ++ rest ∧ Queue c'.outbound rest := by
  obtain ⟨hunsent, hlen, hblocks, hhead, -⟩ := h
  simp only [outbound] at hunsent hlen hblocks hhead
  unfold nextPayload at hnext
  split_ifs at hnext
  cases hb : c.outBlocks with
  | nil =>
    rw [hb] at hnext
    cases hnext
  | cons block rest =>
    rw [hb] at hnext hunsent hblocks hhead
    have hlt : c.outHead < block.length := hhead block rfl
    let take := min (block.length - c.outHead) maxDataPayload
    have hmax : take ≤ maxDataPayload := min_le_right _ _
    have hpos : 0 < take :=
      lt_min (Nat.sub_pos_of_lt hlt) (by decide : 0 < maxDataPayload)
    have hfit : take ≤ (block.drop c.outHead).length := by
      rw [length_drop]
      exact min_le_left _ _
    have hpayload : unsent.take take = (block.drop c.outHead).take take := by
      rw [hunsent, flatten_cons, drop_append_of_le_length hlt.le,
        take_append_of_le_length hfit]
    have htake : (unsent.take take).length = take := by
      rw [hpayload, length_take, min_eq_left hfit]
    have hleft : c.outLen - take = (unsent.drop take).length := by
      rw [length_drop, hlen]
    have hrest : unsent.drop take =
        (block ++ rest.flatten).drop (c.outHead + take) := by
      rw [hunsent, flatten_cons, drop_drop]
    dsimp only at hnext
    rw [← hpayload] at hnext
    have hpayload' : payload = unsent.take take := by
      split_ifs at hnext <;> cases hnext <;> rfl
    rw [hpayload']
    refine ⟨ne_nil_of_length_pos (by omega), by omega, unsent.drop take,
      (take_append_drop _ _).symm, ?_⟩
    split_ifs at hnext with hdone
    · cases hnext
      refine ⟨?_, hleft, fun b hmem => hblocks b (.tail _ hmem), ?_,
        fun _ => rfl⟩
      · rw [length_drop] at hfit
        rw [hrest, drop_left' (by omega)]
        rfl
      · intro b hmem
        have hmem' : b ∈ rest := mem_of_mem_head? hmem
        exact length_pos_of_ne_nil (hblocks b (.tail _ hmem'))
    · cases hnext
      refine ⟨hrest, hleft, hblocks, ?_, nofun⟩
      rintro b ⟨⟩
      exact Nat.lt_of_not_le hdone

/-! ## Packets sent again -/

/-- Packets in flight go out again: what is in flight then, and what is
sent. -/
structure Resent (c : Connection) (entries : List InFlight)
    (packets : List Packet) : Prop where
  same : Forall₂ Same c.inFlight entries
  sent : ∀ p ∈ packets, p.ackNr = c.peerSeqNrAcked ∧
    ∃ e ∈ entries, e.packet = p

theorem refreshFirst_spec (seqNr ackNr : UInt16) (now : ℕ)
    (entries : List InFlight) :
    let r := refreshFirst seqNr ackNr now entries
    Forall₂ Same entries r.1 ∧
      ∀ p ∈ r.2, p.ackNr = ackNr ∧ ∃ e ∈ r.1, e.packet = p := by
  induction entries with
  | nil => exact ⟨.nil, nofun⟩
  | cons e rest ih =>
    obtain ⟨hsame, hout⟩ := ih
    unfold refreshFirst
    split_ifs with heq
    · refine ⟨.cons ⟨rfl, ackNr, rfl⟩ (forall₂_same.2 fun e _ => .refl e), ?_⟩
      intro p hp
      cases hp
      exact ⟨rfl, _, mem_cons_self, rfl⟩
    · refine ⟨.cons (.refl e) hsame, ?_⟩
      intro p hp
      obtain ⟨hack, e', he', heq'⟩ := hout p hp
      exact ⟨hack, e', mem_cons_of_mem e he', heq'⟩

theorem retransmit_same (ackNr : UInt16) (now : ℕ) (e : InFlight) :
    Same e (retransmit ackNr now e).1 ∧ ∀ p ∈ (retransmit ackNr now e).2,
        p.ackNr = ackNr ∧ (retransmit ackNr now e).1.packet = p := by
  unfold retransmit
  split_ifs
  · refine ⟨⟨rfl, ackNr, rfl⟩, ?_⟩
    intro p hp
    cases hp
    exact ⟨rfl, rfl⟩
  · exact ⟨.refl e, nofun⟩

/-- A tick resends what is in flight, or resets the connection. -/
theorem tick_cases (c : Connection) (now : ℕ) : ∃ state entries packets,
    c.tick now = ({ c with state := state, inFlight := entries }, packets) ∧
      c.Resent entries packets ∧ (state = c.state ∨ state = .reset) := by
  have hstay : c.Resent c.inFlight [] :=
    ⟨forall₂_same.2 fun e _ => .refl e, nofun⟩
  unfold tick
  split_ifs
  · exact ⟨_, _, _, rfl, hstay, .inl rfl⟩
  · exact ⟨_, _, _, rfl, hstay, .inr rfl⟩
  · refine ⟨_, _, _, rfl, ⟨?_, ?_⟩, .inl rfl⟩
    · rw [map_map, forall₂_map_right_iff]
      exact forall₂_same.2 fun e _ => (retransmit_same _ now e).1
    · intro p hp
      obtain ⟨r, hr, hrp⟩ := mem_filterMap.1 hp
      obtain ⟨e, -, rfl⟩ := mem_map.1 hr
      obtain ⟨hack, hpacket⟩ := (retransmit_same _ now e).2 p hrp
      exact ⟨hack, _, mem_map_of_mem hr, hpacket⟩

/-! ## Sending -/

/-- `pending_send_packets` in small steps: a packet in flight goes out again,
payloads are cut off the queue while the window has room, and a FIN comes
last.  `done` says when it stops without one. -/
inductive Sending (now : ℕ) : Connection → List Packet → Connection → Prop
  | done {c : Connection} (hwants : c.wantsFin = false)
      (hstop : c.state = .finSent →
        c.nextPayload = none ∨ c.window ≤ c.inFlight.length) :
      Sending now c [] c
  | again {c c' : Connection} {entries : List InFlight}
      {packets packets' : List Packet} (hagain : c.Resent entries packets)
      (hrest : Sending now { c with fastRtxSeq := none, inFlight := entries }
        packets' c') : Sending now c (packets ++ packets') c'
  | data {c c' : Connection} {blocks : List Bytes} {head len : ℕ}
      {payload : Bytes} {packets : List Packet}
      (hroom : c.inFlight.length < c.window)
      (hnext : c.nextPayload = some (c.cut blocks head len, payload))
      (hrest : Sending now ((c.cut blocks head len).emit .data payload now).1
        packets c') :
      Sending now c
        (((c.cut blocks head len).emit .data payload now).2 :: packets) c'
  | fin {c : Connection} (hwants : c.wantsFin = true) :
      Sending now c [(c.emit .fin [] now).2] (c.emit .fin [] now).1

/-- The packetization loop, and the FIN behind it. -/
theorem packetize_sending (now room : ℕ) (c : Connection)
    (hroom : room = c.window - c.inFlight.length) :
    let r := packetize now room c
    let fin := r.1.emit .fin [] now
    let s := if r.1.wantsFin then (fin.1, r.2 ++ [fin.2]) else r
    Sending now c s.2 s.1 := by
  have hlast : ∀ c : Connection, (c.state = .finSent →
      c.nextPayload = none ∨ c.window ≤ c.inFlight.length) →
      let fin := c.emit .fin [] now
      let s := if c.wantsFin then (fin.1, [fin.2]) else (c, [])
      Sending now c s.2 s.1 := by
    intro c hstop
    dsimp only
    split_ifs with hwants
    · exact .fin hwants
    · exact .done (Bool.eq_false_iff.mpr hwants) hstop
  induction room generalizing c with
  | zero => exact hlast c fun _ => .inr (by omega)
  | succ room ih =>
    unfold packetize
    cases hnext : c.nextPayload with
    | none => exact hlast c fun _ => .inl hnext
    | some r =>
      obtain ⟨c', payload⟩ := r
      obtain ⟨blocks, head, len, rfl⟩ := nextPayload_cut hnext
      have hone : ((c.cut blocks head len).emit .data payload now).1.inFlight =
          c.inFlight ++ [_] := rfl
      have hrest := ih ((c.cut blocks head len).emit .data payload now).1
        (by rw [hone, length_append, length_singleton]
            change room = c.window - _
            omega)
      dsimp only at hrest ⊢
      split_ifs at hrest ⊢
      · exact .data (by omega) hnext hrest
      · exact .data (by omega) hnext hrest

theorem pendingSendPackets_sending (c : Connection) (now : ℕ) :
    Sending now c (c.pendingSendPackets now).2
      (c.pendingSendPackets now).1 := by
  have hquiet (h : c.state ≠ .finSent) : Sending now c [] c :=
    .done (by simp [wantsFin, h]) fun hfin => absurd hfin h
  unfold pendingSendPackets
  split_ifs with hclosed hopening
  · exact hquiet fun h => by simp [isClosed, h] at hclosed
  · exact hquiet fun h => by simp [h] at hopening
  unfold fastRetransmit
  cases c.fastRtxSeq with
  | none =>
    have hrest := packetize_sending now _ c rfl
    dsimp only at hrest ⊢
    split_ifs at hrest ⊢
    · exact hrest
    · exact hrest
  | some seq =>
    obtain ⟨hsame, hsent⟩ :=
      refreshFirst_spec seq c.peerSeqNrAcked now c.inFlight
    have hrest := Sending.again (c := c)
      ⟨hsame, fun p hp => hsent p (Option.mem_toList.1 hp)⟩
      (packetize_sending now _ _ rfl)
    dsimp only at hrest ⊢
    split_ifs at hrest ⊢
    · rw [append_assoc]
      exact hrest
    · exact hrest

/-! ## An idle connection -/

theorem Sending.idle {now : ℕ} {packets : List Packet}
    (h : Sending now c packets c') (hflight : c.inFlight = [])
    (hlen : c.outLen = 0) (hfin : c.state ≠ .finSent) :
    packets = [] ∧ ∃ seq, c' = { c with fastRtxSeq := seq } := by
  induction h with
  | done => exact ⟨rfl, _, rfl⟩
  | again hagain _ ih =>
    obtain ⟨hsame, hsent⟩ := hagain
    rw [hflight] at hsame
    cases hsame
    obtain ⟨hrest, seq, hconn⟩ := ih rfl hlen hfin
    refine ⟨append_eq_nil_iff.mpr ⟨eq_nil_iff_forall_not_mem.mpr ?_, hrest⟩,
      seq, ?_⟩
    · intro p hp
      obtain ⟨-, e, he, -⟩ := hsent p hp
      cases he
    · rw [hconn, hflight]
  | data _ hnext => simp [nextPayload, hlen] at hnext
  | fin hwants => simp [wantsFin, hfin] at hwants

/-- A connection with nothing queued, nothing in flight and no FIN to send
sends nothing. -/
theorem pendingSendPackets_idle (hflight : c.inFlight = [])
    (hlen : c.outLen = 0) (hfin : c.state ≠ .finSent) (now : ℕ) :
    ∃ seq, c.pendingSendPackets now = ({ c with fastRtxSeq := seq }, []) := by
  obtain ⟨hsent, seq, hconn⟩ :=
    (pendingSendPackets_sending c now).idle hflight hlen hfin
  exact ⟨seq, Prod.ext hconn hsent⟩

theorem tick_idle (hflight : c.inFlight = []) (now : ℕ) : c.tick now = (c, []) ∨
      c.tick now = ({ c with state := .reset }, []) := by
  unfold tick
  split_ifs
  · exact .inl rfl
  · exact .inr rfl
  · left
    simp only [hflight, map_nil, filterMap_nil, Prod.mk.injEq, and_true]
    rw [← hflight]

end Connection

end RustyTorrent.Utp
