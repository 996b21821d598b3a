import RustyTorrent.Peer.Utp.Sender

/-!
# The receiving half of a connection

`Reads` ties the receive half of a connection to the track of the sender on
the other side: what was delivered is the payloads of the first packets, and
what is stashed under a logical position is the payload of that packet.  A
DATA packet keeps this, as long as sixteen bits still tell its position
(`receiveData_reads`).
-/

namespace RustyTorrent.Utp

open Serial Connection OrdMap

/-- The receive half of a connection against the track of the other side.
`front` is the position of the last packet delivered in order, or of the FIN
that moved the frontier. -/
structure Reads (base : ℕ) (t : Track) (i : Inbound) (taken : Bytes)
    (front : ℕ) : Prop where
  frontier : i.frontier = wrap front
  low : base ≤ front + 1
  high : front < t.next base
  logical : i.logical ≤ t.datas.length
  stream : taken ++ i.buffer = (t.datas.take i.logical).flatten
  stash : ∀ k v, OrdMap.get i.stash k = some v →
    1 ≤ k ∧ t.datas[k - 1]? = some v

/-- The receiver has the packet at a position: it was delivered, or it is
stashed under its logical position. -/
def Has (base : ℕ) (i : Inbound) (front q : ℕ) : Prop :=
  q ≤ front ∨ ∃ v, OrdMap.get i.stash (q + 1 - base) = some v

theorem Reads.later {base : ℕ} {t t' : Track} {i : Inbound} {taken : Bytes}
    {front : ℕ} (h : Reads base t i taken front) (hl : t.Later t' base) :
    Reads base t' i taken front := by
  obtain ⟨more, hmore⟩ := hl.datas
  refine ⟨h.frontier, h.low, h.high.trans_le hl.next,
    h.logical.trans hl.datas.length_le, ?_, ?_⟩
  · rw [h.stream, ← hmore, List.take_append_of_le_length h.logical]
  · intro k v hget
    obtain ⟨hk, hv⟩ := h.stash k v hget
    have hlt := (List.getElem?_eq_some_iff.1 hv).1
    exact ⟨hk, by rw [← hmore, List.getElem?_append_left hlt, hv]⟩

theorem takeReceived_reads {base : ℕ} {t : Track} {c : Connection}
    {taken : Bytes} {front : ℕ} (h : Reads base t c.inbound taken front)
    (max : ℕ) :
    let r := c.takeReceived max
    Reads base t r.1.inbound (taken ++ r.2) front := by
  refine ⟨h.frontier, h.low, h.high, h.logical, ?_, h.stash⟩
  have hstream := h.stream
  simp only [inbound] at hstream
  simp only [takeReceived, inbound]
  rw [List.append_assoc, List.take_append_drop, hstream]

section Data

variable {base : ℕ} {t : Track} {taken : Bytes} {v : Bytes} {i : Inbound}
  {front : ℕ} {c : Connection} {p : Packet}

theorem take_succ_flatten {datas : List Bytes} {n : ℕ}
    (h : datas[n]? = some v) :
    (datas.take (n + 1)).flatten = (datas.take n).flatten ++ v := by
  rw [List.take_add_one, h, List.flatten_append]
  simp

/-- A receive half in order, and everything an earlier one had. -/
structure Advances (base : ℕ) (t : Track) (taken : Bytes) (i : Inbound)
    (front : ℕ) (i' : Inbound) (front' : ℕ) : Prop where
  reads : Reads base t i' taken front'
  aligned : front' + 1 = base + i'.logical
  front_le : front ≤ front'
  has : ∀ q, Has base i front q → Has base i' front' q

theorem Advances.trans {i' i'' : Inbound} {front' front'' : ℕ}
    (h : Advances base t taken i front i' front')
    (h' : Advances base t taken i' front' i'' front'') :
    Advances base t taken i front i'' front'' :=
  ⟨h'.reads, h'.aligned, h.front_le.trans h'.front_le,
    fun q hq => h'.has q (h.has q hq)⟩

theorem Advances.refl
    (h : Reads base t i taken front) (ha : front + 1 = base + i.logical) :
    Advances base t taken i front i front :=
  ⟨h, ha, Nat.le_refl _, fun _ hq => hq⟩

theorem Advances.deliver (h : Reads base t i taken front)
    (ha : front + 1 = base + i.logical) (hv : t.datas[i.logical]? = some v)
    {i' : Inbound} (hfrontier : i'.frontier = wrap (front + 1))
    (hbuffer : i'.buffer = i.buffer ++ v)
    (hlogical : i'.logical = i.logical + 1)
    (hstash : ∀ k, get i'.stash k = get i.stash k ∨
      k = i.logical + 1 ∧ get i'.stash k = none) :
    Advances base t taken i front i' (front + 1) := by
  have hlt := (List.getElem?_eq_some_iff.1 hv).1
  refine ⟨⟨hfrontier, by omega, ?_, by omega, ?_, ?_⟩, by omega, by omega, ?_⟩
  · unfold Track.next
    omega
  · rw [hbuffer, hlogical, take_succ_flatten hv, ← h.stream, List.append_assoc]
  · intro k w hk
    rcases hstash k with hsame | ⟨-, hnone⟩
    · exact h.stash k w (hsame ▸ hk)
    · rw [hnone] at hk
      cases hk
  · intro q hq
    rcases hq with hle | ⟨w, hw⟩
    · exact .inl (by omega)
    · rcases hstash (q + 1 - base) with hsame | ⟨heq, -⟩
      · exact .inr ⟨w, hsame ▸ hw⟩
      · exact .inl (by omega)

theorem drainStep_reads {c' : Connection}
    (h : Reads base t c.inbound taken front)
    (ha : front + 1 = base + c.inbound.logical)
    (hstep : c.drainStep = some c') :
    Advances base t taken c.inbound front c'.inbound (front + 1) := by
  unfold drainStep at hstep
  split_ifs at hstep
  cases hget : get c.pendingIn (c.peerLogicalAcked + 1) with
  | none =>
    rw [hget] at hstep
    cases hstep
  | some v =>
    rw [hget] at hstep
    cases hstep
    have hv := (h.stash _ v hget).2
    refine Advances.deliver h ha hv ?_ rfl rfl ?_
    · rw [wrap_succ, ← h.frontier]
      rfl
    · intro k
      simp only [inbound, get_erase]
      by_cases hk : k = c.peerLogicalAcked + 1
      · exact .inr ⟨hk, if_pos hk⟩
      · exact .inl (if_neg hk)

theorem drainLoop_reads (fuel : ℕ) (c : Connection) (front : ℕ)
    (h : Reads base t c.inbound taken front)
    (ha : front + 1 = base + c.inbound.logical) :
    ∃ front', Advances base t taken c.inbound front
      (drainLoop fuel c).inbound front' := by
  induction fuel generalizing c front with
  | zero => exact ⟨front, .refl h ha⟩
  | succ fuel ih =>
    unfold drainLoop
    cases hstep : c.drainStep with
    | none => exact ⟨front, .refl h ha⟩
    | some c' =>
      have hone := drainStep_reads h ha hstep
      obtain ⟨front', hrest⟩ := ih c' _ hone.reads hone.aligned
      exact ⟨front', hone.trans hrest⟩

section

variable (h : Reads base t c.inbound taken front)
  (ha : front + 1 = base + c.inbound.logical)

include h ha

theorem acceptInOrder_reads (hseq : p.seqNr = wrap (front + 1))
    (hp : t.datas[c.peerLogicalAcked]? = some p.payload) :
    ∃ front', Advances base t taken c.inbound front
      (c.acceptInOrder p).inbound front' := by
  unfold acceptInOrder
  split_ifs
  · exact ⟨front, .refl h ha⟩
  · let c₁ : Connection :=
      { c with
        inBuf := c.inBuf ++ p.payload
        peerSeqNrAcked := p.seqNr
        peerLogicalAcked := c.peerLogicalAcked + 1 }
    have hone : Advances base t taken c.inbound front c₁.inbound (front + 1) :=
      .deliver h ha hp hseq rfl rfl fun _ => .inl rfl
    obtain ⟨front', hrest⟩ :=
      drainLoop_reads c₁.pendingIn.length c₁ _ hone.reads hone.aligned
    exact ⟨front', hone.trans hrest⟩

theorem stashAhead_reads {dist : ℕ} (hdist : 0 < dist)
    (hv : t.datas[c.peerLogicalAcked + dist - 1]? = some v) :
    Advances base t taken c.inbound front
      (c.stashAhead dist v).inbound front := by
  unfold stashAhead
  split_ifs
  · refine ⟨⟨h.frontier, h.low, h.high, h.logical, h.stream, ?_⟩, ha,
      Nat.le_refl _, ?_⟩
    · intro k w hk
      simp only [inbound, get_insert] at hk
      split_ifs at hk with heq
      · cases hk
        rw [heq]
        exact ⟨by omega, hv⟩
      · exact h.stash k w hk
    · intro q hq
      rcases hq with hle | ⟨w, hw⟩
      · exact .inl hle
      · right
        simp only [inbound, get_insert]
        by_cases heq : q + 1 - base = c.peerLogicalAcked + dist
        · exact ⟨v, if_pos heq⟩
        · exact ⟨w, (if_neg heq).trans hw⟩
  · exact .refl h ha

theorem receiveData_reads {q : ℕ} (hbound : t.next base ≤ front + 65536)
    (hseq : p.seqNr = wrap q) (hq : base ≤ q)
    (hp : t.datas[q - base]? = some p.payload)
    (hfresh : t.next base ≤ q + 2 ^ 15) :
    ∃ front', Advances base t taken c.inbound front
      (c.receiveData p).inbound front' := by
  have hlt := (List.getElem?_eq_some_iff.1 hp).1
  have hnext : q < t.next base := by
    unfold Track.next
    omega
  have hfront : c.peerSeqNrAcked = wrap front := h.frontier
  have hlogical : front + 1 = base + c.peerLogicalAcked := ha
  have hhigh := h.high
  unfold receiveData
  rw [hseq, hfront]
  rcases Nat.lt_or_ge front q with hahead | hold
  · rw [seqLe, serialLe_of_lt_iff hahead (by omega),
      wrap_sub hahead.le (by omega)]
    split_ifs with hfar hone
    -- A packet half a circle ahead is taken for an old one and dropped.
    · exact ⟨front, .refl h ha⟩
    · refine acceptInOrder_reads h ha (hseq.trans ?_) ?_
      · rw [show q = front + 1 by omega]
      · rw [show c.peerLogicalAcked = q - base by omega]
        exact hp
    · refine ⟨front, stashAhead_reads h ha (by omega) ?_⟩
      rw [show c.peerLogicalAcked + (q - front) - 1 = q - base by omega]
      exact hp
  · rw [seqLe, serialLe_of_le hold (by omega), if_pos rfl]
    exact ⟨front, .refl h ha⟩

end

theorem receiveData_old {q : ℕ} (hfront : c.peerSeqNrAcked = wrap front)
    (hseq : p.seqNr = wrap q) (hq : q ≤ front) (hnear : front - q ≤ 2 ^ 15) :
    c.receiveData p = c := by
  rw [receiveData, hseq, hfront, seqLe, serialLe_of_le hq hnear, if_pos rfl]

end Data

end RustyTorrent.Utp
