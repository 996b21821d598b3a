import RustyTorrent.Peer.Utp.Operations

/-!
# The receive buffers of a connection

DATA that arrives in order goes to the in-order buffer, DATA from further
ahead to the stash, from where `drain_pending_in` moves it behind its
predecessors.  `Received` says what an operation does to the two.

The drain stops at a full window and is started by the arrival of the next
packet only.  What it leaves behind then is at the frontier and stays in the
stash for good (`low_step_iff`).
-/

namespace RustyTorrent.Utp.Connection

open Serial OrdMap Nat

def undeliveredReceiveBytes (c : Connection) : ℕ :=
  c.inBuf.length + OrdMap.total List.length c.pendingIn

/-- How far a packet is ahead of the delivery frontier. -/
def distance (c : Connection) (p : Packet) : ℕ :=
  (p.seqNr - c.peerSeqNrAcked).toNat

/-- A packet that is accepted as the next one in order. -/
def TakesNext (c : Connection) (p : Packet) : Prop :=
  c.matchesIncoming p = true ∧ p.packetType = .data ∧ c.distance p = 1 ∧
    c.inBuf.length < recvWindowBytes

/-- A packet that is accepted into the stash. -/
def Stashes (c : Connection) (p : Packet) : Prop :=
  c.matchesIncoming p = true ∧ p.packetType = .data ∧
    seqLe p.seqNr c.peerSeqNrAcked = false ∧ c.distance p ≠ 1 ∧
    (OrdMap.containsKey c.pendingIn (c.peerLogicalAcked + c.distance p) ||
      decide (c.pendingIn.length < maxPendingIn)) = true

/-- The connection with the next packet in its buffer, before the drain. -/
def delivered (c : Connection) (p : Packet) : Connection :=
  { c with
    inBuf := c.inBuf ++ p.payload
    peerSeqNrAcked := p.seqNr
    peerLogicalAcked := c.peerLogicalAcked + 1 }

/-- What an operation does to the two buffers. -/
inductive Received (c c' : Connection) : Op → Prop where
  | next (p : Packet) (now : ℕ) (d : Connection) (h : c.TakesNext p)
      (hd : d.inbound = (c.delivered p).inbound)
      (hc' : c'.inbound = d.drainPendingIn.inbound) :
      Received c c' (.incoming p now)
  | ahead (p : Packet) (now : ℕ) (h : c.Stashes p)
      (hc' : c'.inbound =
        { c.inbound with
          stash := OrdMap.insert (c.peerLogicalAcked + c.distance p)
            p.payload c.pendingIn }) :
      Received c c' (.incoming p now)
  | other (op : Op)
      (h : ∀ p now, op = .incoming p now → ¬ c.TakesNext p ∧ ¬ c.Stashes p)
      (hbuf : ∃ n, c'.inBuf = c.inBuf.drop n)
      (hlogical : c'.peerLogicalAcked = c.peerLogicalAcked)
      (hstash : c'.pendingIn = c.pendingIn) : Received c c' op

/-! ## One operation -/

variable {c c' : Connection} {p : Packet} {stash : List (ℕ × Bytes)} {first : ℕ}

theorem not_seqLe_of_distance
    (h : c.distance p = 1) : seqLe p.seqNr c.peerSeqNrAcked = false := by
  have hp := p.seqNr.toNat_lt
  have hacked := c.peerSeqNrAcked.toNat_lt
  rw [distance, UInt16.toNat_sub] at h
  rw [seqLe, serialLe, decide_eq_false_iff_not, UInt16.toNat_sub]
  omega

theorem two_le_distance (h : c.Stashes p) :
    2 ≤ c.distance p ∧ c.distance p < 32768 := by
  obtain ⟨-, -, hnew, hne, -⟩ := h
  have hp := p.seqNr.toNat_lt
  have hacked := c.peerSeqNrAcked.toNat_lt
  rw [seqLe, serialLe, decide_eq_false_iff_not, UInt16.toNat_sub] at hnew
  rw [distance, UInt16.toNat_sub] at hne ⊢
  omega

theorem received_of_inbound {op : Op}
    (h : ∀ p now, op = .incoming p now → ¬ c.TakesNext p ∧ ¬ c.Stashes p)
    (hbuf : c'.inBuf = c.inBuf)
    (hlogical : c'.peerLogicalAcked = c.peerLogicalAcked)
    (hstash : c'.pendingIn = c.pendingIn) : Received c c' op :=
  .other op h ⟨0, hbuf⟩ hlogical hstash

/-- A DATA packet, with the receive half of the connection as it was before
its acknowledgements were processed. -/
theorem receiveData_received {c₁ : Connection} (now : ℕ)
    (hin : c₁.inbound = c.inbound) (hmatch : c.matchesIncoming p = true)
    (hdata : p.packetType = .data) :
    Received c (c₁.receiveData p) (.incoming p now) := by
  obtain ⟨hacked, hbuf, hlogical, hstash⟩ := Inbound.mk.inj hin
  have hrefused (hnext : ¬ c.TakesNext p) (hahead : ¬ c.Stashes p) :
      Received c c₁ (.incoming p now) := by
    refine received_of_inbound ?_ hbuf hlogical hstash
    intro q now' heq
    cases heq
    exact ⟨hnext, hahead⟩
  have hdist : (p.seqNr - c₁.peerSeqNrAcked).toNat = c.distance p := by
    rw [hacked, distance]
  unfold receiveData
  rw [hdist, hacked]
  by_cases hold : seqLe p.seqNr c.peerSeqNrAcked = true
  · rw [if_pos hold]
    refine hrefused (fun hnext => ?_) fun hahead => ?_
    · rw [not_seqLe_of_distance hnext.2.2.1] at hold
      cases hold
    · cases hahead.2.2.1.symm.trans hold
  rw [if_neg hold]
  by_cases hone : c.distance p = 1
  · rw [if_pos hone, acceptInOrder, hbuf]
    by_cases hfull : recvWindowBytes ≤ c.inBuf.length
    · rw [if_pos hfull]
      exact hrefused (fun hnext => absurd hnext.2.2.2 (not_lt.mpr hfull))
        fun hahead => hahead.2.2.2.1 hone
    · rw [if_neg hfull]
      refine .next p now _ ⟨hmatch, hdata, hone, not_le.mp hfull⟩ ?_ rfl
      simp only [inbound, delivered, hlogical, hstash]
  · rw [if_neg hone, stashAhead, hlogical, hstash]
    split_ifs with hroom
    · refine .ahead p now ⟨hmatch, hdata, by simpa using hold, hone, hroom⟩ ?_
      simp only [inbound, hacked, hbuf]
    · exact hrefused (fun hnext => hone hnext.2.2.1)
        fun hahead => hroom hahead.2.2.2.2

theorem handleIncoming_received (c : Connection) (p : Packet) (now : ℕ) :
    Received c (c.handleIncoming p now).1 (.incoming p now) := by
  have hother {c' : Connection} (hin : c'.inBuf = c.inBuf ∧
      c'.peerLogicalAcked = c.peerLogicalAcked ∧
      c'.pendingIn = c.pendingIn)
      (h : ¬ (c.matchesIncoming p = true ∧ p.packetType = .data)) :
      Received c c' (.incoming p now) := by
    refine received_of_inbound ?_ hin.1 hin.2.1 hin.2.2
    intro q now' heq
    cases heq
    exact ⟨fun hnext => h ⟨hnext.1, hnext.2.1⟩,
      fun hahead => h ⟨hahead.1, hahead.2.1⟩⟩
  have hin := (processAck_spec c p now).1
  obtain ⟨-, hparts⟩ := Inbound.mk.inj hin
  unfold handleIncoming
  cases hmatch : c.matchesIncoming p with
  | false => exact hother ⟨rfl, rfl, rfl⟩ (by simp [hmatch])
  | true =>
    simp only [Bool.not_true, Bool.false_eq_true, if_false]
    cases hp : p.packetType with
    | reset => exact hother ⟨rfl, rfl, rfl⟩ (by simp [hp])
    | syn => exact hother hparts (by simp [hp])
    | state | fin =>
      dsimp only
      split_ifs <;> exact hother hparts (by simp [hp])
    | data => exact receiveData_received now hin hmatch hp

theorem perform_received (c : Connection) (op : Op) :
    Received c (c.perform op) op := by
  rcases perform_cases c op with ⟨p, now, rfl⟩ | ⟨now, rfl⟩ |
    ⟨hother, -, n, blocks, len, state, flight, heq⟩
  · exact handleIncoming_received c p now
  · obtain ⟨-, hbuf, hlogical, hstash⟩ :=
      Inbound.mk.inj (send_numbers c now).inbound
    exact received_of_inbound (by simp) hbuf hlogical hstash
  · rw [heq]
    exact .other op (fun p now h => absurd h (hother p now)) ⟨n, rfl⟩ rfl rfl

/-! ## The drain -/

theorem drainStep_eq_some (h : c.drainStep = some c') :
    c.inBuf.length < recvWindowBytes ∧
      ∃ buf, get c.pendingIn (c.peerLogicalAcked + 1) = some buf ∧
        c' = { c with
          pendingIn := erase (c.peerLogicalAcked + 1) c.pendingIn
          inBuf := c.inBuf ++ buf
          peerSeqNrAcked := c.peerSeqNrAcked + 1
          peerLogicalAcked := c.peerLogicalAcked + 1 } := by
  unfold drainStep at h
  split_ifs at h with hroom
  split at h
  next => cases h
  next buf hget =>
    cases h
    exact ⟨hroom, buf, hget, rfl⟩

theorem drainStep_eq_none (h : c.drainStep = none) :
    recvWindowBytes ≤ c.inBuf.length ∨
      get c.pendingIn (c.peerLogicalAcked + 1) = none := by
  unfold drainStep at h
  split_ifs at h with hroom
  · split at h
    next hget => exact .inr hget
    next => cases h
  · exact .inl (not_lt.mp hroom)

/-- From `d` to `r` the stash was drained into the in-order buffer. -/
structure Drained (d r : Connection) : Prop where
  logical : d.peerLogicalAcked ≤ r.peerLogicalAcked
  frontier : r.peerSeqNrAcked =
    d.peerSeqNrAcked + wrap (r.peerLogicalAcked - d.peerLogicalAcked)
  get : ∀ k, OrdMap.get r.pendingIn k =
    if d.peerLogicalAcked < k ∧ k ≤ r.peerLogicalAcked then none
    else OrdMap.get d.pendingIn k
  bytes : OrdMap.Ascending d.pendingIn →
    OrdMap.Ascending r.pendingIn ∧
      r.undeliveredReceiveBytes = d.undeliveredReceiveBytes

theorem Drained.refl (d : Connection) : Drained d d :=
  ⟨le_rfl, by simp [wrap], fun k => by rw [if_neg (by omega)],
    fun h => ⟨h, rfl⟩⟩

theorem Drained.step {d d' r : Connection} (hstep : d.drainStep = some d')
    (h : Drained d' r) : Drained d r := by
  obtain ⟨-, buf, hget, rfl⟩ := drainStep_eq_some hstep
  obtain ⟨hlogical, hfrontier, hkeys, hbytes⟩ := h
  dsimp only at hlogical hfrontier hkeys hbytes
  refine ⟨by omega, ?_, fun k => ?_, fun hsorted => ?_⟩
  · rw [hfrontier, UInt16.add_assoc, UInt16.add_comm 1, ← wrap_succ]
    congr 2
    omega
  · rw [hkeys, get_erase]
    by_cases hk : k = d.peerLogicalAcked + 1
    · rw [if_neg (by omega), if_pos hk, if_pos (by omega)]
    · rw [if_neg hk]
      by_cases hin : d.peerLogicalAcked + 1 < k ∧ k ≤ r.peerLogicalAcked
      · rw [if_pos hin, if_pos (by omega)]
      · rw [if_neg hin, if_neg (by omega)]
  · obtain ⟨hascending, htotal⟩ := hbytes (hsorted.erase _)
    have herase := total_erase List.length hsorted hget
    refine ⟨hascending, htotal.trans ?_⟩
    simp only [undeliveredReceiveBytes, List.length_append]
    omega

theorem drained_drainLoop (fuel : ℕ) (d : Connection) :
    Drained d (drainLoop fuel d) := by
  induction fuel generalizing d with
  | zero => exact .refl d
  | succ fuel ih =>
    unfold drainLoop
    cases hstep : d.drainStep with
    | none => exact .refl d
    | some d' => exact .step hstep (ih d')

/-! ## A full window -/

/-- A stash holds `n` packets in a row. -/
def HasRun (stash : List (ℕ × Bytes)) (first n : ℕ) : Prop :=
  ∀ i < n, OrdMap.containsKey stash (first + i) = true

/-- The bytes of `n` packets in a row. -/
def runBytes (stash : List (ℕ × Bytes)) (first : ℕ) : ℕ → ℕ
  | 0 => 0
  | n + 1 => ((OrdMap.get stash first).getD []).length +
      runBytes stash (first + 1) n

instance (stash : List (ℕ × Bytes)) (first n : ℕ) :
    Decidable (HasRun stash first n) :=
  inferInstanceAs (Decidable (∀ i < n, _))

/-- The packets in a row behind the frontier fill the window before the last
of them. -/
def Overfull (c : Connection) : Prop :=
  ∃ n, HasRun c.pendingIn (c.peerLogicalAcked + 1) (n + 1) ∧
    recvWindowBytes ≤
      c.inBuf.length + runBytes c.pendingIn (c.peerLogicalAcked + 1) n

theorem runBytes_erase {k : ℕ} (h : k < first) (n : ℕ) :
    runBytes (erase k stash) first n = runBytes stash first n := by
  induction n generalizing first with
  | zero => rfl
  | succ n ih =>
    rw [runBytes, runBytes, get_erase, if_neg (by omega), ih (by omega)]

theorem hasRun_succ {n : ℕ} : HasRun stash first (n + 1) ↔
      containsKey stash first = true ∧ HasRun stash (first + 1) n := by
  constructor
  · intro h
    refine ⟨h 0 (succ_pos n), fun i hi => ?_⟩
    rw [add_assoc, add_comm 1]
    exact h (i + 1) (succ_lt_succ hi)
  · rintro ⟨hfirst, hrest⟩ i hi
    cases i with
    | zero => exact hfirst
    | succ i =>
      have hnext := hrest i (lt_of_succ_lt_succ hi)
      rwa [add_assoc, add_comm 1] at hnext

theorem hasRun_erase {k : ℕ} (h : k < first) (n : ℕ) :
    HasRun (erase k stash) first n ↔ HasRun stash first n := by
  refine forall₂_congr fun i _ => ?_
  rw [containsKey, containsKey, get_erase, if_neg (by omega)]

theorem overfull_drainStep (h : c.drainStep = some c') :
    c'.Overfull ↔ c.Overfull := by
  obtain ⟨hroom, buf, hget, rfl⟩ := drainStep_eq_some h
  have hhas : containsKey c.pendingIn (c.peerLogicalAcked + 1) =
      true := by
    rw [containsKey, hget]
    rfl
  unfold Overfull
  dsimp only
  constructor
  · rintro ⟨n, hrun, hfull⟩
    rw [hasRun_erase (by omega)] at hrun
    rw [runBytes_erase (by omega), List.length_append] at hfull
    refine ⟨n + 1, hasRun_succ.mpr ⟨hhas, hrun⟩, ?_⟩
    rw [runBytes, hget, Option.getD_some]
    omega
  · rintro ⟨n, hrun, hfull⟩
    cases n with
    | zero => exact absurd hfull (not_le.mpr hroom)
    | succ n =>
      rw [runBytes, hget, Option.getD_some] at hfull
      refine ⟨n, ?_, ?_⟩
      · rw [hasRun_erase (by omega)]
        exact (hasRun_succ.mp hrun).2
      · rw [runBytes_erase (by omega), List.length_append]
        omega

theorem overfull_drainLoop (fuel : ℕ) (c : Connection) :
    (drainLoop fuel c).Overfull ↔ c.Overfull := by
  induction fuel generalizing c with
  | zero => rfl
  | succ fuel ih =>
    unfold drainLoop
    cases hstep : c.drainStep with
    | none => rfl
    | some c' => exact (ih c').trans (overfull_drainStep hstep)

/-- The drain leaves a packet at the frontier exactly if the packets in a row
fill the window. -/
theorem overfull_iff (c : Connection) :
    c.Overfull ↔ containsKey c.drainPendingIn.pendingIn
      (c.drainPendingIn.peerLogicalAcked + 1) = true := by
  rw [← overfull_drainLoop c.pendingIn.length c]
  have hstop := drainStep_eq_none (drainPendingIn_stops c)
  constructor
  · rintro ⟨n, hrun, -⟩
    exact (hasRun_succ.mp hrun).1
  · intro hhas
    rcases hstop with hfull | hnone
    · refine ⟨0, hasRun_succ.mpr ⟨hhas, nofun⟩, hfull⟩
    · rw [containsKey, hnone] at hhas
      cases hhas

end RustyTorrent.Utp.Connection
