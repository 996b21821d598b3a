import RustyTorrent.Peer.Utp.ConnectionSpec
import RustyTorrent.Support.Run

/-!
# Histories of one connection

The public operations of `Connection`, in any order and with any arguments.
Sequence numbers are assigned by `pending_send_packets` alone, one for each
packet it puts in flight for the first time (`perform_next`); the identifiers,
the accept token and the deadline stay what the constructor made them
(`perform_fixed`).
-/

namespace RustyTorrent.Utp.Connection

open Serial List

/-- The public operations that change a connection. -/
inductive Op where
  | incoming (p : Packet) (now : ℕ)
  | take (max : ℕ)
  | enqueue (block : Bytes)
  | close
  | send (now : ℕ)
  | tick (now : ℕ)
  deriving DecidableEq, Repr

/-- The connection an operation leaves behind. -/
def perform (c : Connection) : Op → Connection
  | .incoming p now => (c.handleIncoming p now).1
  | .take max => (c.takeReceived max).1
  | .enqueue block => (c.enqueueSendBlock block).1
  | .close => c.close
  | .send now => (c.pendingSendPackets now).1
  | .tick now => (c.tick now).1

/-- A connection under all its operations. -/
def operations : System Connection Op := ⟨perform, fun _ _ => True⟩

/-- A connection as one of the two constructors returns it, at a time. -/
def Opens (c : Connection) (now : ℕ) : Prop :=
  (∃ recvId, c = (newInitiator recvId now).1) ∨
    ∃ syn initSeq state,
      newReceiverWithSeq syn now initSeq = some (c, state)

variable {c : Connection} {now : ℕ}

theorem newReceiverWithSeq_opens {syn state : Packet} {initSeq : UInt16}
    (h : newReceiverWithSeq syn now initSeq = some (c, state)) : c.Opens now :=
  .inr ⟨syn, initSeq, state, h⟩

theorem Opens.fresh (h : c.Opens now) :
    c.deadline = now + hardTimeout ∧ c.isClosed = false ∧ c.inBuf = [] ∧
      c.pendingIn = [] := by
  rcases h with ⟨recvId, rfl⟩ | ⟨syn, initSeq, state, h⟩
  · exact ⟨rfl, rfl, rfl, rfl⟩
  · unfold newReceiverWithSeq at h
    split_ifs at h
    cases h
    exact ⟨rfl, rfl, rfl, rfl⟩

/-! ## What stays -/

/-- What the constructor sets for good. -/
structure Fixed where
  sendId : UInt16
  recvId : UInt16
  acceptToken : Option UInt16
  deadline : ℕ

def fixed (c : Connection) : Fixed :=
  ⟨c.sendId, c.recvId, c.acceptToken, c.deadline⟩

/-- The connection with another receive half. -/
def withInbound (c : Connection) (i : Inbound) : Connection :=
  { c with
    peerSeqNrAcked := i.frontier
    inBuf := i.buffer
    peerLogicalAcked := i.logical
    pendingIn := i.stash }

theorem processAck_fixed (c : Connection) (p : Packet) (now : ℕ) :
    (c.processAck p now).fixed = c.fixed := by
  have hconfirm (c : Connection) : (c.confirmReturnPath p).fixed = c.fixed := by
    unfold confirmReturnPath
    split_ifs <;> rfl
  have hschedule (c : Connection) (mask : Bytes) :
      (c.scheduleFastRtx mask).fixed = c.fixed := by
    unfold scheduleFastRtx
    split_ifs
    · split
      next => rfl
      next => split_ifs <;> rfl
    · rfl
  have hsack (c : Connection) : (c.applySack p).1.fixed = c.fixed := by
    unfold applySack
    cases sackOf p with
    | none => rfl
    | some sack => exact hschedule _ sack.data
  have hreport (c : Connection) (bytes : ℕ) :
      (c.reportAcked p bytes now).fixed = c.fixed := by
    unfold reportAcked
    split_ifs <;> rfl
  unfold processAck
  rw [hreport, hsack, hconfirm]
  rfl

theorem drainLoop_withInbound (fuel : ℕ) (c : Connection) :
    drainLoop fuel c = c.withInbound (drainLoop fuel c).inbound := by
  induction fuel generalizing c with
  | zero => rfl
  | succ fuel ih =>
    unfold drainLoop
    cases hstep : c.drainStep with
    | none => rfl
    | some c' =>
      have hc' : c' = c.withInbound c'.inbound := by
        unfold drainStep at hstep
        split_ifs at hstep
        split at hstep
        next => cases hstep
        next =>
          cases hstep
          rfl
      simp only
      rw [ih c', hc']
      rfl

theorem receiveData_withInbound (c : Connection) (p : Packet) :
    c.receiveData p = c.withInbound (c.receiveData p).inbound := by
  unfold receiveData acceptInOrder stashAhead
  split_ifs
  · rfl
  · rfl
  · exact drainLoop_withInbound _ _
  · rfl
  · rfl

theorem handleIncoming_fixed (c : Connection) (p : Packet) (now : ℕ) :
    (c.handleIncoming p now).1.fixed = c.fixed := by
  have hack := processAck_fixed c p now
  unfold handleIncoming
  split_ifs
  · rfl
  · cases p.packetType with
    | reset => rfl
    | syn => exact hack
    | state | fin =>
      dsimp only
      split_ifs
      · exact hack
      · exact hack
    | data =>
      dsimp only
      rw [receiveData_withInbound]
      exact hack

theorem isClosed_eq_false :
    c.isClosed = false ↔ c.state ≠ .closed ∧ c.state ≠ .reset := by
  simp [isClosed]

/-- The states a packet leads to. -/
theorem state_handleIncoming (c : Connection) (p : Packet) (now : ℕ) :
    let state := (c.handleIncoming p now).1.state
    state = c.state ∨ c.state = .synSent ∧ state = .connected ∨
      p.packetType = .reset ∧ state = .reset ∨
      p.packetType = .fin ∧ state = .closed := by
  have hstate := processAck_state c p now
  unfold handleIncoming
  cases c.matchesIncoming p with
  | false => exact .inl rfl
  | true =>
    simp only [Bool.not_true, Bool.false_eq_true, if_false]
    cases p.packetType with
    | reset => exact .inr (.inr (.inl ⟨rfl, rfl⟩))
    | syn => exact .inl hstate
    | state =>
      dsimp only
      split_ifs with hsyn
      · exact .inr (.inl ⟨hstate.symm.trans hsyn, rfl⟩)
      · exact .inl hstate
    | data =>
      dsimp only
      rw [receiveData_withInbound]
      exact .inl hstate
    | fin =>
      dsimp only
      split_ifs
      · exact .inr (.inr (.inr ⟨rfl, rfl⟩))
      · exact .inl hstate

theorem handleIncoming_open (hopen : c.isClosed = false) {p : Packet}
    (hfin : p.packetType ≠ .fin) (hreset : p.packetType ≠ .reset) (now : ℕ) :
    (c.handleIncoming p now).1.isClosed = false := by
  obtain heq | ⟨-, heq⟩ | ⟨h, -⟩ | ⟨h, -⟩ := state_handleIncoming c p now
  · rwa [isClosed, heq]
  · rw [isClosed, heq]
    rfl
  · exact absurd h hreset
  · exact absurd h hfin

/-! ## Numbering packets -/

/-- From `c` to `c'` a connection has numbered `n` packets and put them in
flight. -/
structure Numbers (c c' : Connection) (n : ℕ) : Prop where
  next : c'.nextSeqNr = c.nextSeqNr + wrap n
  flight : c'.inFlight.length = c.inFlight.length + n
  fixed : c'.fixed = c.fixed
  inbound : c'.inbound = c.inbound
  state : c'.state = c.state
  cc : c'.cc = c.cc
  confirmed : c'.returnPathConfirmed = c.returnPathConfirmed

namespace Numbers

theorem refl (c : Connection) : Numbers c c 0 :=
  ⟨(UInt16.add_zero _).symm, rfl, rfl, rfl, rfl, rfl, rfl⟩

theorem trans {c c' c'' : Connection} {m n : ℕ} (h : Numbers c c' m)
    (h' : Numbers c' c'' n) : Numbers c c'' (m + n) where
  next := by rw [h'.next, h.next, wrap_add, UInt16.add_assoc]
  flight := by rw [h'.flight, h.flight, Nat.add_assoc]
  fixed := h'.fixed.trans h.fixed
  inbound := h'.inbound.trans h.inbound
  state := h'.state.trans h.state
  cc := h'.cc.trans h.cc
  confirmed := h'.confirmed.trans h.confirmed

end Numbers

theorem Sending.numbers {c' : Connection} {packets : List Packet}
    (h : Sending now c packets c') : ∃ n, Numbers c c' n := by
  induction h with
  | done => exact ⟨0, .refl _⟩
  | @again c c' entries _ _ hagain _ ih =>
    have hsame : Numbers c
        { c with fastRtxSeq := none, inFlight := entries } 0 :=
      ⟨(UInt16.add_zero _).symm, hagain.same.length_eq.symm, rfl, rfl, rfl,
        rfl, rfl⟩
    obtain ⟨n, hrest⟩ := ih
    exact ⟨_, hsame.trans hrest⟩
  | @data c c' blocks head len payload _ _ _ _ ih =>
    have hone : Numbers c ((c.cut blocks head len).emit .data payload now).1
        1 := ⟨rfl, length_append, rfl, rfl, rfl, rfl, rfl⟩
    obtain ⟨n, hrest⟩ := ih
    exact ⟨_, hone.trans hrest⟩
  | fin => exact ⟨1, rfl, length_append, rfl, rfl, rfl, rfl, rfl⟩

/-- How many sequence numbers an operation assigns: the packets it puts in
flight for the first time. -/
def assigned (c : Connection) : Op → ℕ
  | .send now => (c.pendingSendPackets now).1.inFlight.length -
      c.inFlight.length
  | _ => 0

/-- How many sequence numbers a history assigns. -/
def assignedIn : Connection → List Op → ℕ
  | _, [] => 0
  | c, op :: ops => c.assigned op + assignedIn (c.perform op) ops

section

variable (c : Connection)

theorem send_numbers (now : ℕ) :
    Numbers c (c.perform (.send now)) (c.assigned (.send now)) := by
  obtain ⟨n, hn⟩ := (pendingSendPackets_sending c now).numbers
  have hcount : c.assigned (.send now) = n := by
    rw [assigned, hn.flight]
    omega
  rw [hcount]
  exact hn

theorem handleIncoming_next (p : Packet) (now : ℕ) :
    (c.handleIncoming p now).1.nextSeqNr = c.nextSeqNr := by
  obtain ⟨state, entries, hout, -⟩ := handleIncoming_outbound c p now
  exact congrArg Outbound.next hout

theorem enqueueSendBlock_eq (block : Bytes) :
    ∃ blocks len, (c.enqueueSendBlock block).1 =
      { c with outBlocks := blocks, outLen := len } := by
  unfold enqueueSendBlock
  split_ifs <;> exact ⟨_, _, rfl⟩

theorem close_eq : ∃ state, c.close = { c with state := state } := by
  unfold close
  split_ifs <;> exact ⟨_, rfl⟩

/-- An operation that neither receives nor sends for the first time reads,
queues, closes or sends again. -/
theorem perform_cases (op : Op) :
    (∃ p now, op = .incoming p now) ∨ (∃ now, op = .send now) ∨
      (∀ p now, op ≠ .incoming p now) ∧ c.assigned op = 0 ∧
        ∃ n blocks len state flight, c.perform op =
            { c with
              inBuf := c.inBuf.drop n
              outBlocks := blocks
              outLen := len
              state := state
              inFlight := flight } := by
  cases op with
  | incoming p now => exact .inl ⟨p, now, rfl⟩
  | send now => exact .inr (.inl ⟨now, rfl⟩)
  | take max =>
    exact .inr (.inr ⟨by simp, rfl, _, _, _, _, _, rfl⟩)
  | enqueue block =>
    obtain ⟨blocks, len, heq⟩ := enqueueSendBlock_eq c block
    exact .inr (.inr ⟨by simp, rfl, 0, blocks, len, _, _, heq⟩)
  | close =>
    obtain ⟨state, heq⟩ := close_eq c
    exact .inr (.inr ⟨by simp, rfl, 0, _, _, state, _, heq⟩)
  | tick now =>
    obtain ⟨state, flight, packets, heq, -⟩ := tick_cases c now
    exact .inr (.inr ⟨by simp, rfl, 0, _, _, state, flight,
      congrArg Prod.fst heq⟩)

theorem perform_fixed (op : Op) : (c.perform op).fixed = c.fixed := by
  rcases perform_cases c op with ⟨p, now, rfl⟩ | ⟨now, rfl⟩ |
    ⟨-, -, n, blocks, len, state, flight, heq⟩
  · exact handleIncoming_fixed c p now
  · exact (send_numbers c now).fixed
  · rw [heq]
    rfl

theorem perform_next (op : Op) :
    (c.perform op).nextSeqNr = c.nextSeqNr + wrap (c.assigned op) := by
  have hzero : c.nextSeqNr = c.nextSeqNr + wrap 0 := (UInt16.add_zero _).symm
  rcases perform_cases c op with ⟨p, now, rfl⟩ | ⟨now, rfl⟩ |
    ⟨-, hnone, n, blocks, len, state, flight, heq⟩
  · exact (handleIncoming_next c p now).trans hzero
  · exact (send_numbers c now).next
  · rw [heq, hnone]
    exact hzero

theorem after_fixed (ops : List Op) :
    (operations.after c ops).fixed = c.fixed := by
  induction ops generalizing c with
  | nil => rfl
  | cons op ops ih => exact (ih (c.perform op)).trans (perform_fixed c op)

theorem after_next (ops : List Op) :
    (operations.after c ops).nextSeqNr =
      c.nextSeqNr + wrap (assignedIn c ops) := by
  induction ops generalizing c with
  | nil => exact (UInt16.add_zero _).symm
  | cons op ops ih =>
    refine (ih (c.perform op)).trans ?_
    rw [perform_next, assignedIn, wrap_add, UInt16.add_assoc]

end

end RustyTorrent.Utp.Connection
