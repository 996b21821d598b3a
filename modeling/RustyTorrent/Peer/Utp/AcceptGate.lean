import Mathlib.Data.Set.Card
import RustyTorrent.Peer.Utp.Operations

/-!
# The accept gate

A receiving connection is shown to the application once a packet has
acknowledged a number of the window that begins just before its random token.
The window is an intersection of two comparisons by distance.  It is the
interval from `token - 1` to `next_seq_nr - 1` as soon as one number has been
assigned (`gate_exact_iff`).  Before that it has a second member half a circle
away, and that is the only window a blind sender meets: the application cannot
write before the gate has opened.
-/

namespace RustyTorrent.Utp.Connection

open Serial

variable {c : Connection} {p : Packet}

/-- The packet opens the gate. -/
def Flips (c : Connection) (p : Packet) (now : ℕ) : Prop :=
  c.returnPathConfirmed = false ∧
    (c.handleIncoming p now).1.returnPathConfirmed = true

instance (c : Connection) (p : Packet) (now : ℕ) :
    Decidable (c.Flips p now) :=
  inferInstanceAs (Decidable (_ ∧ _))

/-- The acknowledgements with which a packet other than a SYN opens the
gate. -/
def winning (c : Connection) : Set UInt16 :=
  {a | ∃ p now, p.packetType ≠ .syn ∧ p.ackNr = a ∧ c.Flips p now}

/-! ## What opens the gate -/

theorem processAck_confirmed (c : Connection) (p : Packet) (now : ℕ) :
    (c.processAck p now).returnPathConfirmed = (c.returnPathConfirmed ||
        (p.packetType ≠ .syn && c.ackInTokenWindow p.ackNr)) := by
  unfold processAck
  rw [(reportAcked_spec _ _ _ _).2.2.2, (applySack_spec _ _).2.2.2,
    confirmReturnPath_eq]
  rfl

theorem handleIncoming_confirmed (c : Connection) (p : Packet) (now : ℕ) :
    (c.handleIncoming p now).1.returnPathConfirmed = (c.returnPathConfirmed ||
        (c.matchesIncoming p && p.packetType ≠ .reset &&
          (p.packetType ≠ .syn && c.ackInTokenWindow p.ackNr))) := by
  have hack := processAck_confirmed c p now
  unfold handleIncoming
  cases c.matchesIncoming p with
  | false => simp
  | true =>
    cases hp : p.packetType with
    | reset => simp
    | syn => simpa [hp] using hack
    | state | fin =>
      simp only [Bool.not_true, Bool.false_eq_true, if_false]
      split_ifs <;> simpa [hp] using hack
    | data =>
      simp only [Bool.not_true, Bool.false_eq_true, if_false]
      rw [receiveData_withInbound]
      simpa [hp, withInbound] using hack

theorem flips_iff (hclosed : c.returnPathConfirmed = false) (now : ℕ) :
    c.Flips p now ↔ c.matchesIncoming p = true ∧ p.packetType ≠ .reset ∧
        p.packetType ≠ .syn ∧ c.ackInTokenWindow p.ackNr = true := by
  unfold Flips
  rw [handleIncoming_confirmed, hclosed]
  simp [and_assoc]

theorem not_flips_of_syn (c : Connection) (hsyn : p.packetType = .syn)
    (now : ℕ) : ¬ c.Flips p now := by
  intro h
  exact ((flips_iff h.1 now).mp h).2.2.1 hsyn

theorem perform_confirmed (h : c.returnPathConfirmed = true) (op : Op) :
    (c.perform op).returnPathConfirmed = true := by
  rcases perform_cases c op with ⟨p, now, rfl⟩ | ⟨now, rfl⟩ |
    ⟨-, -, n, blocks, len, state, flight, heq⟩
  · rw [perform, handleIncoming_confirmed, h]
    rfl
  · exact (send_numbers c now).confirmed.trans h
  · rw [heq]
    exact h

/-- While the gate is closed, a value wins exactly if it is in the token
window: a STATE that carries it is enough. -/
theorem mem_winning_iff (hclosed : c.returnPathConfirmed = false)
    (a : UInt16) : a ∈ c.winning ↔ c.ackInTokenWindow a = true := by
  constructor
  · rintro ⟨p, now, -, rfl, h⟩
    exact ((flips_iff hclosed now).mp h).2.2.2
  · intro h
    have hmatch : c.matchesIncoming (Packet.new .state c.recvId 0 a) = true := by
      simp [matchesIncoming, Packet.new]
    exact ⟨Packet.new .state c.recvId 0 a, 0, nofun, rfl,
      (flips_iff hclosed 0).mpr ⟨hmatch, nofun, nofun, h⟩⟩

/-! ## The window -/

/-- The `n + 1` values from `token - 1` to `token + n - 1`. -/
def tokenWindow (token : UInt16) (n : ℕ) : Set UInt16 :=
  {a | ∃ k ≤ n, a = token - 1 + wrap k}

theorem ncard_tokenWindow (token : UInt16) {n : ℕ} (hn : n < 2 ^ 15) :
    (tokenWindow token n).ncard = n + 1 := by
  have himage : tokenWindow token n =
      (fun k => token - 1 + wrap k) '' (Finset.range (n + 1) : Set ℕ) := by
    ext a
    simp [tokenWindow, eq_comm]
  have hinj : Set.InjOn (fun k => token - 1 + wrap k)
      (Finset.range (n + 1) : Set ℕ) := by
    intro k hk l hl heq
    have hk' : k < n + 1 := by simpa using hk
    have hl' : l < n + 1 := by simpa using hl
    have hwrap : wrap k = wrap l := by simpa using heq
    have hnat := congrArg UInt16.toNat hwrap
    rw [wrap_toNat, wrap_toNat] at hnat
    omega
  rw [himage, hinj.ncard_image, Set.ncard_coe_finset, Finset.card_range]

theorem ackInTokenWindow_iff {token : UInt16} {n : ℕ}
    (htoken : c.acceptToken = some token)
    (hnext : c.nextSeqNr = token + wrap n) (hn : n < 2 ^ 15) (a : UInt16) :
    c.ackInTokenWindow a = true ↔
      a ∈ tokenWindow token n ∨ n = 0 ∧ a = token - 1 + wrap 32768 := by
  have hlast : c.nextSeqNr - 1 = token - 1 + wrap n := by
    have htok := token.toNat_lt
    apply UInt16.toNat_inj.1
    rw [hnext]
    simp only [UInt16.toNat_add, UInt16.toNat_sub, wrap_toNat, UInt16.toNat_one]
    omega
  unfold ackInTokenWindow
  rw [htoken]
  dsimp only
  rw [hlast]
  exact serialLe_window_iff (token - 1) a hn

/-- The gate of a receiving connection that has assigned `n` numbers: the
winning values are those of the window and `n + 1` in number, no SYN opens
it, and once open it stays so in every continuation. -/
def GateExact (token : UInt16) (n : ℕ) (c : Connection) : Prop :=
  c.winning = tokenWindow token n ∧ c.winning.ncard = n + 1 ∧
    ∀ ops, (∀ p now, p.packetType = .syn →
        ¬ (operations.after c ops).Flips p now) ∧
      ((operations.after c ops).returnPathConfirmed = true →
        ∀ op, ((operations.after c ops).perform op).returnPathConfirmed =
          true)

theorem gate_exact_iff {syn state : Packet} {now : ℕ} {token : UInt16}
    {c : Connection}
    (hopen : newReceiverWithSeq syn now token = some (c, state))
    (ops : List Op) (hn : assignedIn c ops < 2 ^ 15)
    (hclosed : (operations.after c ops).returnPathConfirmed = false) :
    GateExact token (assignedIn c ops) (operations.after c ops) ↔
      assignedIn c ops ≠ 0 := by
  have hstart : c.acceptToken = some token ∧ c.nextSeqNr = token := by
    unfold newReceiverWithSeq at hopen
    split_ifs at hopen
    cases hopen
    exact ⟨rfl, rfl⟩
  have htoken : (operations.after c ops).acceptToken = some token :=
    (congrArg Fixed.acceptToken (after_fixed c ops)).trans hstart.1
  have hnext := after_next c ops
  rw [hstart.2] at hnext
  have hwins (a : UInt16) := (mem_winning_iff hclosed a).trans
    (ackInTokenWindow_iff htoken hnext hn a)
  constructor
  · rintro ⟨hwindow, -⟩ hzero
    have hfar : token - 1 + wrap 32768 ∈ (operations.after c ops).winning :=
      (hwins _).mpr (.inr ⟨hzero, rfl⟩)
    rw [hwindow, hzero] at hfar
    obtain ⟨k, hk, heq⟩ := hfar
    have hwrap : wrap 32768 = wrap k := by simpa using heq
    rw [Nat.le_zero.mp hk] at hwrap
    exact absurd hwrap (by decide)
  · intro hpos
    have hwindow : (operations.after c ops).winning =
        tokenWindow token (assignedIn c ops) := by
      ext a
      rw [hwins]
      exact or_iff_left fun h => hpos h.1
    refine ⟨hwindow, ?_, fun ops' => ⟨?_, ?_⟩⟩
    · rw [hwindow, ncard_tokenWindow token hn]
    · intro p now hsyn
      exact not_flips_of_syn _ hsyn now
    · intro hconfirmed op
      exact perform_confirmed hconfirmed op

/-- Half a circle past the window of a connection that has sent nothing. -/
theorem far_ack_flips :
    ∃ c state, newReceiverWithSeq (Packet.new .syn 7 1 0) 0 100 =
        some (c, state) ∧
      c.Flips (Packet.new .state 8 0 (99 + 32768)) 0 ∧
      (99 + 32768 : UInt16) ∉ tokenWindow 100 0 := by
  refine ⟨_, _, rfl, by decide, ?_⟩
  rintro ⟨k, hk, heq⟩
  rw [Nat.le_zero.mp hk] at heq
  exact absurd heq (by decide)

/-- One byte written and sent. -/
theorem gate_exact_iff_one_byte :
    ∃ c state, newReceiverWithSeq (Packet.new .syn 7 1 0) 0 100 =
        some (c, state) ∧
      GateExact 100 1 (operations.after c [.enqueue [1], .send 0]) := by
  obtain ⟨c, state, hopen, hcount, hclosed⟩ :
      ∃ c state, newReceiverWithSeq (Packet.new .syn 7 1 0) 0 100 =
          some (c, state) ∧
        assignedIn c [.enqueue [1], .send 0] = 1 ∧
        (operations.after c
          [.enqueue [1], .send 0]).returnPathConfirmed = false :=
    ⟨_, _, rfl, by decide +kernel, by decide +kernel⟩
  refine ⟨c, state, hopen, ?_⟩
  have hexact := (gate_exact_iff hopen [.enqueue [1], .send 0]
    (by rw [hcount]; decide) hclosed).mpr (by rw [hcount]; decide)
  rwa [hcount] at hexact

end RustyTorrent.Utp.Connection
