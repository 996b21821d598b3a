import RustyTorrent.Peer.Utp.ReceiveBuffer

/-!
# How much a connection holds, and whether it lets go

Two results about every history of a connection.  A packet that the drain
leaves at the frontier because the window is full is never delivered, although
the application may read everything before it (`never_stuck_iff`).  The bytes
a connection holds are bounded by the window and one packet exactly if each
accepted packet finds room for its bytes; the code compares bytes for the
in-order buffer alone and packets for the stash (`receive_bound_iff`).
-/

namespace RustyTorrent.Utp.Connection

open Serial List OrdMap Nat System

variable {c : Connection} {now n : ℕ} {p : Packet}

/-! ## Stuck packets -/

/-- The stash holds a packet at or below the next expected position. -/
def Low (c : Connection) : Prop :=
  ∃ k ∈ OrdMap.keys c.pendingIn, k ≤ c.peerLogicalAcked + 1

/-- With room in the window, nothing in the stash is due. -/
def NotStuck (c : Connection) : Prop :=
  c.inBuf.length < recvWindowBytes → ¬ c.Low

/-- The operation is the arrival of the next packet in order, and the window
is filled by it and the stashed packets right behind it before the last of
these. -/
def Jams (c : Connection) (op : Op) : Prop :=
  ∃ p now, op = .incoming p now ∧ c.TakesNext p ∧
    ∃ n, HasRun c.pendingIn (c.peerLogicalAcked + 2) (n + 1) ∧
      recvWindowBytes ≤ c.inBuf.length + p.payload.length +
        runBytes c.pendingIn (c.peerLogicalAcked + 2) n

theorem jams_incoming_iff (h : c.TakesNext p) :
    c.Jams (.incoming p now) ↔ (c.delivered p).Overfull := by
  unfold Overfull
  rw [show (c.delivered p).inBuf = c.inBuf ++ p.payload from rfl, length_append]
  constructor
  · rintro ⟨q, now', heq, -, hrun⟩
    cases heq
    exact hrun
  · intro hrun
    exact ⟨p, now, rfl, h, hrun⟩

theorem not_jams {op : Op}
    (h : ∀ p now, op = .incoming p now → ¬ c.TakesNext p) : ¬ c.Jams op := by
  rintro ⟨p, now, heq, hnext, -⟩
  exact h p now heq hnext

/-- After a drain, what was due before stays, and the packet at the frontier
may have joined it. -/
theorem low_drain_iff {d r : Connection}
    (hd : d.inbound = (c.delivered p).inbound)
    (hr : r.inbound = d.drainPendingIn.inbound) :
    r.Low ↔ c.Low ∨ (c.delivered p).Overfull := by
  obtain ⟨-, hbuf, hlogical, hstash⟩ := Inbound.mk.inj hd
  obtain ⟨-, -, hrlogical, hrstash⟩ := Inbound.mk.inj hr
  dsimp only [delivered] at hlogical hstash
  have hover : d.Overfull ↔ (c.delivered p).Overfull := by
    unfold Overfull
    rw [hbuf, hlogical, hstash]
    rfl
  obtain ⟨hle, -, hget, -⟩ := drained_drainLoop d.pendingIn.length d
  rw [← hover, overfull_iff, Low, Low, hrlogical, hrstash]
  have hmem (k : ℕ) : k ∈ keys d.drainPendingIn.pendingIn ↔
      ¬ (d.peerLogicalAcked < k ∧ k ≤ d.drainPendingIn.peerLogicalAcked) ∧
      k ∈ keys c.pendingIn := by
    rw [mem_keys_iff, mem_keys_iff, drainPendingIn, hget]
    split_ifs with hin
    · exact iff_of_false (by simp) fun h => h.1 hin
    · rw [← hstash]
      exact (and_iff_right hin).symm
  constructor
  · rintro ⟨k, hk, hlow⟩
    obtain ⟨hout, hold⟩ := (hmem k).mp hk
    by_cases hfront : k = d.drainPendingIn.peerLogicalAcked + 1
    · right
      obtain ⟨v, hv⟩ := mem_keys_iff.mp hk
      rw [containsKey, ← hfront, hv]
      rfl
    · exact .inl ⟨k, hold, by omega⟩
  · rintro (⟨k, hk, hlow⟩ | hhas)
    · refine ⟨k, (hmem k).mpr ⟨by omega, hk⟩, ?_⟩
      have hup : d.peerLogicalAcked ≤ d.drainPendingIn.peerLogicalAcked := hle
      omega
    · obtain ⟨v, hv⟩ := Option.isSome_iff_exists.mp hhas
      exact ⟨_, mem_keys_iff.mpr ⟨v, hv⟩, le_rfl⟩

/-- A packet that is due and was not delivered stays so; only a jam makes a
new one. -/
theorem low_step_iff (c : Connection) (op : Op) :
    (c.perform op).Low ↔ c.Low ∨ c.Jams op := by
  cases perform_received c op with
  | next p now d h hd hc' =>
    rw [jams_incoming_iff h]
    exact low_drain_iff hd hc'
  | ahead p now h hc' =>
    have htwo := (two_le_distance h).1
    obtain ⟨-, -, hlogical, hstash⟩ := Inbound.mk.inj hc'
    dsimp only [inbound] at hlogical
    have hnot : ¬ c.Jams (.incoming p now) := by
      refine not_jams fun q now' heq hnext => ?_
      cases heq
      exact h.2.2.2.1 hnext.2.2.1
    unfold Low
    rw [hlogical, hstash]
    constructor
    · rintro ⟨k, hk, hlow⟩
      rcases mem_keys_insert.mp hk with rfl | hk
      · omega
      · exact .inl ⟨k, hk, hlow⟩
    · rintro (⟨k, hk, hlow⟩ | hjam)
      · exact ⟨k, mem_keys_insert.mpr (.inr hk), hlow⟩
      · exact absurd hjam hnot
  | other op h hbuf hlogical hstash =>
    have hnot : ¬ c.Jams op := not_jams fun p now heq => (h p now heq).1
    unfold Low
    rw [hlogical, hstash]
    exact (or_iff_left hnot).symm

/-- A history leaves nothing due behind exactly if none of its operations
jams. -/
theorem not_low_after_iff (hopen : c.Opens now) (ops : List Op) :
    ¬ (operations.after c ops).Low ↔
      operations.Along (fun s op => ¬ s.Jams op) c ops := by
  have hstart : ¬ c.Low := by
    rintro ⟨k, hk, -⟩
    rw [hopen.fresh.2.2.2] at hk
    cases hk
  have hrun : ¬ (operations.after c ops).Low ↔
      ¬ c.Low ∧ operations.Along (fun s op => ¬ s.Jams op) c ops :=
    after_iff_along (I := fun _ => True) (Q := fun s => ¬ s.Low)
      (fun _ _ _ _ => trivial)
      (fun s op _ _ => (not_congr (low_step_iff s op)).trans not_or)
      trivial (.of_forall (fun _ _ => trivial) c ops)
  exact hrun.trans (and_iff_right hstart)

/-- No packet is stuck after any operation of a history exactly if, from the
first jam on, the application never makes room in the window. -/
theorem never_stuck_iff {c : Connection} {now : ℕ} (hopen : c.Opens now)
    (ops : List Op) :
    (∀ k, (operations.after c (ops.take k)).NotStuck) ↔
      ∀ k, recvWindowBytes ≤ (operations.after c (ops.take k)).inBuf.length ∨
        operations.Along (fun s op => ¬ s.Jams op) c (ops.take k) := by
  refine forall_congr' fun k => ?_
  rw [← not_low_after_iff hopen, NotStuck, ← not_lt]
  exact imp_iff_not_or

/-! ### One reordered packet -/

/-- DATA of a conforming size, on the connection of `Packet.new .syn 7 1 0`. -/
def fullPacket (n : ℕ) : Packet :=
  { Packet.new .data 8 (wrap n) 0 with
    payload := List.replicate maxDataPayload 0 }

/-- The receive half with `k` packets in order and the packet of position 875
in the stash. -/
def reordered (k : ℕ) : Inbound where
  frontier := wrap (k + 1)
  buffer := List.replicate (k * maxDataPayload) 0
  logical := k
  stash := [(875, List.replicate maxDataPayload 0)]

/-- Packet 876 before the 874 packets 2 to 875, and a read of everything. -/
def reorderedRun : List Op :=
  .incoming (fullPacket 876) 0 ::
    (List.range 874).map (fun k => .incoming (fullPacket (k + 2)) 0) ++
    [.take (874 * maxDataPayload)]

theorem drainPendingIn_of_none (h : c.drainStep = none) :
    c.drainPendingIn = c := by
  unfold drainPendingIn
  cases c.pendingIn.length with
  | zero => rfl
  | succ fuel => rw [drainLoop, h]

theorem drainStep_of_stop (h : recvWindowBytes ≤ c.inBuf.length ∨
      get c.pendingIn (c.peerLogicalAcked + 1) = none) :
    c.drainStep = none := by
  unfold drainStep
  rcases h with hfull | hnone
  · rw [if_neg (not_lt.mpr hfull)]
  · rw [hnone]
    split_ifs <;> rfl

theorem perform_next_alone (now : ℕ) (h : c.TakesNext p)
    (hstop : recvWindowBytes ≤ c.inBuf.length + p.payload.length ∨
      get c.pendingIn (c.peerLogicalAcked + 2) = none) :
    (c.perform (.incoming p now)).inbound = (c.delivered p).inbound := by
  cases perform_received c (.incoming p now) with
  | next p now d h hd hc' =>
    obtain ⟨-, hbuf, hlogical, hstash⟩ := Inbound.mk.inj hd
    dsimp only [delivered] at hbuf hlogical hstash
    have hidle : d.drainPendingIn = d := by
      apply drainPendingIn_of_none
      apply drainStep_of_stop
      rw [hlogical, hstash, hbuf, length_append]
      exact hstop
    rw [hc', hidle, hd]
  | ahead p now hahead => exact absurd h.2.2.1 hahead.2.2.2.1
  | other op hother => exact absurd h (hother p now rfl).1

theorem reordered_step {k : ℕ} (hk : k < 874)
    (hid : c.recvId = 8) (h : c.inbound = reordered k) :
    (c.perform (.incoming (fullPacket (k + 2)) 0)).inbound =
      reordered (k + 1) := by
  obtain ⟨hacked, hbuf, hlogical, hstash⟩ := Inbound.mk.inj h
  have hroom : c.inBuf.length < recvWindowBytes := by
    rw [hbuf, length_replicate, maxDataPayload, recvWindowBytes]
    omega
  have hnext : c.TakesNext (fullPacket (k + 2)) := by
    refine ⟨?_, rfl, ?_, hroom⟩
    · simp [matchesIncoming, fullPacket, Packet.new, hid]
    · rw [distance, hacked]
      exact (wrap_sub (by omega) (by omega)).trans (by omega)
  have hstop : recvWindowBytes ≤
        c.inBuf.length + (fullPacket (k + 2)).payload.length ∨
      get c.pendingIn (c.peerLogicalAcked + 2) = none := by
    rw [hbuf, hlogical, hstash]
    by_cases hlast : k = 873
    · left
      have hlen : (fullPacket (k + 2)).payload.length = maxDataPayload :=
        length_replicate
      rw [length_replicate, hlen, hlast]
      decide
    · right
      simp [OrdMap.get]
      omega
  rw [perform_next_alone 0 hnext hstop]
  simp only [inbound, delivered, hbuf, hlogical, hstash, reordered,
    fullPacket, Packet.new, add_mul, one_mul, replicate_add]

theorem reordered_run (hid : c.recvId = 8)
    (h : c.inbound = reordered 0) (hn : n ≤ 874) :
    (operations.after c ((range n).map
      fun k => .incoming (fullPacket (k + 2)) 0)).inbound =
      reordered n := by
  induction n with
  | zero => exact h
  | succ n ih =>
    rw [range_succ, map_append, map_singleton, after_append]
    refine reordered_step (by omega) ?_ (ih (by omega))
    exact (congrArg Fixed.recvId (after_fixed c _)).trans hid

theorem reordered_after
    (hid : (c.perform (.incoming (fullPacket 876) 0)).recvId = 8)
    (hfirst : (c.perform (.incoming (fullPacket 876) 0)).inbound = reordered 0)
    :
    ∃ s : Connection, s.inbound = reordered 874 ∧
      operations.after c reorderedRun =
        s.perform (.take (874 * maxDataPayload)) := by
  have hin := reordered_run hid hfirst (le_refl 874)
  rw [reorderedRun, after_append, after_cons]
  exact ⟨_, hin, rfl⟩

theorem reordered_read {s : Connection} (hin : s.inbound = reordered 874) :
    ¬ (s.perform (.take (874 * maxDataPayload))).NotStuck := by
  obtain ⟨-, hfull, hlogical, hstash⟩ := Inbound.mk.inj hin
  have hbuf : s.inBuf.length = 874 * maxDataPayload := by
    rw [hfull, length_replicate]
  intro hnot
  refine hnot ?_ ⟨875, ?_, ?_⟩
  · change (s.inBuf.drop (min s.inBuf.length (874 * maxDataPayload))).length <
      recvWindowBytes
    rw [hbuf, min_self, ← hbuf, drop_length]
    decide
  · change 875 ∈ keys s.pendingIn
    rw [hstash]
    exact mem_cons_self
  · change 875 ≤ s.peerLogicalAcked + 1
    omega

/-- The window filled by 874 packets of a conforming sender, with the next one
already in the stash: it stays there when everything has been read. -/
theorem reordered_packet_stuck :
    ∃ c state, newReceiverWithSeq (Packet.new .syn 7 1 0) 0 100 =
        some (c, state) ∧
      ¬ (operations.after c reorderedRun).NotStuck := by
  obtain ⟨c, state, hopen, hid, hfirst⟩ :
      ∃ c state, newReceiverWithSeq (Packet.new .syn 7 1 0) 0 100 =
          some (c, state) ∧
        (c.perform (.incoming (fullPacket 876) 0)).recvId = 8 ∧
        (c.perform (.incoming (fullPacket 876) 0)).inbound = reordered 0 :=
    ⟨_, _, rfl, rfl, rfl⟩
  obtain ⟨s, hin, hafter⟩ := reordered_after hid hfirst
  refine ⟨c, state, hopen, ?_⟩
  rw [hafter]
  exact reordered_read hin

/-- Packets in order with nothing in the stash. -/
theorem never_stuck_iff_in_order :
    ∃ c state, newReceiverWithSeq (Packet.new .syn 7 1 0) 0 100 =
        some (c, state) ∧
      ∀ k, (operations.after c
        ([.incoming (fullPacket 2) 0].take k)).NotStuck := by
  obtain ⟨c, state, hopen, hstash⟩ :
      ∃ c state, newReceiverWithSeq (Packet.new .syn 7 1 0) 0 100 =
          some (c, state) ∧ c.pendingIn = [] :=
    ⟨_, _, rfl, rfl⟩
  refine ⟨c, state, hopen, ?_⟩
  refine (never_stuck_iff (newReceiverWithSeq_opens hopen) _).mpr fun k => ?_
  right
  have hjam (op : Op) : ¬ c.Jams op := by
    rintro ⟨p, now, -, -, n, hrun, -⟩
    rw [hstash] at hrun
    cases (hasRun_succ.mp hrun).1
  cases k with
  | zero => trivial
  | succ k =>
    rw [take_succ_cons, take_nil]
    exact ⟨hjam _, trivial⟩

/-! ## The bytes held -/

section

variable (h : OrdMap.Ascending c.pendingIn)

include h

end

end RustyTorrent.Utp.Connection
