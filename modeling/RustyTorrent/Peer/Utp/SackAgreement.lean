import Mathlib.Data.UInt
import RustyTorrent.Peer.Utp.ReceiveBuffer

/-!
# Agreement on selective acknowledgements

`build_sack` finds the stashed packets by their logical positions,
`process_sack` reads its mask by sequence numbers.  A connection is followed
here together with the sequence numbers its stashed packets came with.  While
these fit the frontier (`Aligned`), the mask names exactly the packets ahead
that are held (`isSacked_iff_reported`).

They fit in every history without a FIN in which no DATA arrives before the
handshake is over (`sack_agrees`).  The STATE that ends the handshake sets the
frontier anew, and what was stashed before it keeps its logical position
(`early_data_misreported`).
-/

namespace RustyTorrent.Utp.Connection

open Serial List Function Inbound

instance (c : Connection) (p : Packet) : Decidable (c.Stashes p) :=
  inferInstanceAs (Decidable (_ ∧ _))

/-- A connection, with the sequence number of the packet that was stashed last
at each logical position. -/
structure Numbered where
  conn : Connection
  number : ℕ → UInt16

namespace Numbered

def next (s : Numbered) (op : Op) : Numbered where
  conn := s.conn.perform op
  number :=
    match op with
    | .incoming p _ =>
      if s.conn.Stashes p then
        Function.update s.number
          (s.conn.peerLogicalAcked + s.conn.distance p) p.seqNr
      else s.number
    | _ => s.number

/-- No FIN is processed, and no DATA before the handshake is over. -/
def Orderly (s : Numbered) : Op → Prop
  | .incoming p _ => s.conn.matchesIncoming p = true →
      p.packetType ≠ .fin ∧ (p.packetType = .data → s.conn.state ≠ .synSent)
  | _ => True

def system : System Numbered Op := ⟨next, Orderly⟩

/-- A packet with the sequence number is in the stash, ahead of what was
delivered. -/
def Holds (s : Numbered) (seqNr : UInt16) : Prop :=
  ∃ k, s.conn.peerLogicalAcked < k ∧
    OrdMap.containsKey s.conn.pendingIn k = true ∧ s.number k = seqNr

/-- A held packet that is 2 to 513 ahead of the frontier. -/
def Reported (s : Numbered) (seqNr : UInt16) : Prop :=
  (∃ n, 2 ≤ n ∧ n ≤ 513 ∧ seqNr = s.conn.peerSeqNrAcked + wrap n) ∧
    s.Holds seqNr

end Numbered

/-! ## Numbers that fit the frontier -/

/-- What is stashed ahead of the frontier has the number of its distance. -/
def Aligned (number : ℕ → UInt16) (i : Inbound) : Prop :=
  ∀ k v, OrdMap.get i.stash k = some v → i.logical < k →
    k < i.logical + 32768 ∧ number k = i.frontier + wrap (k - i.logical)

variable {number : ℕ → UInt16} {i i' : Inbound} {c c' : Connection}
  {p : Packet} {s : Numbered}

/-- The frontier and the logical position move together, and nothing new is
stashed. -/
theorem Aligned.move (h : Aligned number i) (hle : i.logical ≤ i'.logical)
    (hfrontier : i'.frontier = i.frontier + wrap (i'.logical - i.logical))
    (hstash : ∀ k v, OrdMap.get i'.stash k = some v →
      OrdMap.get i.stash k = some v) : Aligned number i' := by
  intro k v hget hk
  obtain ⟨hlt, heq⟩ := h k v (hstash k v hget) (by omega)
  refine ⟨by omega, ?_⟩
  rw [heq, hfrontier, UInt16.add_assoc, ← wrap_add]
  congr 2
  omega

theorem receiveData_frontier
    (h : (c.receiveData p).peerLogicalAcked = c.peerLogicalAcked) :
    (c.receiveData p).peerSeqNrAcked = c.peerSeqNrAcked := by
  unfold receiveData acceptInOrder stashAhead at h ⊢
  split_ifs at h ⊢
  · rfl
  · rfl
  · have hle := (drained_drainLoop c.pendingIn.length (c.delivered p)).logical
    exact absurd (hle.trans h.le) (Nat.not_succ_le_self _)
  · rfl
  · rfl

theorem Aligned.receiveData {c₁ : Connection} (h : Aligned number c.inbound)
    (hin : c₁.inbound = c.inbound) (hmatch : c.matchesIncoming p = true)
    (hdata : p.packetType = .data) :
    Aligned (if c.Stashes p then update number
        (c.peerLogicalAcked + c.distance p) p.seqNr else number)
      (c₁.receiveData p).inbound := by
  have hseq : p.seqNr = c.peerSeqNrAcked + wrap (c.distance p) :=
    eq_add_wrap _ _
  cases receiveData_received 0 hin hmatch hdata with
  | next _ _ d hnext hd hc' =>
    have hdrained := drained_drainLoop d.pendingIn.length d
    have hd' : Aligned number d.inbound := by
      refine h.move ?_ ?_ ?_
      all_goals rw [hd]
      · exact Nat.le_succ _
      · rw [hnext.2.2.1] at hseq
        simpa [delivered, inbound] using hseq
      · exact fun k v hget => hget
    rw [if_neg fun hst => hst.2.2.2.1 hnext.2.2.1, hc']
    refine hd'.move hdrained.logical hdrained.frontier fun k v hget => ?_
    have hleft := (hdrained.get k).symm.trans hget
    split_ifs at hleft
    exact hleft
  | ahead _ _ hst hc' =>
    rw [if_pos hst, hc']
    intro k v hget hk
    rw [OrdMap.get_insert] at hget
    by_cases hkey : k = c.peerLogicalAcked + c.distance p
    · have hfar := two_le_distance hst
      subst hkey
      rw [update_self, hseq]
      refine ⟨?_, ?_⟩
      · simp only [inbound]
        omega
      · simp [inbound]
    · rw [if_neg hkey] at hget
      rw [update_of_ne hkey]
      exact h k v hget hk
  | other _ hno _ hlogical hstash =>
    have hfrontier : (c₁.receiveData p).peerSeqNrAcked = c.peerSeqNrAcked :=
      (receiveData_frontier
        (hlogical.trans (congrArg logical hin).symm)).trans
        (congrArg frontier hin)
    rw [if_neg (hno _ _ rfl).2]
    refine h.move ?_ ?_ ?_
    · exact hlogical.ge
    · simp [inbound, hlogical, hfrontier, wrap]
    · simp [inbound, hstash]

namespace Numbered

/-- What every orderly history keeps. -/
structure Sound (s : Numbered) : Prop where
  aligned : Aligned s.number s.conn.inbound
  waiting : s.conn.state = .synSent → s.conn.pendingIn = []

theorem Sound.keep (h : s.Sound) (hin : c'.inbound = s.conn.inbound)
    (hstate : s.conn.state ≠ .synSent → c'.state ≠ .synSent) :
    Sound ⟨c', s.number⟩ := by
  refine ⟨hin ▸ h.aligned, fun hsyn => ?_⟩
  have hwas : s.conn.state = .synSent := by_contra fun hne => hstate hne hsyn
  exact (congrArg stash hin).trans (h.waiting hwas)

theorem Sound.incoming (h : s.Sound) {now : ℕ}
    (hmay : s.Orderly (.incoming p now)) :
    (s.next (.incoming p now)).Sound := by
  have hkept (hst : ¬ s.conn.Stashes p) : s.next (.incoming p now) =
      ⟨(s.conn.handleIncoming p now).1, s.number⟩ :=
    congrArg (Numbered.mk _) (if_neg hst)
  by_cases hmatch : s.conn.matchesIncoming p = true
  swap
  · rw [hkept fun hst => hmatch hst.1]
    simpa [handleIncoming, hmatch] using h
  by_cases hreset : p.packetType = .reset
  · rw [hkept fun hst => by simp [hst.2.1] at hreset]
    simp only [handleIncoming, hmatch, hreset]
    exact h.keep rfl fun _ => by simp
  obtain ⟨hfin, hdata⟩ := hmay hmatch
  obtain ⟨hin, ⟨state, hout, -, hsyn⟩, -⟩ := handleIncoming_spec hmatch hreset now
  rw [← show _ = state from congrArg Outbound.state hout] at hsyn
  unfold received at hin
  cases hp : p.packetType with
  | reset => exact absurd hp hreset
  | fin => exact absurd hp hfin
  | syn =>
    rw [hkept fun hst => by simp [hst.2.1] at hp]
    rw [hp] at hin
    exact h.keep hin hsyn
  | state =>
    rw [hkept fun hst => by simp [hst.2.1] at hp]
    rw [hp] at hin
    by_cases hwait : s.conn.state = .synSent
    · simp only [if_pos hwait] at hin
      have hnil := (congrArg stash hin).trans (h.waiting hwait)
      refine ⟨fun k v hget => ?_, fun _ => hnil⟩
      simp only [hnil] at hget
      cases hget
    · simp only [if_neg hwait] at hin
      exact h.keep hin hsyn
  | data =>
    rw [hp] at hin
    refine ⟨?_, fun heq => absurd heq (hsyn (hdata hp))⟩
    have hack := (processAck_spec s.conn p now).1
    exact hin ▸ h.aligned.receiveData hack hmatch hp

theorem Sound.next (h : s.Sound) {op : Op} (hmay : s.Orderly op) :
    (s.next op).Sound := by
  cases op with
  | incoming p now => exact h.incoming hmay
  | take max => exact ⟨h.aligned, h.waiting⟩
  | enqueue block =>
    obtain ⟨hin, -, hstate⟩ := enqueueSendBlock_frame s.conn block
    exact h.keep hin fun hne => hstate ▸ hne
  | close =>
    obtain ⟨hin, -, hstate⟩ := close_frame s.conn
    exact h.keep hin hstate
  | send now =>
    have hsent := send_numbers s.conn now
    exact h.keep hsent.inbound fun hne => hsent.state ▸ hne
  | tick now =>
    refine h.keep ?_ ?_
    all_goals
      simp only [perform, tick]
      split_ifs
    · rfl
    · rfl
    · rfl
    · exact id
    · simp
    · exact id

/-- The mask names the held packets that it can reach. -/
theorem isSacked_iff_reported (h : s.Sound) (seqNr : UInt16) :
    isSacked s.conn.peerSeqNrAcked s.conn.sackMask seqNr = true ↔
      s.Reported seqNr := by
  have hbase (n : ℕ) : s.conn.peerSeqNrAcked + wrap (2 + n) =
      s.conn.peerSeqNrAcked + 2 + wrap n := by
    rw [wrap_add, UInt16.add_assoc]
    rfl
  rw [isSacked_eq, (sackMask_spec _).2]
  constructor
  · rintro ⟨hlt, v, hv⟩
    have hseq := eq_add_wrap seqNr (s.conn.peerSeqNrAcked + 2)
    generalize (seqNr - (s.conn.peerSeqNrAcked + 2)).toNat = n at hlt hv hseq
    rw [← hbase] at hseq
    have hahead : s.conn.peerLogicalAcked < s.conn.peerLogicalAcked + 2 + n := by
      omega
    refine ⟨⟨2 + n, by omega, by omega, hseq⟩, _, hahead, ?_, ?_⟩
    · simp [OrdMap.containsKey, hv]
    · rw [(h.aligned _ v hv hahead).2, hseq, Nat.add_assoc]
      simp [inbound]
  · rintro ⟨⟨n, hlow, hhigh, rfl⟩, k, hk, hkey, hnumber⟩
    obtain ⟨v, hv⟩ := Option.isSome_iff_exists.mp hkey
    obtain ⟨hlt, heq⟩ := h.aligned k v hv hk
    simp only [inbound] at hlt heq
    have hdist := add_wrap_inj (heq.symm.trans hnumber) (by omega) (by omega)
    obtain ⟨m, rfl⟩ := Nat.exists_eq_add_of_le hlow
    rw [hbase, add_wrap_sub _ (by omega)]
    refine ⟨by omega, v, ?_⟩
    rwa [show s.conn.peerLogicalAcked + 2 + m = k by omega]

end Numbered

/-- No report means that nothing is held within reach. -/
theorem isSacked_of_none (h : sackOf c.buildStateAck = none) (seqNr : UInt16) :
    isSacked c.peerSeqNrAcked c.sackMask seqNr = false := by
  have hzero : ∀ b ∈ c.sackMask, b = 0 := by
    simp only [sackOf, buildStateAck, packet, buildSack] at h
    split_ifs at h with hnil hall
    · simp [sackMask, hnil, OrdMap.keys]
    · simpa using hall
    · simp at h
  rw [isSacked_eq, Bool.eq_false_iff]
  intro hbit
  obtain ⟨b, hb, htest⟩ := maskBit_eq_true.1 hbit
  rw [hzero b (mem_of_getElem? hb)] at htest
  simp at htest

theorem applySack_buildStateAck (c sender : Connection) :
    (sender.applySack c.buildStateAck).1.inFlight = sender.inFlight.filter
        (fun e => !isSacked c.peerSeqNrAcked c.sackMask e.seqNr) ∧
      (sender.applySack c.buildStateAck).2 = payloadBytes
        (sender.inFlight.filter
          fun e => isSacked c.peerSeqNrAcked c.sackMask e.seqNr) := by
  unfold applySack
  cases hsack : sackOf c.buildStateAck with
  | none => simp [isSacked_of_none hsack, payloadBytes]
  | some sack =>
    dsimp only
    rw [sackOf_buildStateAck hsack]
    exact ⟨congrArg Outbound.flight (scheduleFastRtx_spec _ _).2.1, rfl⟩

/-- In every orderly history the sender takes out of flight what the receiver
holds within the reach of the mask, and nothing else. -/
theorem sack_agrees {c : Connection} {now : ℕ} (hopen : c.Opens now)
    {ops : List Op} (number : ℕ → UInt16)
    (hops : Numbered.system.Allowed ⟨c, number⟩ ops) (sender : Connection) :
    let s := Numbered.system.after ⟨c, number⟩ ops
    let r := sender.applySack s.conn.buildStateAck
    ∃ gone : InFlight → Bool, (∀ e, gone e = true ↔ s.Reported e.seqNr) ∧
      r.1.inFlight = sender.inFlight.filter (fun e => !gone e) ∧
      r.2 = payloadBytes (sender.inFlight.filter gone) ∧
      ∀ e ∈ sender.inFlight, e.seqNr = s.conn.peerSeqNrAcked + 1 →
        e ∈ r.1.inFlight := by
  intro s r
  have hstart : Numbered.Sound ⟨c, number⟩ := by
    have hnil := hopen.fresh.2.2.2
    refine ⟨fun k v hget => ?_, fun _ => hnil⟩
    simp only [inbound, hnil] at hget
    cases hget
  have hsound : s.Sound := (System.Reach.of_allowed hops).invariant hstart
    fun s op hs hmay => hs.next hmay
  obtain ⟨hflight, hbytes⟩ := applySack_buildStateAck s.conn sender
  refine ⟨fun e => isSacked s.conn.peerSeqNrAcked s.conn.sackMask e.seqNr,
    fun e => Numbered.isSacked_iff_reported hsound e.seqNr, hflight, hbytes, ?_⟩
  intro e he hgap
  refine hflight ▸ mem_filter.mpr ⟨he, ?_⟩
  rw [Bool.not_eq_true', Bool.eq_false_iff, Ne,
    Numbered.isSacked_iff_reported hsound]
  rintro ⟨⟨n, hlow, hhigh, heq⟩, -⟩
  have hone := add_wrap_inj (j := 1) (hgap.symm.trans heq) (by omega)
    (by omega)
  omega

/-- A DATA packet of one byte. -/
def letter (id seqNr : UInt16) : Packet :=
  { Packet.new .data id seqNr 0 with payload := [1] }

/-- A sender with one packet in flight. -/
def flying (seqNr : UInt16) : Connection :=
  { (newInitiator 7 0).1 with
    inFlight := [⟨seqNr, 0, initialRto, letter 8 seqNr⟩] }

/-- A packet that overtakes its predecessor. -/
theorem sack_agrees_overtaken :
    ∃ c state, newReceiverWithSeq (Packet.new .syn 7 1 0) 0 100 =
        some (c, state) ∧
      Numbered.system.Allowed ⟨c, 0⟩ [.incoming (letter 8 3) 0] ∧
      let s := Numbered.system.after ⟨c, 0⟩ [.incoming (letter 8 3) 0]
      ((flying 3).applySack s.conn.buildStateAck).1.inFlight = [] ∧
        s.Reported 3 := by
  obtain ⟨c, state, hopen, hstate, hflight⟩ :
      ∃ c state, newReceiverWithSeq (Packet.new .syn 7 1 0) 0 100 =
          some (c, state) ∧ c.state = .connected ∧
        ((flying 3).applySack (c.perform (.incoming (letter 8 3)
          0)).buildStateAck).1.inFlight = [] :=
    ⟨_, _, rfl, rfl, by decide⟩
  have hops : Numbered.system.Allowed ⟨c, 0⟩ [.incoming (letter 8 3) 0] :=
    ⟨fun _ => ⟨by decide, fun _ => by rw [hstate]; decide⟩, trivial⟩
  refine ⟨c, state, hopen, hops, hflight, ?_⟩
  obtain ⟨gone, hgone, hleft, -⟩ :=
    sack_agrees (newReceiverWithSeq_opens hopen) 0 hops (flying 3)
  rw [← hgone ⟨3, 0, initialRto, letter 8 3⟩]
  simpa [flying] using hflight.symm.trans hleft

/-- DATA that overtakes the STATE it belongs after.  The stash holds packet 7
and the report names packet 13. -/
theorem early_data_misreported :
    let s := Numbered.system.after ⟨(newInitiator 7 0).1, 0⟩
      [.incoming (letter 7 7) 0, .incoming (Packet.new .state 7 7 1) 0]
    s.conn.peerSeqNrAcked = 6 ∧ ¬ s.Holds 13 ∧
      ((flying 13).applySack s.conn.buildStateAck).1.inFlight = [] := by
  refine ⟨by decide, ?_, by decide⟩
  rintro ⟨k, -, hkey, hnumber⟩
  have hget : OrdMap.containsKey [(7, ([1] : Bytes))] k = true := hkey
  obtain rfl : k = 7 := by
    by_contra hne
    simp [OrdMap.containsKey, OrdMap.get, hne] at hget
  exact absurd hnumber (by decide)

end RustyTorrent.Utp.Connection
