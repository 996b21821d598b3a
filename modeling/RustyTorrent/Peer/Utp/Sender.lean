import Mathlib.Data.List.Nodup
import Mathlib.Data.List.TakeWhile
import RustyTorrent.Peer.Utp.Operations

/-!
# The sending half of a connection

`Track` is what a sender has numbered so far, in unbounded positions: the
payloads of its DATA packets, how many FINs came after them, and the packets
in flight with the position of each.  `Sender` ties a track to the send half
of a connection.  Two facts bound how far the sender can run ahead of a packet
still in flight: a selective acknowledgement reaches no further than 513
positions past the cumulative one, and at most 875 packets are in flight
(`Sender.next_le`).  So sixteen bits name every packet in flight.
-/

namespace RustyTorrent.Utp

open Serial Connection List Nat Prod

/-- What a sender has numbered so far. -/
structure Track where
  datas : List Bytes
  fins : ℕ
  flight : List (InFlight × ℕ)

namespace Track

/-- The position of the next packet; the first DATA packet is at `base`. -/
def next (t : Track) (base : ℕ) : ℕ := base + t.datas.length + t.fins

/-- The positions of the packets in flight. -/
def positions (t : Track) : List ℕ := t.flight.map Prod.snd

/-- The packet numbered at a position. -/
def Holds (t : Track) (base p : ℕ) (pk : Packet) : Prop :=
  pk.extensions = [] ∧
  (pk.packetType = .data ∧ base ≤ p ∧
      t.datas[p - base]? = some pk.payload ∨
    pk.packetType = .fin ∧ base + t.datas.length ≤ p ∧ p < t.next base)

theorem Holds.lt_next {t : Track} {base p : ℕ} {pk : Packet}
    (h : t.Holds base p pk) : base ≤ p ∧ p < t.next base := by
  rcases h.2 with ⟨-, hle, hget⟩ | ⟨-, hle, hlt⟩
  · have hlt := (List.getElem?_eq_some_iff.1 hget).1
    unfold next
    omega
  · exact ⟨by omega, hlt⟩

/-- A later track of the same sender: payloads are only added before the first
FIN, and nothing numbered is renumbered. -/
structure Later (t t' : Track) (base : ℕ) : Prop where
  datas : t.datas <+: t'.datas
  fins : 0 < t.fins → t'.datas = t.datas
  next : t.next base ≤ t'.next base

theorem Later.refl (t : Track) (base : ℕ) : t.Later t base :=
  ⟨prefix_refl _, fun _ => rfl, le_refl _⟩

theorem Later.holds {t t' : Track} {base p : ℕ} {pk : Packet}
    (h : t.Later t' base) (hp : t.Holds base p pk) : t'.Holds base p pk := by
  refine ⟨hp.1, ?_⟩
  rcases hp.2 with ⟨htype, hle, hget⟩ | ⟨htype, hle, hlt⟩
  · left
    obtain ⟨hlt, -⟩ := List.getElem?_eq_some_iff.1 hget
    obtain ⟨more, hmore⟩ := h.datas
    refine ⟨htype, hle, ?_⟩
    rw [← hmore, getElem?_append_left hlt]
    exact hget
  · right
    have hfins : 0 < t.fins := by
      unfold Track.next at hlt
      omega
    refine ⟨htype, ?_, hlt.trans_le h.next⟩
    rw [h.fins hfins]
    exact hle

end Track

/-- The send half of a connection against the track of what it has sent. -/
structure Sender (base : ℕ) (o : Outbound) (offered : Bytes) (t : Track) :
    Prop where
  next_eq : o.next = wrap (t.next base)
  stream : ∃ unsent, Queue o unsent ∧ offered = t.datas.flatten ++ unsent
  finished : 0 < t.fins → o.len = 0 ∧ o.state.Ended
  flight_eq : o.flight = t.flight.map Prod.fst
  carried : ∀ x ∈ t.flight,
    x.1.seqNr = wrap x.2 ∧ x.1.packet.seqNr = wrap x.2 ∧
      t.Holds base x.2 x.1.packet
  sorted : t.positions.Pairwise (· < ·)
  near : ∀ p ∈ t.positions, ∀ q, p + 512 < q → q < t.next base →
    q ∈ t.positions
  few : t.flight.length ≤ 875
  few_data : (∀ x ∈ t.flight, x.1.packet.packetType ≠ .fin) →
    t.flight.length ≤ 874

variable {base : ℕ} {o : Outbound} {offered : Bytes} {t : Track}

/-! ## How far ahead a sender can be -/

theorem le_length_of_consecutive {l : List ℕ} {b k : ℕ}
    (h : ∀ i < k, b + i ∈ l) : k ≤ l.length := by
  have hnodup : ((range k).map (b + ·)).Nodup :=
    List.Nodup.map (fun i j hij => add_left_cancel hij) nodup_range
  have hsub : (range k).map (b + ·) ⊆ l := by
    intro q hq
    obtain ⟨i, hi, rfl⟩ := mem_map.1 hq
    exact h i (mem_range.1 hi)
  have hle := (subperm_of_subset hnodup hsub).length_le
  rwa [length_map, length_range] at hle

theorem Sender.position_lt (h : Sender base o offered t) {p : ℕ}
    (hp : p ∈ t.positions) : base ≤ p ∧ p < t.next base := by
  obtain ⟨x, hx, rfl⟩ := mem_map.1 hp
  exact (h.carried x hx).2.2.lt_next

theorem Sender.next_le (h : Sender base o offered t) {p : ℕ}
    (hp : p ∈ t.positions) : t.next base ≤ p + 1388 := by
  by_contra hfar
  have hmany : 876 ≤ t.positions.length := by
    apply le_length_of_consecutive (b := p + 513)
    intro i hi
    exact h.near p hp _ (by omega) (by omega)
  have hfew := h.few
  rw [Track.positions, length_map] at hmany
  omega

/-! ## Taking packets out of flight -/

/-- Packets may leave the flight as long as what stays has no gap beyond the
reach of a selective acknowledgement. -/
theorem Sender.thin (h : Sender base o offered t) {flight : List (InFlight × ℕ)}
    (hsub : flight.Sublist t.flight) {state : State}
    (hstate : o.state.Ended → state.Ended)
    (hnear : ∀ x ∈ flight, ∀ y ∈ t.flight, x.2 + 512 < y.2 → y ∈ flight) :
    Sender base (o.become state (flight.map fst)) offered
      { t with flight := flight } := by
  obtain ⟨unsent, hqueue, hoffered⟩ := h.stream
  refine ⟨h.next_eq, ⟨unsent, hqueue.congr rfl rfl rfl, hoffered⟩, ?_, rfl,
    ?_, ?_, ?_, ?_, ?_⟩
  · intro hfins
    exact ⟨(h.finished hfins).1, hstate (h.finished hfins).2⟩
  · intro x hx
    exact h.carried x (hsub.subset hx)
  · exact h.sorted.sublist (hsub.map snd)
  · intro q hq r hqr hr
    obtain ⟨x, hx, rfl⟩ := mem_map.1 hq
    obtain ⟨y, hy, rfl⟩ :=
      mem_map.1 (h.near x.2 (mem_map_of_mem (hsub.subset hx)) r hqr hr)
    exact mem_map_of_mem (hnear x hx y hy hqr)
  · exact hsub.length_le.trans h.few
  · intro hdata
    by_cases hall : ∀ x ∈ t.flight, x.1.packet.packetType ≠ .fin
    · exact hsub.length_le.trans (h.few_data hall)
    · -- A FIN was in flight and is gone, so at least one packet left.
      have hne : flight ≠ t.flight := by
        rintro rfl
        exact hall hdata
      have hlt : flight.length < t.flight.length := by
        refine lt_of_le_of_ne hsub.length_le fun heq => ?_
        exact hne (hsub.eq_of_length heq)
      exact le_of_lt_succ (hlt.trans_le h.few)

/-- What the acknowledgements of a packet leave in flight, with positions. -/
def remainingAt (p : Packet) (flight : List (InFlight × ℕ)) :
    List (InFlight × ℕ) :=
  let left := flight.dropWhile fun x => seqLe x.1.seqNr p.ackNr
  match sackOf p with
  | none => left
  | some sack => left.filter fun x => !isSacked p.ackNr sack.data x.1.seqNr

theorem map_remainingAt (p : Packet) (flight : List (InFlight × ℕ)) :
    (remainingAt p flight).map fst = remaining p (flight.map fst) := by
  unfold remainingAt remaining
  cases sackOf p with
  | none => simp [dropWhile_map, Function.comp_def]
  | some sack =>
    simp [dropWhile_map, filter_map, Function.comp_def]

theorem remainingAt_sublist (p : Packet) (flight : List (InFlight × ℕ)) :
    (remainingAt p flight).Sublist flight := by
  unfold remainingAt
  cases sackOf p with
  | none => exact (dropWhile_suffix _).sublist
  | some sack =>
    exact filter_sublist.trans (dropWhile_suffix _).sublist

/-- In an ascending list, what comes after an element that `dropWhile` keeps
is kept too. -/
theorem mem_dropWhile_of_lt {α : Type} {l : List (α × ℕ)} {f : α × ℕ → Bool}
    (hl : (l.map snd).Pairwise (· < ·)) {x y : α × ℕ} (hx : x ∈ l.dropWhile f)
    (hy : y ∈ l) (hlt : x.2 < y.2) : y ∈ l.dropWhile f := by
  rw [← takeWhile_append_dropWhile (p := f) (l := l), map_append,
    pairwise_append] at hl
  rw [← takeWhile_append_dropWhile (p := f) (l := l)] at hy
  rcases mem_append.1 hy with hfront | hback
  · have hgt := hl.2.2 y.2 (mem_map_of_mem hfront) x.2 (mem_map_of_mem hx)
    omega
  · exact hback

/-- If an ascending list is dropped at least up to a bound, what is left is
past the bound. -/
theorem lt_of_mem_dropWhile {α : Type} {l : List (α × ℕ)}
    {f : α × ℕ → Bool} {a : ℕ} (hl : (l.map snd).Pairwise (· < ·))
    (hf : ∀ x ∈ l, x.2 ≤ a → f x = true)
    {x : α × ℕ} (hx : x ∈ l.dropWhile f) : a < x.2 := by
  induction l with
  | nil => cases hx
  | cons y l ih =>
    rw [map_cons, pairwise_cons] at hl
    rw [dropWhile_cons] at hx
    split_ifs at hx with hy
    · exact ih hl.2 (fun z hz => hf z (mem_cons_of_mem y hz)) hx
    · have hya : a < y.2 := by
        by_contra hle
        exact hy (hf y mem_cons_self (Nat.le_of_not_lt hle))
      rcases mem_cons.1 hx with rfl | hmem
      · exact hya
      · exact hya.trans (hl.1 x.2 (mem_map_of_mem hmem))

section Acknowledge

variable {p : Packet} {a : ℕ}

section

variable (h : Sender base o offered t) (hack : p.ackNr = wrap a)

include h hack

/-- A packet leaves the flight for an acknowledgement of a position that the
sender is at most half a circle past: it is at or before that position, or
its bit is set. -/
theorem Sender.acknowledged (hfresh : t.next base ≤ a + 2 ^ 15)
    (hmask : ∀ sack ∈ sackOf p, sack.data.length ≤ maxSackBytes)
    {x : InFlight × ℕ} (hx : x ∈ t.flight) :
    x ∈ remainingAt p t.flight ∨ x.2 ≤ a ∨
      ∃ sack n, sackOf p = some sack ∧ maskBit sack.data n = true ∧
        x.2 = a + 2 + n := by
  have hseq := (h.carried x hx).1
  have hlt := (h.position_lt (mem_map_of_mem hx)).2
  by_cases hxa : x.2 ≤ a
  · exact .inr (.inl hxa)
  have hleft : x ∈ t.flight.dropWhile fun x => seqLe x.1.seqNr p.ackNr := by
    rw [← takeWhile_append_dropWhile (p := fun x : InFlight × ℕ =>
      seqLe x.1.seqNr p.ackNr) (l := t.flight)] at hx
    rcases mem_append.1 hx with hfront | hback
    · have hle := mem_takeWhile_imp hfront
      rw [hseq, hack, seqLe, serialLe_of_lt (by omega) (by omega)] at hle
      cases hle
    · exact hback
  unfold remainingAt
  cases hsack : sackOf p with
  | none => exact .inl hleft
  | some sack =>
    cases hbit : isSacked p.ackNr sack.data x.1.seqNr with
    | false =>
      exact .inl (mem_filter.2 ⟨hleft, by rw [hbit]; rfl⟩)
    | true =>
      refine .inr (.inr ⟨sack, x.2 - (a + 2), rfl, ?_⟩)
      have hlen : sack.data.length ≤ 64 := hmask sack hsack
      rw [isSacked_eq, hseq, hack,
        show wrap a + 2 = wrap (a + 2) from (wrap_add a 2).symm] at hbit
      -- The packet right after the acknowledged one has no bit: its
      -- offset would be the last one of the circle.
      have hne : x.2 ≠ a + 1 := by
        intro heq
        rw [heq, wrap_sub_of_lt (by omega) (by omega)] at hbit
        have hbound := lt_of_maskBit hbit
        omega
      rw [wrap_sub (by omega) (by omega)] at hbit
      exact ⟨hbit, by omega⟩

theorem Sender.lt_of_mem_remainingAt (ha : a < t.next base) {x : InFlight × ℕ}
    (hx : x ∈ remainingAt p t.flight) : a < x.2 := by
  have hleft : x ∈ t.flight.dropWhile fun x => seqLe x.1.seqNr p.ackNr := by
    unfold remainingAt at hx
    cases hsack : sackOf p with
    | none => rwa [hsack] at hx
    | some sack =>
      rw [hsack] at hx
      exact (mem_filter.1 hx).1
  refine lt_of_mem_dropWhile h.sorted ?_ hleft
  intro y hy hya
  have hnear := h.next_le (mem_map_of_mem hy)
  rw [(h.carried y hy).1, hack]
  exact serialLe_of_le hya (by omega)

theorem Sender.acknowledge (ha : a < t.next base)
    (hfresh : t.next base ≤ a + 2 ^ 15)
    (hmask : ∀ sack ∈ sackOf p, sack.data.length ≤ maxSackBytes) {state : State}
    (hstate : o.state.Ended → state.Ended) :
    Sender base (o.become state (remaining p o.flight)) offered
      { t with flight := remainingAt p t.flight } := by
  rw [h.flight_eq, ← map_remainingAt]
  refine h.thin (remainingAt_sublist p t.flight) hstate fun x hx y hy hxy => ?_
  have hxa := h.lt_of_mem_remainingAt hack ha hx
  rcases h.acknowledged hack hfresh hmask hy with
    hkept | hle | ⟨sack, n, hsack, hbit, heq⟩
  · exact hkept
  · omega
  · have hlen : sack.data.length ≤ 64 := hmask sack hsack
    have hbound := lt_of_maskBit hbit
    omega

end

theorem Sender.acknowledgeSyn (h : Sender base o offered t)
    (hsack : sackOf p = none) {state : State}
    (hstate : o.state.Ended → state.Ended) :
    Sender base (o.become state (remaining p o.flight)) offered
      { t with flight := remainingAt p t.flight } := by
  rw [h.flight_eq, ← map_remainingAt]
  refine h.thin (remainingAt_sublist p t.flight) hstate fun x hx y hy hxy => ?_
  rw [remainingAt, hsack] at hx ⊢
  exact mem_dropWhile_of_lt h.sorted hx hy (by omega)

end Acknowledge

/-! ## Sending -/

/-- What sending packets does to the track: each packet has the position of a
packet in flight, and each new position is that of a packet sent. -/
structure Sends (base : ℕ) (t t' : Track) (ackNr : UInt16)
    (packets : List Packet) : Prop where
  later : t.Later t' base
  kept : t.positions ⊆ t'.positions
  fresh : ∀ q, t.next base ≤ q → q < t'.next base →
    q ∈ t'.positions ∧
      ∃ p ∈ packets, p.seqNr = wrap q ∧ t'.Holds base q p
  numbered : ∀ p ∈ packets, p.ackNr = ackNr ∧
    ∃ q ∈ t'.positions, p.seqNr = wrap q ∧ t'.Holds base q p

theorem Track.Later.trans {t' t'' : Track}
    (h : t.Later t' base) (h' : t'.Later t'' base) : t.Later t'' base := by
  refine ⟨h.datas.trans h'.datas, fun hfins => ?_, h.next.trans h'.next⟩
  have hdatas := h.fins hfins
  have hfins' : 0 < t'.fins := by
    have hnext := h.next
    unfold Track.next at hnext
    rw [hdatas] at hnext
    omega
  rw [h'.fins hfins', hdatas]

theorem Sends.nil (base : ℕ) (t : Track) (ackNr : UInt16) :
    Sends base t t ackNr [] :=
  ⟨.refl t base, fun _ h => h, fun q h h' => by omega, nofun⟩

variable {ackNr : UInt16}

theorem Sends.append {t' t'' : Track} {ps ps' : List Packet}
    (h : Sends base t t' ackNr ps) (h' : Sends base t' t'' ackNr ps') :
    Sends base t t'' ackNr (ps ++ ps') := by
  refine ⟨h.later.trans h'.later, fun q hq => h'.kept (h.kept hq), ?_, ?_⟩
  · intro q hq hlt
    rcases lt_or_ge q (t'.next base) with hold | hnew
    · obtain ⟨hmem, p, hp, hseq, hholds⟩ := h.fresh q hq hold
      exact ⟨h'.kept hmem, p, mem_append_left _ hp, hseq, h'.later.holds hholds⟩
    · obtain ⟨hmem, p, hp, hseq, hholds⟩ := h'.fresh q hnew hlt
      exact ⟨hmem, p, mem_append_right _ hp, hseq, hholds⟩
  · intro p hp
    rcases mem_append.1 hp with hold | hnew
    · obtain ⟨hack, q, hq, hseq, hholds⟩ := h.numbered p hold
      exact ⟨hack, q, h'.kept hq, hseq, h'.later.holds hholds⟩
    · exact h'.numbered p hnew

theorem Sends.next_le {t' : Track} {ps : List Packet}
    (h : Sends base t t' ackNr ps) (ho : Sender base o offered t') :
    t'.next base ≤ t.next base + 875 := by
  have hmany : t'.next base - t.next base ≤ t'.positions.length := by
    apply le_length_of_consecutive (b := t.next base)
    intro i hi
    exact (h.fresh _ (by omega) (by omega)).1
  have hfew := ho.few
  rw [Track.positions, length_map] at hmany
  omega

section Push

variable {o' : Outbound} {t' : Track}

theorem Sender.push (h : Sender base o offered t)
    (hlater : t.Later t' base) (hnext : t'.next base = t.next base + 1)
    {e : InFlight} (hflight : t'.flight = t.flight ++ [(e, t.next base)])
    (he : e.seqNr = wrap (t.next base) ∧ e.packet.seqNr = wrap (t.next base) ∧
      t'.Holds base (t.next base) e.packet)
    (hnr : o'.next = o.next + 1) (hentries : o'.flight = o.flight ++ [e])
    (hstream : ∃ unsent, Queue o' unsent ∧ offered = t'.datas.flatten ++ unsent)
    (hfin : 0 < t'.fins → o'.len = 0 ∧ o'.state.Ended)
    (hfew : t'.flight.length ≤ 875)
    (hdata : (∀ x ∈ t'.flight, x.1.packet.packetType ≠ .fin) →
      t'.flight.length ≤ 874) :
    Sender base o' offered t' ∧ Sends base t t' e.packet.ackNr [e.packet] := by
  have hpositions : t'.positions = t.positions ++ [t.next base] := by
    simp [Track.positions, hflight]
  have hmem : t.next base ∈ t'.positions := by simp [hpositions]
  refine ⟨⟨?_, hstream, hfin, ?_, ?_, ?_, ?_, hfew, hdata⟩, hlater, ?_, ?_, ?_⟩
  · rw [hnr, h.next_eq, hnext, wrap_succ]
  · rw [hentries, h.flight_eq, hflight, map_append]
    rfl
  · intro x hx
    rw [hflight] at hx
    rcases mem_append.1 hx with hold | hnew
    · obtain ⟨hseq, hpseq, hholds⟩ := h.carried x hold
      exact ⟨hseq, hpseq, hlater.holds hholds⟩
    · rw [mem_singleton.1 hnew]
      exact he
  · rw [hpositions, pairwise_append]
    refine ⟨h.sorted, pairwise_singleton _ _, ?_⟩
    intro p hp q hq
    rw [mem_singleton.1 hq]
    exact (h.position_lt hp).2
  · intro p hp q hpq hq
    rw [hpositions] at hp ⊢
    rw [hnext] at hq
    rcases lt_or_ge q (t.next base) with hlt | hge
    · rcases mem_append.1 hp with hold | hnew
      · exact mem_append_left _ (h.near p hold q hpq hlt)
      · have heq := mem_singleton.1 hnew
        omega
    · exact mem_append_right _ (mem_singleton.2 (by omega))
  · rw [hpositions]
    exact subset_append_left _ _
  · intro q hq hlt
    have heq : q = t.next base := by omega
    rw [heq]
    exact ⟨hmem, e.packet, mem_singleton_self _, he.2⟩
  · intro p hp
    rw [mem_singleton.1 hp]
    exact ⟨rfl, t.next base, hmem, he.2⟩

end Push

namespace Track

/-- The track after one more DATA packet. -/
def addData (t : Track) (base : ℕ) (payload : Bytes) (e : InFlight) :
    Track where
  datas := t.datas ++ [payload]
  fins := t.fins
  flight := t.flight ++ [(e, t.next base)]

/-- The track after one more FIN. -/
def addFin (t : Track) (base : ℕ) (e : InFlight) : Track where
  datas := t.datas
  fins := t.fins + 1
  flight := t.flight ++ [(e, t.next base)]

theorem later_addData (hfins : t.fins = 0) (payload : Bytes) (e : InFlight) :
    t.Later (t.addData base payload e) base := by
  refine ⟨prefix_append _ _, fun hpos => by omega, ?_⟩
  simp only [next, addData, length_append]
  omega

theorem later_addFin (t : Track) (base : ℕ) (e : InFlight) :
    t.Later (t.addFin base e) base := by
  refine ⟨prefix_refl _, fun _ => rfl, ?_⟩
  simp only [next, addFin]
  omega

end Track

namespace Connection

variable {c : Connection}

theorem emit_data_sends (h : Sender base c.outbound offered t)
    (hroom : t.flight.length < 874) {blocks : List Bytes} {head len : ℕ}
    {payload : Bytes}
    (hnext : c.nextPayload = some (c.cut blocks head len, payload)) (now : ℕ) :
    let r := (c.cut blocks head len).emit .data payload now
    ∃ t', Sender base r.1.outbound offered t' ∧
      Sends base t t' c.peerSeqNrAcked [r.2] := by
  intro r
  obtain ⟨unsent, hqueue, hoffered⟩ := h.stream
  obtain ⟨hne, -, rest, hsplit, hqueue'⟩ := nextPayload_spec hqueue hnext
  have hfins : t.fins = 0 := by
    by_contra hpos
    have hlen := hqueue.len_eq
    rw [(h.finished (pos_of_ne_zero hpos)).1, hsplit, length_append] at hlen
    have hpayload := length_pos_of_ne_nil hne
    omega
  let e : InFlight := ⟨c.nextSeqNr, now, initialRto, r.2⟩
  let t' := t.addData base payload e
  have hlater : t.Later t' base := Track.later_addData hfins payload e
  have hnext' : t'.next base = t.next base + 1 := by
    simp only [t', Track.next, Track.addData, length_append, length_singleton]
    omega
  have hnr : c.nextSeqNr = wrap (t.next base) := h.next_eq
  have hpos : t.next base - base = t.datas.length := by
    unfold Track.next
    omega
  have he : e.packet.seqNr = wrap (t.next base) ∧
      t'.Holds base (t.next base) e.packet := by
    refine ⟨hnr, rfl, .inl ⟨rfl, ?_, ?_⟩⟩
    · unfold Track.next
      omega
    · rw [hpos]
      simp [t', Track.addData, e, r, emit, packet]
  have hlen : t'.flight.length = t.flight.length + 1 := length_append
  refine ⟨t', h.push hlater hnext' rfl ⟨hnr, he⟩ rfl rfl
    ⟨rest, hqueue'.congr rfl rfl rfl, ?_⟩
    (fun hpos => absurd hfins (ne_of_gt hpos)) (by omega)
    (fun _ => by omega)⟩
  rw [hoffered, hsplit]
  simp [t', Track.addData]

theorem emit_fin_sends (h : Sender base c.outbound offered t)
    (hwants : c.wantsFin = true) (now : ℕ) :
    let r := c.emit .fin [] now
    ∃ t', Sender base r.1.outbound offered t' ∧
      Sends base t t' c.peerSeqNrAcked [r.2] := by
  intro r
  simp only [wantsFin, Bool.and_eq_true, decide_eq_true_eq,
    Bool.not_eq_true', any_eq_false] at hwants
  obtain ⟨⟨hstate, hlen⟩, hnofin⟩ := hwants
  obtain ⟨unsent, hqueue, hoffered⟩ := h.stream
  let e : InFlight := ⟨c.nextSeqNr, now, initialRto, r.2⟩
  let t' := t.addFin base e
  have hlater : t.Later t' base := t.later_addFin base e
  have hnext : t'.next base = t.next base + 1 := by
    simp only [t', Track.next, Track.addFin]
    omega
  have he : e.packet.seqNr = wrap (t.next base) ∧
      t'.Holds base (t.next base) e.packet := by
    refine ⟨h.next_eq, rfl, .inr ⟨rfl, ?_, by omega⟩⟩
    simp only [t', Track.next, Track.addFin]
    omega
  -- There was no FIN in flight, so there is room for one.
  have hfew : t.flight.length ≤ 874 := by
    refine h.few_data fun x hx htype => hnofin x.1 ?_ htype
    have hflight : c.inFlight = t.flight.map fst := h.flight_eq
    rw [hflight]
    exact mem_map_of_mem hx
  refine ⟨t', h.push hlater hnext rfl ⟨h.next_eq, he⟩ rfl rfl
    ⟨unsent, hqueue.congr rfl rfl rfl, hoffered⟩
    (fun _ => ⟨hlen, .inl hstate⟩) ?_ fun hnone => ?_⟩
  · exact length_append.trans_le (succ_le_succ hfew)
  · refine absurd rfl (hnone (e, t.next base) ?_)
    simp [t', Track.addFin]

/-! ## Writing and closing -/

theorem enqueueSendBlock_sender (h : Sender base c.outbound offered t)
    (block : Bytes) :
    let r := c.enqueueSendBlock block
    Sender base r.1.outbound (if r.2 then offered ++ block else offered) t := by
  unfold enqueueSendBlock
  split_ifs with hended hempty
  · exact h
  · exact h
  · obtain ⟨unsent, hqueue, hoffered⟩ := h.stream
    refine ⟨h.next_eq, ⟨unsent ++ block, ?_, ?_⟩, ?_, h.flight_eq,
      h.carried, h.sorted, h.near, h.few, h.few_data⟩
    · exact (hqueue.enqueue hempty).congr rfl rfl rfl
    · rw [if_pos rfl, hoffered, append_assoc]
    · exact fun hfins => absurd (h.finished hfins).2 hended

theorem close_sender (h : Sender base c.outbound offered t) :
    Sender base c.close.outbound offered t := by
  unfold close
  split_ifs
  · exact h
  · obtain ⟨unsent, hqueue, hoffered⟩ := h.stream
    exact ⟨h.next_eq, ⟨unsent, hqueue.congr rfl rfl rfl, hoffered⟩,
      fun hfins => ⟨(h.finished hfins).1, .inl rfl⟩, h.flight_eq,
      h.carried, h.sorted, h.near, h.few, h.few_data⟩

end Connection

/-! ## Sending again -/

theorem exists_flight {flight : List (InFlight × ℕ)} {entries : List InFlight}
    (h : List.Forall₂ Same (flight.map fst) entries) :
    ∃ flight' : List (InFlight × ℕ), flight'.map fst = entries ∧
      flight'.map snd = flight.map snd ∧
      (∀ y ∈ flight', ∃ x ∈ flight, y.2 = x.2 ∧ Same x.1 y.1) ∧
      ∀ x ∈ flight, ∃ y ∈ flight', Same x.1 y.1 := by
  induction flight generalizing entries with
  | nil =>
    cases h
    exact ⟨[], rfl, rfl, nofun, nofun⟩
  | cons x flight ih =>
    cases h with
    | cons hsame hrest =>
      rename_i e entries
      obtain ⟨flight', hfst, hsnd, hback, hforth⟩ := ih hrest
      refine ⟨(e, x.2) :: flight', by simp [hfst], by simp [hsnd], ?_, ?_⟩
      · intro y hy
        rcases mem_cons.1 hy with rfl | hmem
        · exact ⟨x, mem_cons_self, rfl, hsame⟩
        · obtain ⟨z, hz, hpos, hz'⟩ := hback y hmem
          exact ⟨z, mem_cons_of_mem x hz, hpos, hz'⟩
      · intro z hz
        rcases mem_cons.1 hz with rfl | hmem
        · exact ⟨(e, z.2), mem_cons_self, hsame⟩
        · obtain ⟨y, hy, hy'⟩ := hforth z hmem
          exact ⟨y, mem_cons_of_mem _ hy, hy'⟩

theorem Sender.resend (h : Sender base o offered t) {entries : List InFlight}
    (hsame : List.Forall₂ Same o.flight entries) {packets : List Packet}
    (hpackets : ∀ p ∈ packets, p.ackNr = ackNr ∧ ∃ e ∈ entries, e.packet = p)
    {state : State} (hstate : o.state.Ended → state.Ended) :
    ∃ t', Sender base (o.become state entries) offered t' ∧
      Sends base t t' ackNr packets := by
  rw [h.flight_eq] at hsame
  obtain ⟨flight, hfst, hsnd, hback, hforth⟩ := exists_flight hsame
  have hlength : flight.length = t.flight.length := by
    have hlen := congrArg length hsnd
    rwa [length_map, length_map] at hlen
  let t' : Track := { t with flight := flight }
  have hpositions : t'.positions = t.positions := hsnd
  have hcarried : ∀ y ∈ t'.flight,
      y.1.seqNr = wrap y.2 ∧ y.1.packet.seqNr = wrap y.2 ∧
        t'.Holds base y.2 y.1.packet := by
    intro y hy
    obtain ⟨x, hx, hpos, hseq, ack, hpacket⟩ := hback y hy
    obtain ⟨hxseq, hxpacket, hholds⟩ := h.carried x hx
    rw [hpos, hseq, hpacket]
    exact ⟨hxseq, hxpacket, hholds⟩
  obtain ⟨unsent, hqueue, hoffered⟩ := h.stream
  refine ⟨t', ⟨h.next_eq, ⟨unsent, hqueue.congr rfl rfl rfl, hoffered⟩, ?_,
    hfst.symm, hcarried, ?_, ?_, ?_, ?_⟩,
    ⟨⟨prefix_refl _, fun _ => rfl, Nat.le_refl _⟩, ?_, ?_, ?_⟩⟩
  · exact fun hfins => ⟨(h.finished hfins).1, hstate (h.finished hfins).2⟩
  · rw [hpositions]
    exact h.sorted
  · rw [hpositions]
    exact h.near
  · exact hlength.trans_le h.few
  · intro hdata
    refine hlength.trans_le (h.few_data ?_)
    intro x hx hfin
    obtain ⟨y, hy, -, ack, hpacket⟩ := hforth x hx
    refine hdata y hy ?_
    rw [hpacket]
    exact hfin
  · rw [hpositions]
    exact fun q hq => hq
  · intro q hq hlt
    exact absurd hlt (Nat.not_lt_of_le hq)
  · intro p hp
    obtain ⟨hack, e, he, rfl⟩ := hpackets p hp
    rw [← hfst] at he
    obtain ⟨y, hy, rfl⟩ := mem_map.1 he
    obtain ⟨-, hseq, hholds⟩ := hcarried y hy
    exact ⟨hack, y.2, mem_map_of_mem hy, hseq, hholds⟩

namespace Connection

variable {c c' : Connection} {now : ℕ} {packets : List Packet}

theorem window_le (hcc : c.cc.InBounds) : c.window ≤ 874 := by
  unfold window
  cases h : c.cc.windowPackets with
  | none => decide
  | some n => exact Ledbat.windowPackets_le hcc h

theorem Sending.sends (h : Sending now c packets c') (hcc : c.cc.InBounds)
    (ht : Sender base c.outbound offered t) :
    ∃ t', Sender base c'.outbound offered t' ∧
      Sends base t t' c.peerSeqNrAcked packets := by
  induction h generalizing t with
  | done => exact ⟨t, ht, .nil base t _⟩
  | again hagain _ ih =>
    obtain ⟨t₁, h₁, hsends₁⟩ := ht.resend hagain.same hagain.sent id
    obtain ⟨t₂, h₂, hsends₂⟩ := ih hcc h₁
    exact ⟨t₂, h₂, hsends₁.append hsends₂⟩
  | @data c _ _ _ _ _ _ hroom hnext _ ih =>
    have hlength : c.inFlight.length = t.flight.length := by
      rw [show c.inFlight = _ from ht.flight_eq, length_map]
    have hwindow := window_le hcc
    obtain ⟨t₁, h₁, hsends₁⟩ := emit_data_sends ht (by omega) hnext _
    obtain ⟨t₂, h₂, hsends₂⟩ := ih hcc h₁
    exact ⟨t₂, h₂, hsends₁.append hsends₂⟩
  | fin hwants => exact emit_fin_sends ht hwants _

theorem tick_sends (h : Sender base c.outbound offered t) (now : ℕ) :
    let r := c.tick now
    ∃ t', Sender base r.1.outbound offered t' ∧
      Sends base t t' c.peerSeqNrAcked r.2 := by
  obtain ⟨state, entries, packets, heq, hagain, hstate⟩ := tick_cases c now
  rw [heq]
  refine h.resend hagain.same hagain.sent fun hended => ?_
  rcases hstate with rfl | rfl
  · exact hended
  · exact .inr (.inr rfl)

end Connection

end RustyTorrent.Utp
