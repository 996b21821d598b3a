import RustyTorrent.Peer.Utp.Inputs

/-!
# Cutting blocks into packets

A connection is followed together with the blocks it has accepted and the DATA
packets it has handed out.  Without the copies that are sent again
(`FirstSent`), the payloads handed out and the rest of the block queue are the
accepted bytes (`packetization_faithful`).  The invariant is about the send
half alone: a payload moves from the queue to the packets sent, and a copy has
the number and the payload of a packet sent before (`Packetized`).
-/

namespace RustyTorrent.Utp.Connection

open Serial List

/-- The DATA packets among packets. -/
def dataOf (packets : List Packet) : List Packet :=
  packets.filter fun p => p.packetType = .data

/-- `firsts` are the packets of a log in the order in which they went out
first; any other packet of the log is a copy of an earlier one. -/
inductive FirstSent : List Packet → List Packet → Prop
  | nil : FirstSent [] []
  | first {log firsts : List Packet} (p : Packet) (h : FirstSent log firsts) :
      FirstSent (log ++ [p]) (firsts ++ [p])
  | again {log firsts : List Packet} {p q : Packet} (h : FirstSent log firsts)
      (hq : q ∈ firsts) (hseq : p.seqNr = q.seqNr)
      (hpayload : p.payload = q.payload) : FirstSent (log ++ [p]) firsts

/-- A connection, the blocks it has accepted and the DATA packets it has handed
out. -/
structure Journal where
  conn : Connection
  accepted : List Bytes
  log : List Packet

/-- An operation, or another state of the congestion controller: the window is
of any size when packets are cut. -/
inductive Move where
  | act (op : Op)
  | window (cc : Ledbat)

namespace Journal

def next (j : Journal) : Move → Journal
  | .window cc => { j with conn := { j.conn with cc := cc } }
  | .act op =>
    { conn := j.conn.perform op
      accepted :=
        match op with
        | .enqueue block =>
          if (j.conn.enqueueSendBlock block).2 then j.accepted ++ [block]
          else j.accepted
        | _ => j.accepted
      log :=
        match op with
        | .send now => j.log ++ dataOf (j.conn.pendingSendPackets now).2
        | .tick now => j.log ++ dataOf (j.conn.tick now).2
        | _ => j.log }

def system : System Journal Move := ⟨next, fun _ _ => True⟩

end Journal

/-! ## The send half and what it has sent -/

/-- A send half against the bytes it has accepted and the DATA packets it has
handed out; the first of them was numbered `base`. -/
structure Packetized (base : UInt16) (accepted : Bytes)
    (log firsts : List Packet) (o : Outbound) : Prop where
  order : FirstSent log firsts
  stream : ∃ unsent, Queue o unsent ∧
    firsts.flatMap Packet.payload ++ unsent = accepted
  sizes : ∀ p ∈ firsts, p.payload ≠ [] ∧ p.payload.length ≤ maxDataPayload
  numbers : firsts.map Packet.seqNr =
    (range firsts.length).map fun n => base + wrap n
  next : o.next = base + wrap firsts.length ∨ o.len = 0 ∧ o.state.Ended
  flight : ∀ e ∈ o.flight, e.packet.packetType = .data →
    ∃ q ∈ firsts, e.packet.seqNr = q.seqNr ∧ e.packet.payload = q.payload

variable {base : UInt16} {accepted : Bytes} {log firsts packets : List Packet}
  {o : Outbound} {c c' : Connection} {now : ℕ}

theorem FirstSent.copies (h : FirstSent log firsts)
    (hcopies : ∀ p ∈ packets, ∃ q ∈ firsts, p.seqNr = q.seqNr ∧
      p.payload = q.payload) : FirstSent (log ++ packets) firsts := by
  induction packets generalizing log with
  | nil => rwa [append_nil]
  | cons p packets ih =>
    obtain ⟨q, hq, hseq, hpayload⟩ := hcopies p mem_cons_self
    rw [append_cons]
    exact ih (h.again hq hseq hpayload) fun p' hp' =>
      hcopies p' (mem_cons_of_mem p hp')

namespace Packetized

/-- Packets may leave the flight or be sent again. -/
theorem become (h : Packetized base accepted log firsts o) {state : State}
    (hstate : o.state.Ended → state.Ended) {entries : List InFlight}
    (hsame : ∀ e ∈ entries, ∃ e₀ ∈ o.flight, Same e₀ e) :
    Packetized base accepted log firsts (o.become state entries) := by
  obtain ⟨unsent, hqueue, hsplit⟩ := h.stream
  refine ⟨h.order, ⟨unsent, hqueue.congr rfl rfl rfl, hsplit⟩, h.sizes,
    h.numbers, h.next.imp_right fun hend => ⟨hend.1, hstate hend.2⟩, ?_⟩
  intro e he hdata
  obtain ⟨e₀, he₀, -, ack, hpacket⟩ := hsame e he
  rw [hpacket] at hdata ⊢
  exact h.flight e₀ he₀ hdata

section

variable (h : Packetized base accepted log firsts c.outbound)

include h

theorem resent {state : State} (hstate : c.state.Ended → state.Ended)
    {entries : List InFlight} (hagain : c.Resent entries packets) :
    Packetized base accepted (log ++ dataOf packets) firsts
      (c.outbound.become state entries) := by
  have hentries : ∀ e ∈ entries, ∃ e₀ ∈ c.inFlight, Same e₀ e := by
    intro e he
    obtain ⟨n, hn, rfl⟩ := mem_iff_getElem.mp he
    have hlen := hagain.same.length_eq
    exact ⟨_, getElem_mem (by omega), hagain.same.get (by omega) hn⟩
  have hbecome := h.become hstate hentries
  refine { hbecome with order := h.order.copies fun p hp => ?_ }
  obtain ⟨hp, hdata⟩ := mem_filter.mp hp
  obtain ⟨-, e, he, rfl⟩ := hagain.sent p hp
  exact hbecome.flight e he (of_decide_eq_true hdata)

theorem data {blocks : List Bytes} {head len : ℕ} {payload : Bytes}
    (hnext : c.nextPayload = some (c.cut blocks head len, payload)) :
    let r := (c.cut blocks head len).emit .data payload now
    Packetized base accepted (log ++ [r.2]) (firsts ++ [r.2]) r.1.outbound := by
  intro r
  obtain ⟨unsent, hqueue, hsplit⟩ := h.stream
  obtain ⟨hne, hmax, rest, rfl, hrest⟩ := nextPayload_spec hqueue hnext
  have hnumber : c.nextSeqNr = base + wrap firsts.length := by
    refine h.next.resolve_right fun hend => hne ?_
    have hlen := hend.1.symm.trans hqueue.len_eq
    exact (append_eq_nil_iff.mp (eq_nil_of_length_eq_zero hlen.symm)).1
  refine ⟨h.order.first _, ⟨rest, hrest.congr rfl rfl rfl, ?_⟩, ?_, ?_,
    .inl ?_, ?_⟩
  · simp [← hsplit, r, emit, packet]
  · intro p hp
    rcases mem_append.mp hp with hold | hnew
    · exact h.sizes p hold
    · rw [mem_singleton.mp hnew]
      exact ⟨hne, hmax⟩
  · rw [map_append, h.numbers, length_append, length_singleton, range_succ,
      map_append, map_singleton, map_singleton, ← hnumber]
    rfl
  · rw [length_append, length_singleton, wrap_succ, ← UInt16.add_assoc,
      ← hnumber]
    rfl
  · intro e he hdata
    rcases mem_append.mp he with hold | hnew
    · obtain ⟨q, hq, hsame⟩ := h.flight e hold hdata
      exact ⟨q, mem_append_left _ hq, hsame⟩
    · rw [mem_singleton.mp hnew]
      exact ⟨r.2, mem_append_right _ (mem_singleton_self _), rfl, rfl⟩

theorem sending (hsend : Sending now c packets c') :
    ∃ firsts', Packetized base accepted (log ++ dataOf packets) firsts'
      c'.outbound := by
  induction hsend generalizing log firsts with
  | done => exact ⟨firsts, by rwa [dataOf, filter_nil, append_nil]⟩
  | again hagain _ ih =>
    obtain ⟨firsts', hrest⟩ := ih (h.resent id hagain)
    exact ⟨firsts', by rwa [dataOf, filter_append, ← append_assoc]⟩
  | data _ hnext _ ih =>
    obtain ⟨firsts', hrest⟩ := ih (h.data hnext)
    rw [append_assoc] at hrest
    exact ⟨firsts', hrest⟩
  | fin hwants =>
    simp only [wantsFin, Bool.and_eq_true, decide_eq_true_eq] at hwants
    obtain ⟨⟨hstate, hlen⟩, -⟩ := hwants
    obtain ⟨unsent, hqueue, hsplit⟩ := h.stream
    refine ⟨firsts, ?_, ⟨unsent, hqueue.congr rfl rfl rfl, hsplit⟩, h.sizes,
      h.numbers, .inr ⟨hlen, .inl hstate⟩, ?_⟩
    · simpa [dataOf, emit, packet] using h.order
    · intro e he hdata
      rcases mem_append.mp he with hold | hnew
      · exact h.flight e hold hdata
      · rw [mem_singleton.mp hnew] at hdata
        cases hdata

theorem enqueue {block : Bytes} (hne : block ≠ []) (hopen : ¬ c.state.Ended) :
    Packetized base (accepted ++ block) log firsts
      { c.outbound with
        len := c.outLen + block.length
        blocks := c.outBlocks ++ [block] } := by
  obtain ⟨unsent, hqueue, hsplit⟩ := h.stream
  refine ⟨h.order, ⟨_, hqueue.enqueue hne, ?_⟩, h.sizes, h.numbers,
    .inl (h.next.resolve_right fun hend => hopen hend.2), h.flight⟩
  rw [← append_assoc, hsplit]

end

end Packetized

/-! ## Histories -/

/-- What a journal records fits the send half of its connection. -/
def Journal.Faithful (base : UInt16) (j : Journal) : Prop :=
  ∃ firsts, Packetized base j.accepted.flatten j.log firsts j.conn.outbound

theorem Journal.Faithful.next {j : Journal} (h : j.Faithful base) (m : Move) :
    (j.next m).Faithful base := by
  have hself {entries : List InFlight} : ∀ e ∈ entries,
      ∃ e₀ ∈ entries, Same e₀ e := fun e he => ⟨e, he, .refl e⟩
  obtain ⟨firsts, h⟩ := h
  cases m with
  | window cc => exact ⟨firsts, h⟩
  | act op =>
    cases op with
    | incoming p now =>
      obtain ⟨state, entries, hout, hsub, hstate⟩ :=
        handleIncoming_outbound j.conn p now
      refine ⟨firsts, ?_⟩
      simp only [Journal.next, perform, hout]
      exact h.become hstate fun e he => hself e (hsub.subset he)
    | take max => exact ⟨firsts, h⟩
    | enqueue block =>
      rcases enqueueSendBlock_cases j.conn block with
        ⟨-, heq⟩ | ⟨hne, hopen, heq⟩
      all_goals
        refine ⟨firsts, ?_⟩
        simp only [Journal.next, perform, heq, if_true, Bool.false_eq_true,
          if_false, flatten_concat]
      · exact h
      · exact h.enqueue hne hopen
    | close =>
      refine ⟨firsts, ?_⟩
      simp only [Journal.next, perform]
      unfold close
      split_ifs
      · exact h
      · exact h.become (fun _ => .inl rfl) hself
    | send now => exact h.sending (pendingSendPackets_sending j.conn now)
    | tick now =>
      obtain ⟨state, entries, packets, heq, hagain, hstate⟩ :=
        tick_cases j.conn now
      refine ⟨firsts, ?_⟩
      simp only [Journal.next, perform, heq]
      refine h.resent (fun hended => ?_) hagain
      rcases hstate with rfl | rfl
      · exact hended
      · exact .inr (.inr rfl)

theorem Opens.idle (h : c.Opens now) : Queue c.outbound [] ∧
    ∀ e ∈ c.inFlight, e.packet.packetType ≠ .data := by
  rcases h with ⟨recvId, rfl⟩ | ⟨syn, initSeq, state, h⟩
  · refine ⟨queue_fresh _ rfl rfl rfl, ?_⟩
    simp [newInitiator, Packet.new]
  · unfold newReceiverWithSeq at h
    split_ifs at h
    cases h
    exact ⟨queue_fresh _ rfl rfl rfl, nofun⟩

/-- Packetization keeps the byte stream: whatever a connection was told to do
and whatever its window was, the payloads of its DATA packets in the order of
their first sending, followed by the rest of the block queue, are the bytes it
has accepted. -/
theorem packetization_faithful (hopen : c.Opens now) (moves : List Move) :
    let j := Journal.system.after ⟨c, [], []⟩ moves
    ∃ firsts unsent, FirstSent j.log firsts ∧
      firsts.flatMap Packet.payload ++ unsent = j.accepted.flatten ∧
      unsent = j.conn.outBlocks.flatten.drop j.conn.outHead ∧
      j.conn.outLen = unsent.length ∧
      (∀ b ∈ j.conn.outBlocks.head?, j.conn.outHead < b.length) ∧
      (j.conn.outBlocks = [] → j.conn.outHead = 0) ∧
      (∀ p ∈ firsts, p.payload ≠ [] ∧ p.payload.length ≤ maxDataPayload) ∧
      firsts.map Packet.seqNr =
        (range firsts.length).map fun n => c.nextSeqNr + wrap n := by
  intro j
  obtain ⟨hqueue, hflight⟩ := hopen.idle
  have hstart : Journal.Faithful c.nextSeqNr ⟨c, [], []⟩ :=
    ⟨[], .nil, ⟨[], hqueue, rfl⟩, nofun, rfl, .inl (UInt16.add_zero _).symm,
      fun e he hdata => absurd hdata (hflight e he)⟩
  have hreach : Journal.system.Reach ⟨c, [], []⟩ j :=
    .of_allowed (.of_forall (fun _ _ => trivial) _ moves)
  obtain ⟨firsts, h⟩ := hreach.invariant hstart fun j m h _ => h.next m
  obtain ⟨unsent, hq, hsplit⟩ := h.stream
  exact ⟨firsts, unsent, h.order, hsplit, hq.unsent_eq, hq.len_eq, hq.head,
    hq.idle, h.sizes, h.numbers⟩

/-- Two blocks are sent, and sent again when their timers have run out. -/
def sentTwice : List Move :=
  [.act (.enqueue [1, 2]), .act (.enqueue [3]), .act (.send 0),
    .act (.tick initialRto)]

theorem packetization_faithful_resent :
    ∃ c state, newReceiverWithSeq (Packet.new .syn 7 1 0) 0 100 =
        some (c, state) ∧
      let j := Journal.system.after ⟨c, [], []⟩ sentTwice
      j.log.map Packet.payload = [[1, 2], [3], [1, 2], [3]] ∧
        ∃ firsts unsent, FirstSent j.log firsts ∧
          firsts.flatMap Packet.payload ++ unsent = [1, 2, 3] := by
  obtain ⟨c, state, hopen, hlog, haccepted⟩ :
      ∃ c state, newReceiverWithSeq (Packet.new .syn 7 1 0) 0 100 =
          some (c, state) ∧
        let j := Journal.system.after ⟨c, [], []⟩ sentTwice
        j.log.map Packet.payload = [[1, 2], [3], [1, 2], [3]] ∧
          j.accepted.flatten = [1, 2, 3] :=
    ⟨_, _, rfl, by decide, by decide⟩
  obtain ⟨firsts, unsent, horder, hsplit, -⟩ :=
    packetization_faithful (newReceiverWithSeq_opens hopen) sentTwice
  exact ⟨c, state, hopen, hlog, firsts, unsent, horder,
    hsplit.trans haccepted⟩

end RustyTorrent.Utp.Connection
