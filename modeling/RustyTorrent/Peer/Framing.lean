import RustyTorrent.Peer.Message

/-!
# The framing is faithful

`Message.body` is a message without its length prefix.  The encoder puts the
prefix in front of it, the decoder inverts it in both directions, and the two
framed readers give it back whatever the sizes of the single reads.
-/

namespace RustyTorrent.Peer

open List Message Nat

/-! ## Fields -/

variable {p : Bytes} (n : UInt32)

@[simp]
theorem length_be32 : (be32 n).length = 4 :=
  length_toBytesBe 4 _

theorem u32At_append {offset : ℕ} {front : Bytes}
    (h : front.length = offset) (n : UInt32) (rest : Bytes) :
    u32At offset (front ++ (be32 n ++ rest)) = n := by
  have hlt : n.toNat < 256 ^ 4 := n.toNat_lt
  rw [u32At, ← h, drop_left, ← length_be32 n, take_left, be32,
    ofBytesBe_toBytesBe, mod_eq_of_lt hlt, UInt32.ofNat_toNat]

@[simp]
theorem u32At_zero (rest : Bytes) : u32At 0 (be32 n ++ rest) = n :=
  u32At_append length_nil n rest

@[simp]
theorem u32At_be32 : u32At 0 (be32 n) = n := by
  have h := u32At_zero n []
  rwa [append_nil] at h

@[simp]
theorem u32At_four (i n : UInt32) (rest : Bytes) :
    u32At 4 (be32 i ++ (be32 n ++ rest)) = n :=
  u32At_append (length_be32 i) n rest

@[simp]
theorem u32At_eight (i b n : UInt32) :
    u32At 8 (be32 i ++ (be32 b ++ be32 n)) = n := by
  have hlen : (be32 i ++ be32 b).length = 8 := by simp
  have h := u32At_append hlen n []
  rwa [append_nil, append_assoc] at h

@[simp]
theorem drop_eight_be32 (i b : UInt32) (rest : Bytes) :
    (be32 i ++ (be32 b ++ rest)).drop 8 = rest := by
  have hlen : (be32 i ++ be32 b).length = 8 := by simp
  rw [← append_assoc, ← hlen, drop_left]

theorem be32_u32At {offset : ℕ} (h : offset + 4 ≤ p.length) :
    be32 (u32At offset p) = (p.drop offset).take 4 := by
  have hlen : ((p.drop offset).take 4).length = 4 := by
    rw [length_take, length_drop]
    omega
  have hlt := ofBytesBe_lt ((p.drop offset).take 4)
  have hback := toBytesBe_ofBytesBe ((p.drop offset).take 4)
  rw [hlen] at hlt hback
  have hvalue : (u32At offset p).toNat =
      ofBytesBe ((p.drop offset).take 4) := by
    rw [u32At, UInt32.toNat_ofNat']
    exact mod_eq_of_lt hlt
  rw [be32, hvalue, hback]

theorem be32_u32At_four (h : p.length = 4) : be32 (u32At 0 p) = p := by
  rw [be32_u32At (by omega), drop_zero, take_of_length_le (by omega)]

theorem be32_u32At_eight (h : 8 ≤ p.length) :
    be32 (u32At 0 p) ++ be32 (u32At 4 p) ++ p.drop 8 = p := by
  have hsplit : (p.drop 4).take 4 ++ p.drop 8 = p.drop 4 := by
    rw [← drop_drop (i := 4) (j := 4) (l := p)]
    exact take_append_drop 4 (p.drop 4)
  rw [be32_u32At (by omega), be32_u32At (by omega), drop_zero,
    append_assoc, hsplit, take_append_drop]

theorem be32_u32At_twelve (h : p.length = 12) :
    be32 (u32At 0 p) ++ be32 (u32At 4 p) ++ be32 (u32At 8 p) = p := by
  have hlast : be32 (u32At 8 p) = p.drop 8 := by
    rw [be32_u32At (by omega), take_of_length_le (by simp [h])]
  rw [hlast]
  exact be32_u32At_eight (by omega)

/-! ## Bodies -/

namespace Message

/-- The identifier and the payload of a message. -/
def body : Message → Bytes
  | .keepAlive => []
  | .choke => [idChoke]
  | .unchoke => [idUnchoke]
  | .interested => [idInterested]
  | .notInterested => [idNotInterested]
  | .have_ i => idHave :: be32 i
  | .bitfield b => idBitfield :: b
  | .request i b l => idRequest :: (be32 i ++ be32 b ++ be32 l)
  | .piece i b data => idPiece :: (be32 i ++ be32 b ++ data)
  | .cancel i b l => idCancel :: (be32 i ++ be32 b ++ be32 l)
  | .extended e payload => idExtended :: e :: payload
  | .haveAll => [idHaveAll]
  | .haveNone => [idHaveNone]
  | .rejectRequest i b l => idReject :: (be32 i ++ be32 b ++ be32 l)
  | .allowedFast i => idAllowedFast :: be32 i
  | .suggestPiece i => idSuggest :: be32 i

theorem tag_eq (id : UInt8) (payload : Bytes) :
    tag id payload = writeFrame (id :: payload) := by
  rw [tag, writeFrame, length_cons, add_comm]

theorem encode_eq (m : Message) : m.encode = writeFrame m.body := by
  cases m with
  | keepAlive => rfl
  | _ => exact tag_eq _ _

theorem ensureEmpty_eq_ok {p : Bytes} {msg m : Message}
    (h : ensureEmpty p msg = .ok m) : p = [] ∧ m = msg := by
  unfold ensureEmpty at h
  split at h
  next hp => exact ⟨hp, (Except.ok.inj h).symm⟩
  next => cases h

theorem decode_body (m : Message) : decode m.body = .ok m := by
  cases m <;>
    simp +arith [body, decode, ensureEmpty, decodeIndexBeginLength, idChoke,
      idUnchoke, idInterested, idNotInterested, idHave, idBitfield,
      idRequest, idPiece, idCancel, idExtended, idSuggest, idHaveAll,
      idHaveNone, idReject, idAllowedFast]

theorem decodeIndexBeginLength_eq_ok {p : Bytes} {id : UInt8} {m : Message}
    (hid : id = idRequest ∨ id = idCancel)
    (h : decodeIndexBeginLength p id = .ok m) : m.body = id :: p := by
  unfold decodeIndexBeginLength at h
  split at h
  next => cases h
  next hlen =>
    have hp := be32_u32At_twelve (Decidable.not_not.mp hlen)
    split at h
    next hcancel =>
      cases h
      rw [hcancel, body, hp]
    next hother =>
      cases h
      rw [hid.resolve_right hother, body, hp]

/-- Every frame that is accepted is the body of the message it is decoded
to. -/
theorem body_of_decode {frame : Bytes} {m : Message}
    (h : decode frame = .ok m) : m.body = frame := by
  revert h
  -- The cases are the branches of the decoder in its order.
  fun_cases decode frame with
  | case1 | case8 | case14 =>
    intro h
    cases h
    rfl
  | case2 | case3 | case4 | case5 | case15 | case16 =>
    intro h
    obtain ⟨rfl, rfl⟩ := ensureEmpty_eq_ok h
    rfl
  | case7 p hlen | case20 p hlen =>
    intro h
    cases h
    rw [body, be32_u32At_four (Decidable.not_not.mp hlen)]
  | case9 p => exact decodeIndexBeginLength_eq_ok (Or.inl rfl)
  | case11 p hlen =>
    intro h
    cases h
    rw [body, be32_u32At_eight (not_lt.mp hlen)]
  | case12 p => exact decodeIndexBeginLength_eq_ok (Or.inr rfl)
  | case18 p hlen =>
    intro h
    cases h
    rw [body, be32_u32At_twelve (Decidable.not_not.mp hlen)]
  | case21 id p _ _ _ _ _ _ _ _ _ _ _ _ _ hid hlen hother =>
    intro h
    cases h
    rw [hid.resolve_left hother, body,
      be32_u32At_four (Decidable.not_not.mp hlen)]
  | _ =>
    intro h
    cases h

end Message

theorem writeMessage_eq (m : Message) : writeMessage m = m.encode := by
  cases m with
  | piece index begin_ data =>
    have hlen : 1 + (be32 index ++ be32 begin_ ++ data).length =
        1 + 8 + data.length := by
      simp only [length_append, length_be32]
      omega
    rw [writeMessage, encode, tag, hlen]
    simp
  | _ => rfl

/-! ## Reading frames -/

theorem Reader.readExact_append {r : Reader} {b rest : Bytes}
    (h : r.bytes = b ++ rest) :
    ∃ r' : Reader, r.readExact b.length = .ok (b, r') ∧ r'.bytes = rest := by
  obtain ⟨left, hread, hleft⟩ := ByteStream.readExact_append h
  exact ⟨{ r with chunks := left }, by rw [readExact, hread], hleft⟩

section Frames

variable {r : Reader} {body rest : Bytes} {maxLen : ℕ}

theorem readExact_frame (hbody : body.length < 2 ^ 32)
    (h : r.bytes = writeFrame body ++ rest) :
    ∃ (lenBuf : Bytes) (r' : Reader), r.readExact 4 = .ok (lenBuf, r') ∧
      ofBytesBe lenBuf = body.length ∧ r'.bytes = body ++ rest := by
  rw [writeFrame, append_assoc] at h
  obtain ⟨r', hread, hbytes⟩ := Reader.readExact_append h
  rw [length_toBytesBe] at hread
  refine ⟨_, r', hread, ?_, hbytes⟩
  rw [ofBytesBe_toBytesBe]
  exact mod_eq_of_lt hbody

theorem readFrameInto_of_le (hbody : body.length < 2 ^ 32)
    (hmax : body.length ≤ maxLen) (h : r.bytes = writeFrame body ++ rest)
    (buf : Bytes) :
    ∃ r' : Reader, readFrameInto r maxLen buf = .ok (body, r') ∧
      r'.bytes = rest := by
  obtain ⟨lenBuf, r₁, hlen, hval, hbytes⟩ := readExact_frame hbody h
  by_cases hzero : body.length = 0
  · have hnil : body = [] := eq_nil_of_length_eq_zero hzero
    refine ⟨r₁, ?_, by simpa [hnil] using hbytes⟩
    simp [readFrameInto, hlen, hval, hnil]
  · obtain ⟨r₂, hread, hrest⟩ := Reader.readExact_append hbytes
    refine ⟨r₂, ?_, hrest⟩
    simp [readFrameInto, hlen, hval, hread, hzero, not_lt.2 hmax]

theorem readFrameInto_of_lt (hbody : body.length < 2 ^ 32)
    (hmax : maxLen < body.length) (h : r.bytes = writeFrame body ++ rest)
    (buf : Bytes) :
    readFrameInto r maxLen buf =
      .error (.failed (.network s!"frame too large: {body.length}")) := by
  obtain ⟨lenBuf, r₁, hlen, hval, -⟩ := readExact_frame hbody h
  simp [readFrameInto, hlen, hval, hmax]

end Frames

/-- The two readers differ only in the order of two checks that exclude each
other. -/
theorem readFrame_eq (r : Reader) (maxLen : ℕ) (buf : Bytes) :
    readFrame r maxLen = readFrameInto r maxLen buf := by
  unfold readFrame readFrameInto
  cases r.readExact 4 with
  | error s => rfl
  | ok res =>
    obtain ⟨lenBuf, r'⟩ := res
    dsimp only
    by_cases hzero : ofBytesBe lenBuf = 0 <;> simp [hzero]

/-! ## Reading a stream of messages -/

/-- A number of rounds of `read_frame_into` and `decode` on one buffer. -/
def readMessages (maxLen : ℕ) :
    ℕ → Reader → Bytes → Except FrameError (List Message × Reader)
  | 0, r, _ => .ok ([], r)
  | n + 1, r, buf =>
    match readFrameInto r maxLen buf with
    | .error e => .error e
    | .ok (frame, r) =>
      match Message.decode frame with
      | .error e => .error (.failed e)
      | .ok msg =>
        match readMessages maxLen n r frame with
        | .error e => .error e
        | .ok (msgs, r) => .ok (msg :: msgs, r)

theorem readMessages_written {maxLen : ℕ} (hmax : maxLen < 2 ^ 32)
    {msgs : List Message} (hmsgs : ∀ m ∈ msgs, m.body.length ≤ maxLen)
    {r : Reader} (h : r.bytes = msgs.flatMap writeMessage) (buf : Bytes) :
    ∃ r' : Reader, readMessages maxLen msgs.length r buf = .ok (msgs, r') ∧
        r'.bytes = [] := by
  induction msgs generalizing r buf with
  | nil => exact ⟨r, rfl, h⟩
  | cons m msgs ih =>
    have hm := hmsgs m (by simp)
    rw [flatMap_cons, writeMessage_eq, encode_eq] at h
    obtain ⟨r₁, hread, hrest⟩ :=
      readFrameInto_of_le (by omega) hm h buf
    obtain ⟨r₂, hmore, hend⟩ :=
      ih (fun m' hm' => hmsgs m' (by simp [hm'])) hrest m.body
    refine ⟨r₂, ?_, hend⟩
    simp only [length_cons, readMessages, hread, decode_body, hmore]

/-- What is written is read back message by message for every split of the
stream into reads and whatever the reused buffer holds; the two readers agree;
the pass for pieces writes what the encoder does; and an accepted frame
re-encodes to itself. -/
theorem messages_roundTrip :
    (∀ (maxLen : ℕ) (msgs : List Message) (r : Reader) (buf : Bytes),
      maxLen < 2 ^ 32 → (∀ m ∈ msgs, m.encode.length ≤ 4 + maxLen) →
      r.bytes = msgs.flatMap writeMessage → ∃ r' : Reader,
          readMessages maxLen msgs.length r buf = .ok (msgs, r') ∧
            r'.bytes = []) ∧
    (∀ (r : Reader) (maxLen : ℕ) (buf : Bytes),
      readFrame r maxLen = readFrameInto r maxLen buf) ∧
    (∀ m : Message, writeMessage m = m.encode) ∧
    ∀ (frame : Bytes) (m : Message), Message.decode frame = .ok m →
      m.encode = writeFrame frame := by
  refine ⟨?_, readFrame_eq, writeMessage_eq, ?_⟩
  · intro maxLen msgs r buf hmax hmsgs h
    apply readMessages_written hmax _ h
    intro m hm
    have hlen := hmsgs m hm
    rw [Message.encode_eq, writeFrame, length_append, length_toBytesBe] at hlen
    omega
  · intro frame m h
    rw [Message.encode_eq, Message.body_of_decode h]

/-- Three messages, one of them a keep-alive, read one byte at a time. -/
theorem messages_roundTrip_bytewise : ∃ r' : Reader,
      readMessages 10 3 ⟨([.keepAlive, .piece 1 2 [7], .have_ 3].flatMap
          writeMessage).map fun c => [c], .closed⟩ [9, 9] =
        .ok ([.keepAlive, .piece 1 2 [7], .have_ 3], r') ∧
      r'.bytes = [] := by
  have hlen : ∀ m ∈ [Message.keepAlive, .piece 1 2 [7], .have_ 3],
      m.encode.length ≤ 4 + 10 := by
    decide +kernel
  have hbytes : (([Message.keepAlive, .piece 1 2 [7], .have_ 3].flatMap
      writeMessage).map fun c => [c]).flatten =
        [Message.keepAlive, .piece 1 2 [7], .have_ 3].flatMap writeMessage := by
    decide +kernel
  exact messages_roundTrip.1 10 [.keepAlive, .piece 1 2 [7], .have_ 3]
    ⟨_, .closed⟩ [9, 9] (by decide) hlen hbytes

end RustyTorrent.Peer
