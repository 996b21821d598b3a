import RustyTorrent.Peer.Framing
import RustyTorrent.Peer.Mse.Handshake
import RustyTorrent.Support.Dialogue

/-!
# The stages of the encryption handshake

What each stage of the two programs reads, and what it sends and keeps, when
the other side sends what the protocol asks for.
-/

namespace RustyTorrent.Peer.Mse

open Metainfo List

open Program Goes Keystream

/-! ## The sliding-window search -/

/-- The needle does not occur before the place where it was put after a
padding. -/
def FirstAfter (pad needle : Bytes) : Prop :=
  ∀ k < pad.length, ((pad ++ needle).drop k).take needle.length ≠ needle

instance (pad needle : Bytes) : Decidable (FirstAfter pad needle) :=
  inferInstanceAs (Decidable (∀ k < pad.length, _ ≠ _))

/-- The window after the bytes `seen`. -/
def windowOf (m : ℕ) (seen : Bytes) : Bytes := seen.drop (seen.length - m)

theorem windowOf_append (pad needle : Bytes) :
    windowOf needle.length (pad ++ needle) = needle := by
  simp [windowOf]

/-- One more byte: the window grows, and gives up its oldest byte when it is
full. -/
theorem windowOf_snoc (m : ℕ) (seen : Bytes) (c : UInt8) :
    windowOf m (seen ++ [c]) =
      if m < (windowOf m seen ++ [c]).length then
        (windowOf m seen ++ [c]).drop 1
      else windowOf m seen ++ [c] := by
  have hgrown : windowOf m seen ++ [c] = (seen ++ [c]).drop (seen.length - m) :=
    (drop_append_of_le_length (by omega)).symm
  have hlen : (windowOf m seen ++ [c]).length =
      seen.length + 1 - (seen.length - m) := by
    rw [hgrown, length_drop, length_append, length_singleton]
  rw [hlen, hgrown, windowOf, length_append, length_singleton, drop_drop]
  split_ifs with hfull
  · rw [show seen.length + 1 - m = seen.length - m + 1 by omega]
  · rw [show seen.length + 1 - m = seen.length - m by omega]

variable {pad needle : Bytes} {n : ℕ}

theorem left_eq_nil_of_window {seen left : Bytes}
    (hfirst : FirstAfter pad needle) (hsplit : pad ++ needle = seen ++ left)
    (hlen : (windowOf needle.length seen).length = needle.length)
    (hwindow : windowOf needle.length seen = needle) : left = [] := by
  by_contra hleft
  have hpos : 0 < left.length := length_pos_of_ne_nil hleft
  have htotal := congrArg List.length hsplit
  rw [length_append, length_append] at htotal
  rw [windowOf, length_drop] at hlen
  refine hfirst (seen.length - needle.length) (by omega) ?_
  rw [hsplit, drop_append_of_le_length (by omega),
    take_append_of_le_length (by rw [length_drop]; omega)]
  rw [take_of_length_le (by rw [length_drop]; omega)]
  exact hwindow

theorem syncLoop_goes (hfirst : FirstAfter pad needle)
    (e : MseError) (rest : Bytes) (rounds : ℕ) (seen left : Bytes)
    (hsplit : pad ++ needle = seen ++ left) (hleft : left ≠ [])
    (hrounds : left.length ≤ rounds) :
    Goes (syncLoop needle e rounds (windowOf needle.length seen))
      (left ++ rest) (.done ()) rest [] := by
  induction rounds generalizing seen left with
  | zero =>
    rw [Nat.le_zero, length_eq_zero_iff] at hrounds
    exact absurd hrounds hleft
  | succ rounds ih =>
    obtain ⟨c, left, rfl⟩ := exists_cons_of_ne_nil hleft
    have hsplit' : pad ++ needle = seen ++ [c] ++ left := by
      rw [hsplit, append_assoc, singleton_append]
    rw [syncLoop, readExact_bind]
    refine (read [c] _ (left ++ rest)).trans ?_
    dsimp only
    rw [← windowOf_snoc]
    split_ifs with hfound
    · rw [left_eq_nil_of_window hfirst hsplit' hfound.1 hfound.2]
      exact .refl _ rest
    · refine ih (seen ++ [c]) left hsplit' ?_ ?_
      · rintro rfl
        rw [append_nil] at hsplit'
        rw [← hsplit', windowOf_append] at hfound
        exact hfound ⟨rfl, rfl⟩
      · rw [length_cons] at hrounds
        omega

theorem syncLoop_goes_start (hfirst : FirstAfter pad needle)
    (hneedle : needle ≠ []) (e : MseError) {rounds : ℕ}
    (hrounds : pad.length + needle.length ≤ rounds) (rest : Bytes) :
    Goes (syncLoop needle e rounds []) (pad ++ needle ++ rest) (.done ())
      rest [] := by
  have hempty : windowOf needle.length [] = [] := by simp [windowOf]
  have hgo := syncLoop_goes hfirst e rest rounds []
    (pad ++ needle) rfl (by simp [hneedle])
    (by rw [length_append]; exact hrounds)
  rwa [hempty] at hgo

/-! ## Ciphers -/

variable (c : Rc4) (a : Bytes)

theorem process_append (b : Bytes) : c.process (a ++ b) =
      (((c.process a).1.process b).1,
        (c.process a).2 ++ ((c.process a).1.process b).2) :=
  apply_append Rc4.next c a b

@[simp] theorem length_process : (c.process a).2.length = a.length :=
  length_apply Rc4.next c a

theorem process_process : c.process (c.process a).2 = ((c.process a).1, a) :=
  apply_apply Rc4.next c a

theorem readProcessed_goes (rest : Bytes) (hn : a.length = n) :
    Goes (readProcessed c n) ((c.process a).2 ++ rest)
      (.done ((c.process a).1, a)) rest [] := by
  have hread := read (ε := MseError) (c.process a).2
    (fun b => .done (c.process b)) rest
  rw [process_process, length_process, hn] at hread
  exact hread

theorem drain_goes (rest : Bytes) (hn : a.length = n) :
    Goes (drain c n) ((c.process a).2 ++ rest) (.done (c.process a).1)
      rest [] := by
  unfold drain
  split_ifs with hzero
  · subst hn
    obtain rfl : a = [] := length_eq_zero_iff.mp hzero
    exact .refl _ rest
  · exact (readProcessed_goes c a rest hn).seq (.refl _ rest)

theorem ofBytesBe_two (h : n < 65536) : ofBytesBe (toBytesBe 2 n) = n := by
  rw [ofBytesBe_toBytesBe]
  exact Nat.mod_eq_of_lt h

/-! ## Keys and paddings -/

theorem toBytes_of_lt (h : n < p) : toBytes n = .done (toBytesBe keyLen n) :=
  if_pos (h.trans p_lt)

theorem Keypair.public_lt (kp : Keypair) : kp.public_ < p := by
  rw [kp.public_eq]
  exact modpow_lt _ _

theorem fromBytes_toBytesBe (h : n < p) :
    fromBytes (toBytesBe keyLen n) = n := by
  rw [fromBytes, ofBytesBe_toBytesBe, Nat.mod_eq_of_lt (h.trans p_lt)]

theorem checkPublic_of_valid {y : ℕ} (h : validatePeerPublic y = .ok ()) :
    checkPublic y = .done () := by
  rw [checkPublic, h]
  rfl

theorem writePad_goes (pad inbox : Bytes) :
    Goes (writePad pad) inbox (.done ()) inbox pad := by
  unfold writePad
  split_ifs with hempty
  · rw [isEmpty_iff.mp hempty]
    exact .refl _ inbox
  · exact .write pad _ inbox

/-- The secret two key pairs share, as its bytes. -/
def secret (own : Keypair) (peerPublic : ℕ) : Bytes :=
  toBytesBe keyLen (own.sharedSecret peerPublic)

theorem toBytes_sharedSecret (own : Keypair) (peerPublic : ℕ) :
    toBytes (own.sharedSecret peerPublic) = .done (secret own peerPublic) :=
  toBytes_of_lt (modpow_lt _ _)

theorem secret_comm (a b : Keypair) :
    secret a b.public_ = secret b a.public_ := by
  rw [secret, secret, sharedSecret_comm]

section Stages

variable (sha1Of : Bytes → Digest)

/-! ## The initiator -/

/-- The initiator's first message. -/
def firstMessage (public_ : ℕ) (pad : Bytes) : Bytes :=
  toBytesBe keyLen public_ ++ pad

theorem performOutgoing_goes (rng : OutgoingRandom) (infoHash : Digest)
    (inbox : Bytes) :
    Goes (performOutgoing sha1Of rng infoHash) inbox
      (awaitYb sha1Of rng infoHash) inbox
      (firstMessage rng.key.public_ rng.padA) := by
  unfold performOutgoing
  rw [toBytes_of_lt rng.key.public_lt, done_bind, writeAll_bind]
  exact (write _ _ inbox).trans ((writePad_goes rng.padA.1 inbox).bind _)

/-- The request of an initiator that offers `provide` and an initial
payload. -/
def offerBlock (provide : UInt32) (padC ia : Bytes) : Bytes :=
  vc ++ be32 provide ++ toBytesBe 2 padC.length ++ padC ++
    toBytesBe 2 ia.length ++ ia

theorem requestBlock_eq (padC : Bytes) :
    requestBlock padC = offerBlock (cryptoPlaintext ||| cryptoRc4) padC [] := by
  rw [requestBlock, offerBlock, append_nil]
  rfl

/-- The initiator's second message, up to the end of its initial payload. -/
def secondMessage (sha1Of : Bytes → Digest) (s : Bytes) (infoHash : Digest)
    (block : Bytes) : Bytes :=
  req1 sha1Of s ++ xorBytes (req2 sha1Of infoHash) (req3 sha1Of s) ++
    ((deriveRc4 sha1Of "keyA" s infoHash).process block).2

theorem sendRequest_goes (padC : Bytes) (infoHash : Digest) (s inbox : Bytes) :
    Goes (sendRequest sha1Of padC infoHash s) inbox
      (awaitReply (deriveRc4 sha1Of "keyB" s infoHash)
        ((deriveRc4 sha1Of "keyA" s infoHash).process (requestBlock padC)).1)
      inbox (secondMessage sha1Of s infoHash (requestBlock padC)) := by
  unfold sendRequest secondMessage
  simp only [writeAll_bind]
  rw [append_assoc]
  exact (write _ _ inbox).trans ((write _ _ inbox).trans (write _ _ inbox))

theorem awaitYb_goes (rng : OutgoingRandom) (infoHash : Digest) {yb : ℕ}
    (hyb : yb < p) (hvalid : validatePeerPublic yb = .ok ()) (inbox : Bytes) :
    Goes (awaitYb sha1Of rng infoHash) (toBytesBe keyLen yb ++ inbox)
      (awaitReply (deriveRc4 sha1Of "keyB" (secret rng.key yb) infoHash)
        ((deriveRc4 sha1Of "keyA" (secret rng.key yb) infoHash).process
          (requestBlock rng.padC)).1)
      inbox
      (secondMessage sha1Of (secret rng.key yb) infoHash
        (requestBlock rng.padC)) := by
  unfold awaitYb
  rw [readExact_bind]
  have hread := read (ε := MseError) (toBytesBe keyLen yb) (fun b => do
      checkPublic (fromBytes b)
      let s ← toBytes (rng.key.sharedSecret (fromBytes b))
      sendRequest sha1Of rng.padC infoHash s) inbox
  rw [length_toBytesBe] at hread
  refine hread.trans ?_
  rw [fromBytes_toBytesBe hyb, checkPublic_of_valid hvalid, done_bind,
    toBytes_sharedSecret, done_bind]
  exact sendRequest_goes sha1Of _ _ _ _

/-- The block the receiver enciphers. -/
def replyBlock (padD : Bytes) : Bytes :=
  vc ++ be32 cryptoRc4 ++ toBytesBe 2 padD.length ++ padD

theorem syncOnEncryptedVc_goes {c : Rc4} {padB : Bytes}
    (hpad : padB.length ≤ padMax)
    (hfirst : FirstAfter padB (c.process vc).2) (rest : Bytes) :
    Goes (syncOnEncryptedVc c) (padB ++ (c.process vc).2 ++ rest)
      (.done (c.process vc).1) rest [] := by
  have hlen : (c.process vc).2.length = 8 := length_process c vc
  have hneedle : (c.process vc).2 ≠ [] := by
    rw [← length_pos_iff_ne_nil, hlen]
    omega
  unfold padMax at hpad
  have hrounds : padB.length + (c.process vc).2.length ≤
      syncSearchLimit + 8 := by
    rw [hlen, syncSearchLimit, padMax]
    omega
  exact (syncLoop_goes_start hfirst hneedle _ hrounds rest).seq (.refl _ rest)

theorem awaitReply_goes {inCipher : Rc4} (outCipher : Rc4) {padB : Bytes}
    (hpadB : padB.length ≤ padMax)
    (hfirst : FirstAfter padB (inCipher.process vc).2) {padD : Bytes}
    (hpadD : padD.length ≤ padMax) (rest : Bytes) :
    Goes (awaitReply inCipher outCipher)
      (padB ++ (inCipher.process (replyBlock padD)).2 ++ rest)
      (.done ⟨(inCipher.process (replyBlock padD)).1, outCipher⟩)
      rest [] := by
  have hsplit : replyBlock padD =
      vc ++ ((be32 cryptoRc4 ++ toBytesBe 2 padD.length) ++ padD) := by
    simp [replyBlock, append_assoc]
  rw [hsplit, process_append, process_append]
  dsimp only
  rw [append_assoc, append_assoc, ← append_assoc padB]
  unfold awaitReply
  refine (syncOnEncryptedVc_goes hpadB hfirst _).seq ?_
  rw [append_assoc]
  refine (readProcessed_goes _ (be32 cryptoRc4 ++ toBytesBe 2 padD.length) _
    (by simp)).seq ?_
  have hlen : ofBytesBe ((be32 cryptoRc4 ++ toBytesBe 2 padD.length).drop 4) =
      padD.length := by
    rw [← length_be32 cryptoRc4, drop_left]
    exact ofBytesBe_two (by rw [padMax] at hpadD; omega)
  simp only [u32At_zero, hlen]
  rw [if_neg (by omega)]
  refine (drain_goes _ padD rest rfl).seq ?_
  rw [if_neg (by decide)]
  exact .refl _ rest

/-! ## The receiver -/

theorem readRest_goes (a rest : Bytes) {n : ℕ} (hn : a.length = n) :
    Goes (readRest n) (a ++ rest) (.done a) rest [] := by
  unfold readRest
  subst hn
  split_ifs with hpos
  · exact .read a _ rest
  · obtain rfl : a = [] := length_eq_zero_iff.mp (by omega)
    exact .refl _ rest

/-- The receiver reads what is left of the initiator's key and answers with
its own. -/
theorem performIncoming_goes (rng : IncomingRandom)
    (infoHashes : List Digest) {ya : ℕ} (hya : ya < p)
    (hvalid : validatePeerPublic ya = .ok ()) {preRead left : Bytes}
    (hsplit : toBytesBe keyLen ya = preRead ++ left) (rest : Bytes) :
    Goes (performIncoming sha1Of rng infoHashes preRead) (left ++ rest)
      (awaitRequest sha1Of rng infoHashes (secret rng.key ya)) rest
      (firstMessage rng.key.public_ rng.padB) := by
  have hlen := congrArg List.length hsplit
  rw [length_toBytesBe, length_append] at hlen
  unfold performIncoming yLen
  rw [if_neg (by omega)]
  refine (readRest_goes left rest (by omega)).seq ?_
  rw [← hsplit, fromBytes_toBytesBe hya]
  dsimp only
  rw [checkPublic_of_valid hvalid, done_bind,
    toBytes_of_lt rng.key.public_lt, done_bind, writeAll_bind,
    toBytes_sharedSecret]
  exact (write _ _ rest).trans ((writePad_goes _ rest).bind _)

theorem syncOnPattern_goes {padA : Bytes} (hpad : padA.length ≤ padMax)
    {s : Bytes} (hfirst : FirstAfter padA (req1 sha1Of s)) (rest : Bytes) :
    Goes (syncOnPattern (req1 sha1Of s)) (padA ++ req1 sha1Of s ++ rest)
      (.done ()) rest [] := by
  have hlen : (req1 sha1Of s).length = 20 := (sha1Of _).2
  have hneedle : req1 sha1Of s ≠ [] := by
    rw [← length_pos_iff_ne_nil, hlen]
    omega
  exact syncLoop_goes_start hfirst hneedle _
    (by rw [hlen, syncSearchLimit]; omega) rest

theorem xorBytes_xorBytes {a b : Bytes} (h : a.length = b.length) :
    xorBytes (xorBytes a b) b = a := by
  induction a generalizing b with
  | nil => simp [xorBytes]
  | cons x a ih =>
    cases b with
    | nil => simp at h
    | cons y b =>
      have hrest := ih (b := b) (by simpa using h)
      have hx : x ^^^ y ^^^ y = x := by
        rw [UInt8.xor_assoc, UInt8.xor_self, UInt8.xor_zero]
      simp only [xorBytes, zipWith_cons_cons] at hrest ⊢
      rw [hrest, hx]

theorem matchSkey_eq_find? (infoHashes : List Digest) (wanted : Bytes) :
    matchSkey sha1Of infoHashes wanted =
      infoHashes.reverse.find? fun ih => req2 sha1Of ih = wanted := by
  induction infoHashes using List.reverseRecOn with
  | nil => rfl
  | append_singleton infoHashes x ih =>
    rw [matchSkey, foldl_concat, reverse_concat, find?_cons, ← matchSkey, ih]
    by_cases hx : req2 sha1Of x = wanted
    · simp [hx]
    · simp [hx]

theorem exists_matchSkey {infoHash : Digest} {infoHashes : List Digest}
    (hmem : infoHash ∈ infoHashes) :
    ∃ matched ∈ infoHashes, req2 sha1Of matched = req2 sha1Of infoHash ∧
      matchSkey sha1Of infoHashes (req2 sha1Of infoHash) = some matched := by
  rw [matchSkey_eq_find?]
  have hfound : (infoHashes.reverse.find? fun ih =>
      req2 sha1Of ih = req2 sha1Of infoHash).isSome :=
    find?_isSome.mpr ⟨infoHash, mem_reverse.mpr hmem, decide_eq_true rfl⟩
  obtain ⟨x, hx⟩ := Option.isSome_iff_exists.mp hfound
  have hxmem : x ∈ infoHashes :=
    mem_reverse.mp (mem_of_find?_eq_some hx)
  have hxdigest : req2 sha1Of x = req2 sha1Of infoHash := by
    simpa using find?_some hx
  exact ⟨x, hxmem, hxdigest, hx⟩

section

variable (rng : IncomingRandom)

theorem awaitRequest_goes {infoHashes : List Digest} {s padA : Bytes}
    {infoHash matched : Digest} (hpad : padA.length ≤ padMax)
    (hfirst : FirstAfter padA (req1 sha1Of s))
    (hmatch : matchSkey sha1Of infoHashes (req2 sha1Of infoHash) = some matched)
    (block rest : Bytes) :
    Goes (awaitRequest sha1Of rng infoHashes s)
      (padA ++ secondMessage sha1Of s infoHash block ++ rest)
      (readRequest sha1Of rng s matched)
      (((deriveRc4 sha1Of "keyA" s infoHash).process block).2 ++ rest)
      [] := by
  have h2 : (req2 sha1Of infoHash).length = 20 := (sha1Of _).2
  have h3 : (req3 sha1Of s).length = 20 := (sha1Of _).2
  have h23 : (xorBytes (req2 sha1Of infoHash) (req3 sha1Of s)).length = 20 := by
    simp [xorBytes, h2, h3]
  unfold awaitRequest secondMessage
  simp only [append_assoc]
  rw [← append_assoc padA]
  refine (syncOnPattern_goes sha1Of hpad hfirst _).seq ?_
  rw [readExact_bind, ← h23]
  refine (read _ _ _).trans ?_
  rw [xorBytes_xorBytes (by rw [h2, h3]), hmatch]
  exact .refl _ _

/-- The receiver reads the request to its end and keeps the cipher behind it.
The initial payload is read over. -/
theorem readRequest_goes (s : Bytes) (matched : Digest) (provide : UInt32)
    (padC ia : Bytes) (hrc4 : provide &&& cryptoRc4 ≠ 0)
    (hpad : padC.length ≤ padMax) (hia : ia.length < 65536) (rest : Bytes) :
    Goes (readRequest sha1Of rng s matched)
      (((deriveRc4 sha1Of "keyA" s matched).process
        (offerBlock provide padC ia)).2 ++ rest)
      (sendReply rng matched ((deriveRc4 sha1Of "keyA" s matched).process
          (offerBlock provide padC ia)).1
        (deriveRc4 sha1Of "keyB" s matched))
      rest [] := by
  have hsplit : offerBlock provide padC ia =
      (vc ++ (be32 provide ++ toBytesBe 2 padC.length)) ++
        (padC ++ (toBytesBe 2 ia.length ++ ia)) := by
    simp [offerBlock, append_assoc]
  have hprovide :
      u32At 8 (vc ++ (be32 provide ++ toBytesBe 2 padC.length)) = provide :=
    u32At_append (by simp [vc]) provide _
  have hpadLen : ofBytesBe
      ((vc ++ (be32 provide ++ toBytesBe 2 padC.length)).drop 12) =
        padC.length := by
    have hfront : (vc ++ be32 provide).length = 12 := by simp [vc]
    rw [← append_assoc, ← hfront, drop_left]
    exact ofBytesBe_two (by rw [padMax] at hpad; omega)
  have hvc : (vc ++ (be32 provide ++ toBytesBe 2 padC.length)).take 8 = vc :=
    take_left' (by simp [vc])
  unfold readRequest
  rw [hsplit, process_append, process_append, process_append]
  dsimp only
  simp only [append_assoc]
  refine (readProcessed_goes _
    (vc ++ (be32 provide ++ toBytesBe 2 padC.length)) _ (by simp [vc])).seq ?_
  simp only [hvc, hprovide, hpadLen]
  rw [if_neg (by simp), if_neg (by omega)]
  refine (drain_goes _ padC _ rfl).seq ?_
  refine (readProcessed_goes _ (toBytesBe 2 ia.length) _ (by simp)).seq ?_
  refine (drain_goes _ ia rest (ofBytesBe_two hia).symm).seq ?_
  rw [if_neg hrc4]
  exact .refl _ rest

theorem readRequest_returns (s : Bytes) (matched : Digest) :
    (readRequest sha1Of rng s matched).Returns fun r => r.2 = matched := by
  unfold readRequest
  refine .bind _ fun header => ?_
  dsimp only
  split_ifs with hvc hpad hrc4
  · trivial
  · trivial
  · exact .bind _ fun _ => .bind _ fun _ => .bind _ fun _ => trivial
  · exact .bind _ fun _ => .bind _ fun _ => .bind _ fun _ => rfl

theorem sendReply_goes (matched : Digest) (inCipher outCipher : Rc4)
    (inbox : Bytes) :
    Goes (sendReply rng matched inCipher outCipher) inbox
      (.done (⟨inCipher, (outCipher.process (replyBlock rng.padD)).1⟩, matched))
      inbox (outCipher.process (replyBlock rng.padD)).2 :=
  .write _ _ inbox

end

end Stages

end RustyTorrent.Peer.Mse
