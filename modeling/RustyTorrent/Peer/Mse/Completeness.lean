import RustyTorrent.Peer.Mse.Stages

/-!
# The encryption handshake succeeds between two of its own kind

Both sides of `peer/mse/handshake.rs` run against each other, with any key
pairs and paddings, any interleaving and any splitting of the streams.  The
stages give one order of events in which the handshake goes through; that it
then does so in every order is a fact about dialogues
(`Dialogue.completes_of_reaches`).
-/

namespace RustyTorrent.Peer.Mse

open Metainfo

open Program

variable (sha1Of : Bytes → Digest)

theorem matchSkey_of_unique {infoHash : Digest} {infoHashes : List Digest}
    (hmem : infoHash ∈ infoHashes)
    (hunique : ∀ x ∈ infoHashes, req2 sha1Of x = req2 sha1Of infoHash →
      x = infoHash) :
    matchSkey sha1Of infoHashes (req2 sha1Of infoHash) = some infoHash := by
  obtain ⟨x, hx, hdigest, hmatch⟩ := exists_matchSkey sha1Of hmem
  rw [hmatch, hunique x hx hdigest]

/-- The receiving side: a caller that has consumed the first bytes of the
connection hands them to `perform_incoming`. -/
def receiver (rng : IncomingRandom)
    (infoHashes : List Digest) (peeked : ℕ) :
    Session (EncryptedStream × Digest) := do
  let preRead ← readExact peeked
  performIncoming sha1Of rng infoHashes preRead

theorem receiver_goes (rng : IncomingRandom) (infoHashes : List Digest)
    {peeked : ℕ} (hpeeked : peeked ≤ yLen) {ya : ℕ} (hya : ya < p)
    (hvalid : validatePeerPublic ya = .ok ()) (padA : Bytes) :
    Goes (receiver sha1Of rng infoHashes peeked) (firstMessage ya padA)
      (awaitRequest sha1Of rng infoHashes (secret rng.key ya)) padA
      (firstMessage rng.key.public_ rng.padB) := by
  have hlen : ((toBytesBe keyLen ya).take peeked).length = peeked := by
    rw [List.length_take, length_toBytesBe]
    exact Nat.min_eq_left hpeeked
  have hsplit := (List.take_append_drop peeked (toBytesBe keyLen ya)).symm
  have hread := Goes.read (ε := MseError) ((toBytesBe keyLen ya).take peeked)
    (fun preRead => performIncoming sha1Of rng infoHashes preRead)
    ((toBytesBe keyLen ya).drop peeked ++ padA)
  rw [hlen, ← List.append_assoc, ← hsplit] at hread
  exact hread.trans
    (performIncoming_goes sha1Of rng infoHashes hya hvalid hsplit padA)

theorem awaitRequest_answers (rng : IncomingRandom) {infoHash : Digest}
    {infoHashes : List Digest} {s : Bytes} {padA : Pad} (padC : Pad)
    (hfirst : FirstAfter padA (req1 sha1Of s))
    (hmatch : matchSkey sha1Of infoHashes (req2 sha1Of infoHash) =
      some infoHash) :
    Goes (awaitRequest sha1Of rng infoHashes s)
      (padA ++ secondMessage sha1Of s infoHash (requestBlock padC))
      (.done (⟨((deriveRc4 sha1Of "keyA" s infoHash).process
          (requestBlock padC)).1,
        ((deriveRc4 sha1Of "keyB" s infoHash).process
          (replyBlock rng.padD)).1⟩, infoHash))
      []
      ((deriveRc4 sha1Of "keyB" s infoHash).process
        (replyBlock rng.padD)).2 := by
  have hfound := awaitRequest_goes sha1Of rng padA.2 hfirst hmatch
    (requestBlock padC) []
  have hread := readRequest_goes sha1Of rng s infoHash
    (cryptoPlaintext ||| cryptoRc4) padC [] (by decide) padC.2 (by decide) []
  have hsent := sendReply_goes rng infoHash
    ((deriveRc4 sha1Of "keyA" s infoHash).process (requestBlock padC)).1
    (deriveRc4 sha1Of "keyB" s infoHash) []
  rw [← requestBlock_eq] at hread
  rw [List.append_nil] at hfound
  exact hfound.trans (hread.trans hsent)

/-- For every torrent and candidate set with distinct digests, all key pairs
with valid public values, all paddings that do not show a synchronisation
pattern too early, any number of bytes the caller has already consumed, any
interleaving and any splitting: the handshake ends, it ends with success on
both sides, the receiver has found the torrent, each side sends with the
cipher the other receives with, and both streams are used up. -/
theorem handshake_completes (a : OutgoingRandom) (b : IncomingRandom)
    {infoHash : Digest} {infoHashes : List Digest}
    (hmem : infoHash ∈ infoHashes)
    (hdistinct : ∀ x ∈ infoHashes, ∀ y ∈ infoHashes,
      req2 sha1Of x = req2 sha1Of y → x = y)
    (ha : validatePeerPublic a.key.public_ = .ok ())
    (hb : validatePeerPublic b.key.public_ = .ok ())
    (hsyncA : FirstAfter a.padA (req1 sha1Of (secret a.key b.key.public_)))
    (hsyncB : FirstAfter b.padB ((deriveRc4 sha1Of "keyB"
      (secret a.key b.key.public_) infoHash).process vc).2)
    {peeked : ℕ} (hpeeked : peeked ≤ yLen) :
    ∃ toReceiver toInitiator : Rc4, Dialogue.Completes
        ⟨performOutgoing sha1Of a infoHash,
          receiver sha1Of b infoHashes peeked, [], []⟩
        ⟨.done ⟨toInitiator, toReceiver⟩,
          .done (⟨toReceiver, toInitiator⟩, infoHash), [], []⟩ := by
  have hmatch := matchSkey_of_unique sha1Of hmem
    fun x hx => hdistinct x hx infoHash hmem
  -- the initiator greets, and the receiver answers with its key
  have h1 := Dialogue.goes_left (performOutgoing_goes sha1Of a infoHash [])
    (receiver sha1Of b infoHashes peeked) []
  have h2 := Dialogue.goes_right
    (receiver_goes sha1Of b infoHashes hpeeked a.key.public_lt ha a.padA)
    (awaitYb sha1Of a infoHash) []
  -- the initiator sends its request
  have h3 := Dialogue.goes_left
    (awaitYb_goes sha1Of a infoHash b.key.public_lt hb b.padB)
    (awaitRequest sha1Of b infoHashes (secret b.key a.key.public_)) a.padA
  rw [← secret_comm a.key b.key] at h2 h3
  -- the receiver answers it
  have h4 := Dialogue.goes_right
    (awaitRequest_answers sha1Of b a.padC hsyncA hmatch)
    (awaitReply (deriveRc4 sha1Of "keyB" (secret a.key b.key.public_) infoHash)
      ((deriveRc4 sha1Of "keyA" (secret a.key b.key.public_)
        infoHash).process (requestBlock a.padC)).1) b.padB
  -- and the initiator reads the answer
  have h5 := Dialogue.goes_left (awaitReply_goes
      ((deriveRc4 sha1Of "keyA" (secret a.key b.key.public_)
        infoHash).process (requestBlock a.padC)).1 b.padB.2 hsyncB b.padD.2 [])
    (.done (⟨((deriveRc4 sha1Of "keyA" (secret a.key b.key.public_)
          infoHash).process (requestBlock a.padC)).1,
        ((deriveRc4 sha1Of "keyB" (secret a.key b.key.public_)
          infoHash).process (replyBlock b.padD)).1⟩, infoHash) :
      Session (EncryptedStream × Digest)) []
  rw [List.append_nil] at h5
  exact ⟨_, _, Dialogue.completes_of_reaches
    (h1.trans (h2.trans (h3.trans (h4.trans h5))))
    (Dialogue.not_step_done _ _ [] [])⟩

/-- A digest that keeps the last twenty bytes. -/
def lastBytes (b : Bytes) : Digest :=
  ⟨toBytesBe 20 (ofBytesBe b), length_toBytesBe 20 _⟩

/-- Two torrents, a caller that has consumed one byte, and paddings at both
ends of the initiator's message. -/
theorem handshake_completes_example :
    let first : Digest := ⟨List.replicate 20 1, rfl⟩
    let second : Digest := ⟨List.replicate 20 2, rfl⟩
    ∃ toReceiver toInitiator : Rc4, Dialogue.Completes
        ⟨performOutgoing lastBytes
            ⟨.ofPrivate 5, ⟨[7, 0], by decide⟩, ⟨[9], by decide⟩⟩ second,
          receiver lastBytes
            ⟨.ofPrivate 7, ⟨[], by decide⟩, ⟨[4, 4], by decide⟩⟩
            [first, second] 1, [], []⟩
        ⟨.done ⟨toInitiator, toReceiver⟩,
          .done (⟨toReceiver, toInitiator⟩, second), [], []⟩ := by
  intro first second
  refine handshake_completes lastBytes
    ⟨.ofPrivate 5, ⟨[7, 0], by decide⟩, ⟨[9], by decide⟩⟩
    ⟨.ofPrivate 7, ⟨[], by decide⟩, ⟨[4, 4], by decide⟩⟩ (by simp)
    (by decide +kernel) (by decide +kernel) (by decide +kernel)
    (by decide +kernel) ?_ (by decide)
  intro k hk
  exact absurd hk (Nat.not_lt_zero k)

end RustyTorrent.Peer.Mse
