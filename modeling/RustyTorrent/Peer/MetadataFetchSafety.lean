import RustyTorrent.Peer.MetadataFetch
import RustyTorrent.Support.Windows

/-!
# Metadata fetches are bounded and authentic

What a remote peer can make `exchange_metadata` do, over every byte stream it
may send and every interleaving of concurrent exchanges.

`Sound` says of one exchange what holds at the point where it is suspended;
every event keeps it and moves the counter exactly with the reservations
(`step_sound`).  The rules of pools carry both to every run.
-/

namespace RustyTorrent.Peer.MetadataFetch

open Metainfo Extension Outcome List Fetch Effect FrameBudget

/-! ## What an exchange has done -/

def Effect.isRead : Effect → Bool
  | .read _ => true
  | _ => false

namespace Fetch

/-- The number of frames taken off the stream. -/
def framesRead (f : Fetch) : ℕ := f.log.countP Effect.isRead

/-- The number of frames that were spent against the budget and looked at. -/
def framesProcessed (f : Fetch) : ℕ := f.log.count .spent

/-- The `metadata_size` the peer advertised. -/
def metadataSize (f : Fetch) : Option ℕ :=
  f.peerInfo.bind fun info => info.metadataSize.map UInt32.toNat

/-- The most frames an exchange may process. -/
def frameLimit (f : Fetch) : ℕ :=
  match f.metadataSize with
  | none => 64
  | some size => 64 + 64 + Outcome.divCeil size 16384

/-- Whether the exchange holds a reservation. -/
def holding (f : Fetch) : Bool :=
  match f.phase with
  | .requesting _ => true
  | .awaitResponse _ => true
  | .leaving _ _ => true
  | _ => false

/-- The ending that is decided, if one is. -/
def ending (f : Fetch) : Option Ending :=
  match f.phase with
  | .leaving _ e => some e
  | .ended e => some e
  | _ => none

/-- The bytes an exchange has reserved. -/
def reserved (f : Fetch) : ℕ :=
  if f.holding then f.metadataSize.getD 0 else 0

end Fetch

/-- A piece has been copied into the buffer. -/
def Has (log : List Effect) (piece : ℕ) : Prop :=
  ∃ offset len, Effect.copied piece offset len ∈ log

/-- Every message written is the handshake, or a request for a piece that had
not been copied by then. -/
def AsksMissing (log : List Effect) : Prop :=
  ∀ before msg after, log = before ++ .wrote msg :: after →
    (∃ payload, msg = .extended extHandshakeId payload) ∨
    ∃ id piece, msg = .extended id (buildMetadataRequest piece) ∧
      ¬ Has before piece.toNat

theorem AsksMissing.append {log : List Effect} {e : Effect}
    (h : AsksMissing log)
    (he : ∀ msg, e = .wrote msg →
      (∃ payload, msg = .extended extHandshakeId payload) ∨
      ∃ id piece, msg = .extended id (buildMetadataRequest piece) ∧
        ¬ Has log piece.toNat) : AsksMissing (log ++ [e]) := by
  intro before msg after hsplit
  rcases eq_nil_or_concat after with rfl | ⟨after, last, rfl⟩
  · obtain ⟨rfl, hlast⟩ := append_inj' hsplit rfl
    injection hlast with hlast
    exact he msg hlast
  · rw [concat_eq_append, ← cons_append, ← append_assoc]
      at hsplit
    obtain ⟨rfl, -⟩ := append_inj' hsplit rfl
    exact h before msg after rfl

/-! ## What holds of a suspended exchange -/

/-- Every frame read so far was spent, and `left` more may be. -/
def Fetch.Spending (f : Fetch) (left limit : ℕ) : Prop :=
  f.framesRead = f.framesProcessed ∧ f.framesProcessed + left ≤ limit

/-- What holds once the handshake has fixed the terms. -/
structure Fetch.Agreed (f : Fetch) (t : Terms) : Prop where
  size : f.metadataSize = some t.totalSize.toNat
  spending : f.Spending t.budget.remaining 64
  nothingCopied : ∀ piece, ¬ Has f.log piece

/-- What holds in the piece loop. -/
structure Fetch.Assembling (f : Fetch) (a : Assembly) : Prop where
  size : f.metadataSize = some a.totalSize.toNat
  spending : f.Spending a.budget.remaining
    (64 + 64 + numPieces a.totalSize)
  length_assembled : a.assembled.length = a.totalSize.toNat
  length_received : a.received.length = numPieces a.totalSize
  marked : ∀ piece, Has f.log piece → a.received[piece]? = some true

/-- What holds of an exchange whose ending is decided. -/
structure Fetch.Closed (sha1Of : Bytes → Digest) (f : Fetch) (e : Ending) :
    Prop where
  processed : f.framesProcessed ≤ f.frameLimit
  read : f.framesRead ≤ f.framesProcessed + 1
  noPanic : e ≠ .returned .panic
  authentic : ∀ bytes, e = .returned (.ok bytes) →
    f.metadataSize = some bytes.length ∧ sha1Of bytes = f.infoHash

/-- What holds at each point where an exchange can be suspended. -/
def Fetch.At (sha1Of : Bytes → Digest) (f : Fetch) : Phase → Prop
  | .greeting => f.peerInfo = none ∧ f.Spending 64 64
  | .awaitHandshake b => f.peerInfo = none ∧ f.Spending b.remaining 64
  | .reserving t => f.Agreed t
  | .swapping t cur next => f.Agreed t ∧
      next = cur + t.totalSize.toNat ∧ next ≤ globalMetadataBudget
  | .requesting a => f.Assembling a
  | .awaitResponse a => f.Assembling a
  | .leaving bytes e => f.metadataSize = some bytes ∧ f.Closed sha1Of e
  | .ended e => f.Closed sha1Of e

/-- The log is in order: requests are for missing pieces, copies are in
bounds of the buffer. -/
structure Fetch.Logged (f : Fetch) : Prop where
  asks : AsksMissing f.log
  copies : ∀ piece offset len, Effect.copied piece offset len ∈ f.log →
    ∃ size, f.metadataSize = some size ∧ offset + len ≤ size

/-- The invariant of one exchange. -/
structure Fetch.Sound (sha1Of : Bytes → Digest) (f : Fetch) : Prop where
  logged : f.Logged
  here : f.At sha1Of f.phase

/-- A sound exchange that has `n` bytes reserved. -/
def Fetch.SoundWith (sha1Of : Bytes → Digest) (f : Fetch) (n : ℕ) : Prop :=
  f.Sound sha1Of ∧ f.reserved = n

section Steps

variable {sha1Of : Bytes → Digest} {f : Fetch}

/-! ### Small updates -/

@[simp] theorem framesRead_record (es : List Effect) :
    (f.record es).framesRead = f.framesRead + es.countP isRead := by
  simp [framesRead, record]

@[simp] theorem framesProcessed_record (es : List Effect) :
    (f.record es).framesProcessed = f.framesProcessed + es.count .spent := by
  simp [framesProcessed, record]

variable {e : Error} {p : Phase}

theorem Fetch.At.moveTo (h : f.At sha1Of p) (q : Phase) :
    (f.moveTo q).At sha1Of p := by
  cases p with
  | greeting | awaitHandshake => exact h
  | swapping => exact ⟨{ h.1 with }, h.2⟩
  | leaving => exact ⟨h.1, { h.2 with }⟩
  | reserving | requesting | awaitResponse | ended => exact { h with }

theorem sound_moveTo (hlogged : f.Logged) (h : f.At sha1Of p) :
    (f.moveTo p).SoundWith sha1Of (f.moveTo p).reserved :=
  ⟨⟨⟨hlogged.asks, hlogged.copies⟩, h.moveTo p⟩, rfl⟩

theorem frameLimit_eq {totalSize : UInt32}
    (h : f.metadataSize = some totalSize.toNat) :
    f.frameLimit = 64 + 64 + numPieces totalSize := by
  rw [frameLimit, h]
  rfl

theorem frameLimit_ge : 64 ≤ f.frameLimit := by
  rw [frameLimit]
  split <;> omega

/-- No more frames were processed than allowed; one more may have been
read. -/
def Fetch.Bounded (f : Fetch) : Prop :=
  f.framesProcessed ≤ f.frameLimit ∧ f.framesRead ≤ f.framesProcessed + 1

theorem Fetch.Bounded.err (h : f.Bounded) :
    f.Closed sha1Of (.returned (.err e)) :=
  ⟨h.1, h.2, nofun, nofun⟩

theorem Fetch.Bounded.aborted (h : f.Bounded) : f.Closed sha1Of .aborted :=
  ⟨h.1, h.2, nofun, nofun⟩

/-- At an await an exchange can end at once. -/
theorem Fetch.Spending.bounded {left : ℕ} (h : f.Spending left 64) :
    f.Bounded := by
  obtain ⟨hread, hprocessed⟩ := h
  have hlimit : 64 ≤ f.frameLimit := frameLimit_ge
  exact ⟨by omega, by omega⟩

theorem Fetch.Logged.snoc (h : f.Logged) {e : Effect}
    (hwrote : ∀ msg, e ≠ .wrote msg)
    (hcopied : ∀ piece offset len, e ≠ .copied piece offset len) :
    (f.record [e]).Logged where
  asks := h.asks.append fun msg hmsg => absurd hmsg (hwrote msg)
  copies piece offset len hmem := by
    rcases mem_append.mp hmem with hmem | hmem
    · exact h.copies piece offset len hmem
    · exact absurd (mem_singleton.mp hmem).symm (hcopied _ _ _)

/-! ### One round of reading -/

variable {b : FrameBudget} {timeoutText frameText : String} {wanted : UInt8}
  {r : Round} {a : Assembly} {idx : ℕ} {t : Terms}

theorem spend_eq_ok {b' : FrameBudget} (h : b.spend = .ok b') :
    b'.remaining + 1 = b.remaining := by
  unfold spend at h
  split_ifs at h with hzero
  obtain rfl : (⟨b.remaining - 1⟩ : FrameBudget) = b' := by injection h
  dsimp only
  omega

theorem wantedPayload_ne_panic (wanted : UInt8) (frame : Bytes) :
    wantedPayload wanted frame ≠ .panic := by
  unfold wantedPayload
  split_ifs
  · nofun
  · split
    · nofun
    · split_ifs <;> nofun
    · nofun

/-- What a round leaves of the invariant. -/
structure Fetch.Consumed (f : Fetch) (limit : ℕ)
    (result : Outcome Error (FrameBudget × Option Bytes)) : Prop where
  logged : f.Logged
  processed : f.framesProcessed ≤ limit
  read : f.framesRead ≤ f.framesProcessed + 1
  noPanic : result ≠ .panic
  spending : ∀ b p, result = .ok (b, p) → f.Spending b.remaining limit

theorem record_nil : f.record [] = f := by
  simp [record]

theorem readRound_consumed {limit : ℕ} (hlogged : f.Logged)
    (hspending : f.Spending b.remaining limit) :
    let r := readRound timeoutText frameText wanted f.stream b
    (f.consume r).Consumed limit r.result := by
  obtain ⟨heq, hle⟩ := hspending
  have hread {s es res} : (f.consume ⟨s, es, res⟩).framesRead =
      f.framesRead + es.countP isRead := framesRead_record _
  have hprocessed {s es res} : (f.consume ⟨s, es, res⟩).framesProcessed =
      f.framesProcessed + es.count .spent := framesProcessed_record _
  have hlog {s es res} (h : (f.record es).Logged) :
      (f.consume ⟨s, es, res⟩).Logged := ⟨h.asks, h.copies⟩
  fun_cases readRound timeoutText frameText wanted f.stream b with
  | case1 | case2 =>
    refine ⟨hlog (by rwa [record_nil]), ?_, ?_, nofun, nofun⟩
    · simp only [hprocessed, count_nil]
      omega
    · simp only [hread, hprocessed, count_nil, countP_nil]
      omega
  | case3 frame rest _ b' hspend =>
    have hone := hlogged.snoc (e := .read frame) nofun nofun
    have hboth := hone.snoc (e := .spent) nofun nofun
    have hb := spend_eq_ok hspend
    have hcount : [read frame, .spent].count .spent = 1 := rfl
    have hcountP : [read frame, .spent].countP isRead = 1 := rfl
    refine ⟨hlog (by simpa [record] using hboth), ?_, ?_,
      bind_ne_panic (wantedPayload_ne_panic wanted frame) nofun, ?_⟩
    · simp only [hprocessed, hcount]
      omega
    · simp only [hread, hprocessed, hcount, hcountP]
      omega
    · intro b p hok
      obtain ⟨p', -, hp⟩ := bind_eq_ok.mp hok
      cases hp
      simp only [Fetch.Spending, hread, hprocessed, hcount, hcountP]
      omega
  | case4 frame rest _ e hspend =>
    refine ⟨hlog (hlogged.snoc nofun nofun), ?_, ?_, nofun, nofun⟩
    · simp [hprocessed]
      omega
    · simp [hread, hprocessed, isRead]
      omega
  | case5 frame rest _ hspend =>
    unfold spend at hspend
    split_ifs at hspend

/-! ### Leaving the exchange -/

theorem Fetch.Assembling.bounded (h : f.Assembling a) : f.Bounded := by
  obtain ⟨hread, hspent⟩ := h.spending
  rw [Bounded, frameLimit_eq h.size]
  exact ⟨by omega, by omega⟩

theorem sound_finish_err (hlogged : f.Logged) (h : f.Bounded) :
    (f.finish (.err e)).SoundWith sha1Of 0 :=
  sound_moveTo hlogged h.err

theorem Fetch.Assembling.sound_leave_err (h : f.Assembling a)
    (hlogged : f.Logged) :
    (f.leave a (.err e)).SoundWith sha1Of (f.metadataSize.getD 0) :=
  sound_moveTo hlogged ⟨h.size, h.bounded.err⟩

/-! ### The piece loop -/

theorem numPieces_lt (totalSize : UInt32) : numPieces totalSize < 2 ^ 32 := by
  have hlt := totalSize.toNat_lt
  unfold numPieces Outcome.divCeil metadataPieceSize
  split_ifs <;> omega

theorem Fetch.Assembling.wrote (h : f.Assembling a)
    (msg : Message) : (f.record [.wrote msg]).Assembling a := by
  refine { h with spending := ?_, marked := fun piece hhas => ?_ }
  · simpa [Fetch.Spending, isRead] using h.spending
  · obtain ⟨offset, len, hmem⟩ := hhas
    refine h.marked piece ⟨offset, len, ?_⟩
    simpa [record] using hmem

/-- The head of the loop requests a missing piece, or ends the exchange with
the verified buffer or an error. -/
theorem loopHead_sound (h : f.Assembling a) (hlogged : f.Logged) :
    (f.loopHead sha1Of a).SoundWith sha1Of (f.metadataSize.getD 0) := by
  unfold loopHead
  split_ifs with hany hhash
  · split
    next hnone =>
      rw [findIdx?_eq_none_iff] at hnone
      obtain ⟨got, hmem, hgot⟩ := any_eq_true.mp hany
      exact absurd hgot (by simp [hnone got hmem])
    next next hnext =>
      obtain ⟨hlt, hmissing, -⟩ :=
        findIdx?_eq_some_iff_getElem.mp hnext
      have hfits : next < 2 ^ 32 := by
        have hpieces := numPieces_lt a.totalSize
        rw [h.length_received] at hlt
        omega
      have hnew : ¬ Has f.log (UInt32.ofNat next).toNat := by
        intro hhas
        rw [UInt32.toNat_ofNat_of_lt' hfits] at hhas
        have hmarked := h.marked next hhas
        rw [getElem?_eq_getElem hlt] at hmarked
        injection hmarked with hmarked
        simp [hmarked] at hmissing
      refine sound_moveTo ⟨hlogged.asks.append ?_, ?_⟩ ?_
      · rintro msg hmsg
        injection hmsg with hmsg
        exact .inr ⟨a.theirId, UInt32.ofNat next, hmsg.symm, hnew⟩
      · intro piece offset len hmem
        rcases mem_append.mp hmem with hmem | hmem
        · exact hlogged.copies piece offset len hmem
        · simp at hmem
      · exact h.wrote _
  · exact h.sound_leave_err hlogged
  · refine sound_moveTo hlogged ⟨h.size, h.bounded.1, h.bounded.2, nofun, ?_⟩
    intro bytes hbytes
    injection hbytes with hbytes
    injection hbytes with hbytes
    subst hbytes
    rw [not_not] at hhash
    refine ⟨?_, hhash⟩
    rw [h.length_assembled]
    exact h.size

theorem piece_in_bounds {totalSize : UInt32} (h : idx < numPieces totalSize) :
    idx * metadataPieceSize +
      pieceExpectedLen idx (numPieces totalSize) totalSize ≤
        totalSize.toNat := by
  revert h
  unfold pieceExpectedLen numPieces Outcome.divCeil metadataPieceSize
  dsimp only
  split_ifs <;> omega

theorem Fetch.Assembling.store_eq (h : f.Assembling a) {data : Bytes}
    (hidx : ¬ numPieces a.totalSize ≤ idx)
    (hdata : ¬ data.length ≠
      pieceExpectedLen idx (numPieces a.totalSize) a.totalSize) :
    ∃ buf, buf.length = a.totalSize.toNat ∧
      a.store idx (pieceExpectedLen idx (numPieces a.totalSize) a.totalSize)
          data =
        .ok { a with assembled := buf, received := a.received.set idx true } := by
  rw [Nat.not_le] at hidx
  rw [not_not] at hdata
  have hassembled := h.length_assembled
  have hreceived := h.length_received
  have hlen := piece_in_bounds hidx
  rw [← hdata] at hlen ⊢
  refine ⟨Windows.put a.assembled (idx * metadataPieceSize) data, ?_, ?_⟩
  · rw [Windows.length_put (by omega), hassembled]
  · rw [Assembly.store, copyFromSlice, if_pos (by omega), ok_bind,
      update_of_lt (by omega), ok_bind]
    rfl

theorem Fetch.Assembling.copied (h : f.Assembling a) {offset len : ℕ}
    {buf : Bytes} (hidx : idx < numPieces a.totalSize)
    (hbuf : buf.length = a.totalSize.toNat) :
    (f.record [.copied idx offset len]).Assembling
      { a with assembled := buf, received := a.received.set idx true } where
  size := h.size
  spending := by
    simpa [Fetch.Spending, isRead] using h.spending
  length_assembled := hbuf
  length_received := by
    rw [length_set]
    exact h.length_received
  marked piece hhas := by
    obtain ⟨offset', len', hmem⟩ := hhas
    have hlt : idx < a.received.length := by
      rw [h.length_received]
      exact hidx
    by_cases hpiece : idx = piece
    · subst hpiece
      simp [hlt]
    · rw [getElem?_set_ne hpiece]
      refine h.marked piece ⟨offset', len', ?_⟩
      simpa [record, Ne.symm hpiece] using hmem

theorem Fetch.Logged.copied (h : f.Logged) {offset len size : ℕ}
    (hsize : f.metadataSize = some size) (hlen : offset + len ≤ size) :
    (f.record [.copied idx offset len]).Logged where
  asks := h.asks.append nofun
  copies piece offset' len' hmem := by
    rcases mem_append.mp hmem with hmem | hmem
    · exact h.copies piece offset' len' hmem
    · obtain ⟨rfl, rfl, rfl⟩ : piece = idx ∧ offset' = offset ∧ len' = len := by
        simpa using hmem
      exact ⟨size, hsize, hlen⟩

theorem accept_sound (h : f.Assembling a)
    (hlogged : f.Logged) (resp : MetadataResponse) :
    (f.accept sha1Of a resp).SoundWith sha1Of (f.metadataSize.getD 0) := by
  fun_cases accept sha1Of f a resp with
  | case1 | case2 | case3 | case7 => exact h.sound_leave_err hlogged
  | case4 piece _ data _ _ _ hidx _ hdata _ a' hstore =>
    obtain ⟨buf, hbuf, hok⟩ := h.store_eq hidx hdata
    rw [Nat.not_le] at hidx
    obtain rfl := ok.inj (hok.symm.trans hstore)
    exact loopHead_sound (h.copied hidx hbuf)
      (hlogged.copied h.size (piece_in_bounds hidx))
  | case5 piece _ data _ _ _ hidx _ hdata _ e hstore
  | case6 piece _ data _ _ _ hidx _ hdata _ hstore =>
    obtain ⟨buf, -, hok⟩ := h.store_eq hidx hdata
    cases hok.symm.trans hstore
  | case8 => exact loopHead_sound h hlogged

/-! ### Every event -/

theorem Fetch.Assembling.consume (h : f.Assembling a) {p : Option Bytes}
    (hr : (f.consume r).Consumed (64 + 64 + numPieces a.totalSize) r.result)
    (hok : r.result = .ok (b, p))
    (hcopied : ∀ piece, Has r.effects piece → False) :
    (f.consume r).Assembling { a with budget := b } := by
  refine { h with spending := hr.spending b p hok, marked := ?_ }
  rintro piece ⟨offset, len, hmem⟩
  rcases mem_append.mp hmem with hmem | hmem
  · exact h.marked piece ⟨offset, len, hmem⟩
  · exact (hcopied piece ⟨offset, len, hmem⟩).elim

theorem readRound_not_has (stream : Reader) (piece : ℕ) :
    ¬ Has (readRound timeoutText frameText wanted stream b).effects piece := by
  rintro ⟨offset, len, hmem⟩
  revert hmem
  fun_cases readRound timeoutText frameText wanted stream b <;> simp

theorem pollResponse_sound (h : f.Assembling a) (hlogged : f.Logged) :
    (f.pollResponse sha1Of a).SoundWith sha1Of (f.metadataSize.getD 0) := by
  have hround : (f.consume (readMetadataResponse f.stream a.budget)).Consumed
      _ _ := readRound_consumed hlogged h.spending
  have hkeep {b p} (hok : (readMetadataResponse f.stream a.budget).result =
      .ok (b, p)) := h.consume hround hok (readRound_not_has f.stream)
  fun_cases pollResponse sha1Of f a with
  | case1 r _ b hok => exact sound_moveTo hround.logged (hkeep hok)
  | case2 r _ b payload hok _ resp hresp =>
    exact accept_sound (hkeep hok) hround.logged resp
  | case3 r _ b payload hok _ e hresp =>
    exact (hkeep hok).sound_leave_err hround.logged
  | case4 r _ b payload hok _ hresp =>
    exact absurd hresp (parseMetadataResponse_ne_panic payload)
  | case5 r f' e herr =>
    have hsize : f'.metadataSize = some a.totalSize.toNat := h.size
    have hlimit := hround.processed
    rw [← frameLimit_eq hsize] at hlimit
    have hbounded : f'.Bounded := ⟨hlimit, hround.read⟩
    exact sound_moveTo hround.logged ⟨hsize, hbounded.err⟩
  | case6 r _ hpanic => exact absurd hpanic hround.noPanic

theorem Fetch.Logged.not_has (h : f.Logged) (hnone : f.peerInfo = none)
    (piece : ℕ) : ¬ Has f.log piece := by
  rintro ⟨offset, len, hmem⟩
  obtain ⟨size, hsize, -⟩ := h.copies piece offset len hmem
  simp [metadataSize, hnone] at hsize

theorem resolve_sound (hnone : f.peerInfo = none)
    (hspending : f.Spending b.remaining 64) (hlogged : f.Logged)
    (info : PeerExtensionInfo) : (f.resolve b info).SoundWith sha1Of 0 := by
  have hlearned : ({ f with peerInfo := some info } : Fetch).Logged :=
    ⟨hlogged.asks, fun piece offset len hmem =>
      (hlogged.not_has hnone piece ⟨offset, len, hmem⟩).elim⟩
  obtain ⟨hread, hprocessed⟩ := hspending
  fun_cases resolve f b info with
  | case1 f' _ | case2 f' _ _ =>
    have hspending : f'.Spending b.remaining 64 := ⟨hread, hprocessed⟩
    exact sound_finish_err hlearned hspending.bounded
  | case3 f' theirId totalSize hsize _ =>
    refine sound_moveTo hlearned
      ⟨?_, ⟨hread, hprocessed⟩, hlogged.not_has hnone⟩
    simp [metadataSize, f', hsize]

theorem pollHandshake_sound (hnone : f.peerInfo = none)
    (hspending : f.Spending b.remaining 64) (hlogged : f.Logged) :
    (f.pollHandshake b).SoundWith sha1Of 0 := by
  have hround : (f.consume (readExtensionHandshake f.stream b)).Consumed
      _ _ := readRound_consumed hlogged hspending
  fun_cases pollHandshake f b with
  | case1 r _ b' hok =>
    exact sound_moveTo hround.logged ⟨hnone, hround.spending b' none hok⟩
  | case2 r f' b' payload hok info _ =>
    have hunknown : f'.peerInfo = none := hnone
    exact resolve_sound hunknown
      (hround.spending b' (some payload) hok) hround.logged info
  | case3 | case5 =>
    exact sound_finish_err hround.logged
      ⟨hround.processed.trans frameLimit_ge, hround.read⟩
  | case4 r _ b' payload hok hpanic =>
    exact absurd hpanic (parseHandshakePayload_ne_panic payload)
  | case6 r _ hpanic => exact absurd hpanic hround.noPanic

theorem Fetch.Agreed.sound_finish_err (h : f.Agreed t) (hlogged : f.Logged)
    : (f.finish (.err e)).SoundWith sha1Of 0 :=
  MetadataFetch.sound_finish_err hlogged h.spending.bounded

theorem observe_sound (h : f.Agreed t) (hlogged : f.Logged)
    (cur : ℕ) : (f.observe t cur).SoundWith sha1Of 0 := by
  unfold observe
  split
  next next hnext =>
    unfold nextInFlight at hnext
    split_ifs at hnext with hover hbudget
    injection hnext with hnext
    exact sound_moveTo hlogged ⟨h, hnext.symm, by omega⟩
  next => exact h.sound_finish_err hlogged

/-- The buffer and the marks of a new assembly are as large as its terms
say, and the budget is widened by the pieces and the slack. -/
theorem Fetch.Agreed.assembling (h : f.Agreed t) : f.Assembling t.assembly where
  size := h.size
  spending := by
    obtain ⟨hread, hprocessed⟩ := h.spending
    refine ⟨hread, ?_⟩
    simp only [Terms.assembly, widen, extNoiseFrameSlack]
    omega
  length_assembled := length_replicate
  length_received := length_replicate
  marked piece hhas := absurd hhas (h.nothingCopied piece)

theorem Fetch.Sound.at (h : f.Sound sha1Of) (hp : f.phase = p) :
    f.At sha1Of p := hp ▸ h.here

theorem reserved_eq (hp : f.phase = p) :
    f.reserved = (f.moveTo p).reserved := by
  subst hp
  rfl

theorem written_sound (h : f.Sound sha1Of) (failure : Option String) :
    (f.written failure).SoundWith sha1Of f.reserved := by
  fun_cases written f failure with
  | case1 hp =>
    obtain ⟨hnone, hspending⟩ := h.at hp
    rw [reserved_eq hp]
    exact sound_moveTo h.logged ⟨hnone, hspending⟩
  | case2 a hp =>
    have hassembling : f.Assembling a := h.at hp
    rw [reserved_eq hp]
    exact sound_moveTo h.logged hassembling
  | case3 | case6 => exact ⟨h, rfl⟩
  | case4 text hp =>
    rw [reserved_eq hp]
    exact sound_finish_err h.logged (h.at hp).2.bounded
  | case5 text a hp =>
    have hassembling : f.Assembling a := h.at hp
    rw [reserved_eq hp]
    exact hassembling.sound_leave_err h.logged

theorem abort_sound (h : f.Sound sha1Of) :
    f.abort.SoundWith sha1Of f.reserved := by
  fun_cases abort f with
  | case1 hp | case2 b hp =>
    rw [reserved_eq hp]
    exact sound_moveTo h.logged (h.at hp).2.bounded.aborted
  | case3 a hp | case4 a hp =>
    have hassembling : f.Assembling a := h.at hp
    rw [reserved_eq hp]
    exact sound_moveTo h.logged ⟨hassembling.size, hassembling.bounded.aborted⟩
  | case5 => exact ⟨h, rfl⟩

theorem polled_sound (h : f.Sound sha1Of) :
    (f.polled sha1Of).SoundWith sha1Of f.reserved := by
  fun_cases polled sha1Of f with
  | case1 b hp =>
    obtain ⟨hnone, hspending⟩ := h.at hp
    rw [reserved_eq hp]
    exact pollHandshake_sound hnone hspending h.logged
  | case2 a hp =>
    have hassembling : f.Assembling a := h.at hp
    rw [reserved_eq hp]
    exact pollResponse_sound hassembling h.logged
  | case3 => exact ⟨h, rfl⟩

/-- Every event keeps the invariant, moves the counter by what the exchange
gains or gives back, and never moves it above the budget. -/
theorem step_sound (h : f.Sound sha1Of) (c : InFlight) (e : Event) :
    (step sha1Of c f e).2.Sound sha1Of ∧
    (f.reserved ≤ c.value → c.value ≤ globalMetadataBudget →
      (step sha1Of c f e).1.value + f.reserved =
          c.value + (step sha1Of c f e).2.reserved ∧
        (step sha1Of c f e).1.value ≤ globalMetadataBudget) := by
  have hsame {g : Fetch} (hg : g.SoundWith sha1Of f.reserved) :
      g.Sound sha1Of ∧
      (f.reserved ≤ c.value → c.value ≤ globalMetadataBudget →
        c.value + f.reserved = c.value + g.reserved ∧
          c.value ≤ globalMetadataBudget) :=
    ⟨hg.1, fun _ hcap => ⟨by rw [hg.2], hcap⟩⟩
  fun_cases step sha1Of c f e with
  | case1 failure => exact hsame (written_sound h failure)
  | case2 => exact hsame (polled_sound h)
  | case3 observed t hp =>
    refine hsame ?_
    rw [reserved_eq hp]
    exact observe_sound (h.at hp) h.logged observed
  | case4 | case7 | case9 | case11 => exact hsame ⟨h, rfl⟩
  | case5 t next hp =>
    obtain ⟨hagreed, hnext, hbudget⟩ := h.at hp
    obtain ⟨hsound, hreserved⟩ :=
      loopHead_sound hagreed.assembling h.logged
    refine ⟨hsound, fun _ _ => ?_⟩
    rw [hreserved, hagreed.size, reserved_eq hp]
    exact ⟨hnext, hbudget⟩
  | case6 t cur next hp _ | case8 cur t _ next hp =>
    refine hsame ?_
    rw [reserved_eq hp]
    exact observe_sound (h.at hp).1 h.logged _
  | case10 bytes e hp =>
    refine ⟨(sound_moveTo (p := .ended e) h.logged (h.at hp).2).1,
      fun hheld hcap => ?_⟩
    have hbytes : f.reserved = bytes :=
      (reserved_eq hp).trans (congrArg (Option.getD · 0) (h.at hp).1)
    have hnone : (f.moveTo (.ended e)).reserved = 0 := rfl
    have hvalue : (c.fetchSub bytes).value =
        (c.value + 2 ^ 64 - bytes) % 2 ^ 64 := rfl
    unfold globalMetadataBudget at hcap ⊢
    rw [hnone, hvalue, hbytes]
    omega
  | case12 => exact hsame (abort_sound h)

theorem start_sound (infoHash : Digest) (addr : String) (anonymous : Bool)
    (stream : Reader) :
    (start infoHash addr anonymous stream).Sound sha1Of := by
  refine ⟨⟨?_, ?_⟩, rfl, rfl, le_rfl⟩
  · have hnil : AsksMissing [] := by
      intro before msg after hsplit
      simp at hsplit
    refine hnil.append (e := .wrote _) fun msg hmsg => .inl ?_
    injection hmsg with hmsg
    exact ⟨_, hmsg.symm⟩
  · intro piece offset len hmem
    simp [start] at hmem

end Steps

/-! ## Every run -/

/-- The amounts reserved are the advertised sizes of the exchanges that hold a
reservation. -/
theorem total_reserved (fetches : List Fetch) :
    Pool.total reserved fetches = ((fetches.filter holding).map
        fun f => f.metadataSize.getD 0).sum := by
  induction fetches with
  | nil => rfl
  | cons f fetches ih =>
    rw [Pool.total, map_cons, sum_cons, ← Pool.total, ih]
    cases hf : f.holding with
    | true | false => simp [reserved, hf]

/-- What an exchange may have done, at any point of its run: the frames it
processed, the one more it may have read before giving up, its copies, its
requests, and what it returned. -/
structure Fetch.Safe (sha1Of : Bytes → Digest) (f : Fetch) : Prop where
  processed : f.framesProcessed ≤ f.frameLimit
  read : f.framesRead ≤ f.framesProcessed + 1
  gaveUp : f.framesRead ≠ f.framesProcessed → f.ending.isSome
  copies : ∀ piece offset len, Effect.copied piece offset len ∈ f.log →
    ∃ size, f.metadataSize = some size ∧ offset + len ≤ size
  asks : AsksMissing f.log
  noPanic : f.ending ≠ some (.returned .panic)
  authentic : ∀ bytes, f.ending = some (.returned (.ok bytes)) →
    f.metadataSize = some bytes.length ∧ sha1Of bytes = f.infoHash

section Runs

variable {sha1Of : Bytes → Digest} {f : Fetch}

theorem Fetch.Sound.safe_of_open (h : f.Sound sha1Of)
    (hending : f.ending = none) (hread : f.framesRead = f.framesProcessed)
    (hprocessed : f.framesProcessed ≤ f.frameLimit) : f.Safe sha1Of where
  processed := hprocessed
  read := by omega
  gaveUp hne := absurd hread hne
  copies := h.logged.copies
  asks := h.logged.asks
  noPanic := by simp [hending]
  authentic := by simp [hending]

theorem Fetch.Sound.safe_of_closed (h : f.Sound sha1Of) {e : Ending}
    (hending : f.ending = some e) (hclosed : f.Closed sha1Of e) :
    f.Safe sha1Of where
  processed := hclosed.processed
  read := hclosed.read
  gaveUp _ := by simp [hending]
  copies := h.logged.copies
  asks := h.logged.asks
  noPanic hpanic := hclosed.noPanic (Option.some.inj (hending.symm.trans hpanic))
  authentic bytes hbytes :=
    hclosed.authentic bytes (Option.some.inj (hending.symm.trans hbytes))

theorem ending_eq {p : Phase} (hp : f.phase = p) :
    f.ending = (f.moveTo p).ending := by
  subst hp
  rfl

theorem Fetch.Sound.safe (h : f.Sound sha1Of) : f.Safe sha1Of := by
  have hlimit : 64 ≤ f.frameLimit := frameLimit_ge
  cases hp : f.phase with
  | greeting | awaitHandshake =>
    obtain ⟨-, hread, hprocessed⟩ := h.at hp
    exact h.safe_of_open (ending_eq hp) hread (by omega)
  | reserving t =>
    have hagreed : f.Agreed t := h.at hp
    exact h.safe_of_open (ending_eq hp) hagreed.spending.1
      hagreed.spending.bounded.1
  | swapping t cur next =>
    have hagreed : f.Agreed t := (h.at hp).1
    exact h.safe_of_open (ending_eq hp) hagreed.spending.1
      hagreed.spending.bounded.1
  | requesting a | awaitResponse a =>
    have hassembling : f.Assembling a := h.at hp
    exact h.safe_of_open (ending_eq hp) hassembling.spending.1
      hassembling.bounded.1
  | leaving bytes e => exact h.safe_of_closed (ending_eq hp) (h.at hp).2
  | ended e => exact h.safe_of_closed (ending_eq hp) (h.at hp)

/-- In every run of concurrent exchanges, whatever their peers send, every
exchange is safe, and the counter is the sum of the advertised sizes of the
exchanges that hold a reservation, within the budget. -/
theorem exchangeMetadata_bounded (sha1Of : Bytes → Digest)
    {s : Pool InFlight Fetch}
    (h : (Pool.system (behaviour sha1Of)).Reach idle s) :
    (∀ f ∈ s.parts, f.Safe sha1Of) ∧
      s.shared.value = ((s.parts.filter Fetch.holding).map
        fun f => f.metadataSize.getD 0).sum ∧
      s.shared.value ≤ globalMetadataBudget := by
  have hinit : ∀ f, (behaviour sha1Of).initial f → f.Sound sha1Of := by
    rintro f ⟨infoHash, addr, anonymous, stream, rfl⟩
    exact start_sound infoHash addr anonymous stream
  have hsound : ∀ f ∈ s.parts, f.Sound sha1Of :=
    Pool.forall_parts hinit (fun c f e hf _ => (step_sound hf c e).1) h
  have hcounter : s.shared.value = Pool.total Fetch.reserved s.parts ∧
      s.shared.value ≤ globalMetadataBudget := by
    refine Pool.balanced (P := Fetch.Sound sha1Of) rfl ?_
      (fun c f e hf _ => (step_sound hf c e).1)
      (fun c f e hf _ => (step_sound hf c e).2) h
    intro f hf
    refine ⟨hinit f hf, ?_⟩
    obtain ⟨infoHash, addr, anonymous, stream, rfl⟩ := hf
    rfl
  rw [total_reserved] at hcounter
  exact ⟨fun f hf => (hsound f hf).safe, hcounter⟩

/-- A digest that tells byte strings of different lengths apart. -/
def lengthDigest (b : Bytes) : Digest :=
  ⟨toBytesBe 20 b.length, length_toBytesBe 20 b.length⟩

/-- A peer that advertises five bytes of metadata and sends them after a
keep-alive. -/
def servingPeer : Reader where
  chunks :=
    [writeMessage (.extended 0
      (ascii "d1:md11:ut_metadatai3ee13:metadata_sizei5ee")),
     writeMessage .keepAlive,
     writeMessage (.extended 1
      (ascii "d8:msg_typei1e5:piecei0e10:total_sizei5eehello"))]
  ending := .silent

/-- A complete exchange with that peer. -/
def servedRun : List (Pool.Action Fetch Event) :=
  [.spawn (.start (lengthDigest (ascii "hello")) "peer" true servingPeer),
   .act 0 (.written none), .act 0 .polled, .act 0 (.load 0),
   .act 0 .exchange, .act 0 (.written none), .act 0 .polled, .act 0 .polled]

theorem exchangeMetadata_bounded_served :
    ∃ s, (Pool.system (behaviour lengthDigest)).Reach idle s ∧
      s.parts.map Fetch.ending = [some (.returned (.ok (ascii "hello")))] ∧
      s.shared.value = 5 ∧
      (∀ f ∈ s.parts, f.Safe lengthDigest) ∧
      s.shared.value = ((s.parts.filter Fetch.holding).map
        fun f => f.metadataSize.getD 0).sum ∧
      s.shared.value ≤ globalMetadataBudget := by
  have hreach : (Pool.system (behaviour lengthDigest)).Reach idle
      ((Pool.system (behaviour lengthDigest)).after idle servedRun) := by
    refine System.Reach.of_allowed ⟨⟨_, _, _, _, rfl⟩, trivial, trivial, ?_,
      trivial, trivial, trivial, trivial, trivial⟩
    exact mem_cons_self
  refine ⟨_, hreach, ?_, ?_, exchangeMetadata_bounded lengthDigest hreach⟩
  all_goals decide +kernel

end Runs

end RustyTorrent.Peer.MetadataFetch
