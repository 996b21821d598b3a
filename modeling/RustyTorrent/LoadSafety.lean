import RustyTorrent.Piece.ManagerSteps
import RustyTorrent.Storage.LayoutSpec

/-!
# Loading a torrent without unwinding

What can go wrong between the bytes of a torrent and a running download: the
loader itself, the layout under a root, the slices of every piece and the
tables of the piece manager.  The bounds that the loader checks carry through
all of it.  The one computation that is not bounded in advance is the sum of
the file lengths inside the loader, and it is the only thing that can unwind.
-/

namespace RustyTorrent

open Metainfo Storage Piece PieceManager

/-- Building the layout of `t` and slicing its pieces never unwinds. -/
def LayoutSafe (t : TorrentFile) : Prop :=
  ∀ root, Layout.fromTorrent root t ≠ .panic ∧
    ∀ l, Layout.fromTorrent root t = .ok l →
      ∀ i < l.numPieces, ∃ size, l.pieceSize i = .ok size ∧
        l.slicesForPiece i size ≠ .panic ∧
        ∀ begin length, begin + length ≤ size →
          l.slices (i * l.pieceLength + begin) length ≠ .panic

/-- Building the piece manager of `t` and listing the blocks of its pieces
never unwinds. -/
def ManagerSafe (t : TorrentFile) : Prop :=
  ∃ total pm, t.totalLength = .ok total ∧
    PieceManager.new t.info.pieceLength total t.numPieces = .ok pm ∧
    ∀ i < t.numPieces,
      pm.pieceSize i ≠ .panic ∧ pm.unfinishedBlocks i ≠ .panic ∧
      pm.reserveBlock i ≠ .panic ∧
      ∃ blocks, pm.numBlocks i = .ok blocks ∧
        ∀ b < blocks, pm.blockLength i b ≠ .panic

theorem layoutSafe_of_accepted {t : TorrentFile} (ht : t.info.Accepted) :
    LayoutSafe t := by
  intro root
  refine ⟨Layout.fromTorrent_ne_panic ht root, ?_⟩
  intro l hl i hi
  have hplaced := Layout.fromTorrent_placed ht hl
  have hend := hplaced.geometry.start_add_size_le hi
  refine ⟨hplaced.geometry.size i, hplaced.pieceSize_eq hi, ?_, ?_⟩
  · rw [hplaced.slicesForPiece_eq hi]
    simp
  · intro begin length hrange
    have hstart : hplaced.geometry.start i = i * l.pieceLength := rfl
    have htotal : hplaced.geometry.totalLength = l.totalLength := rfl
    rw [hplaced.slices_eq (by omega)]
    simp

theorem numPieces_lt_of_accepted {info : Info} (h : info.Accepted) :
    info.pieceHashes.length < 2 ^ 64 := by
  have hlt := h.total_lt
  have hle : info.files.lengths.sum / info.pieceLength ≤
      info.files.lengths.sum := Nat.div_le_self _ _
  rw [h.numPieces, Outcome.divCeil]
  split
  next => omega
  next hmod =>
    -- Rounding up only happens when the division was not by one.
    have hne : info.pieceLength ≠ 1 := by
      intro hone
      rw [hone, Nat.mod_one] at hmod
      exact hmod rfl
    have hhalf : info.files.lengths.sum / info.pieceLength ≤
        info.files.lengths.sum / 2 :=
      Nat.div_le_div_left (by have := h.pieceLength_pos; omega) (by omega)
    omega

theorem managerSafe_of_accepted {t : TorrentFile} (ht : t.info.Accepted) :
    ManagerSafe t := by
  have hcount : ht.geometry.numPieces < 2 ^ 64 := numPieces_lt_of_accepted ht
  have hfits := fresh_fits ht.pieceLength_le hcount
  refine ⟨t.info.files.lengths.sum, fresh ht.geometry,
    ht.totalLength_eq, new_eq hcount, ?_⟩
  intro i hi
  refine ⟨?_, hfits.unfinishedBlocks_ne_panic hi,
    hfits.reserveBlock_ne_panic hi, ht.geometry.blocks i,
    hfits.numBlocks_eq hi, ?_⟩
  · rw [hfits.pieceSize_eq hi]
    simp
  · intro b hb
    rw [hfits.blockLength_eq hi hb]
    simp

/-- Neither loader unwinds on `input`, and whatever they accept can be laid
out and managed without unwinding. -/
structure LoadsSafely (sha1Of : Bytes → Digest) (input : Bytes) : Prop where
  fromBytes : TorrentFile.fromBytes sha1Of input ≠ .panic
  fromInfoDict : ∀ hash trackers,
    TorrentFile.fromInfoDictBytes sha1Of input hash trackers ≠ .panic
  accepted : ∀ t, TorrentFile.fromBytes sha1Of input = .ok t ∨
      (∃ hash trackers, TorrentFile.fromInfoDictBytes sha1Of input hash
        trackers = .ok t) →
    LayoutSafe t ∧ ManagerSafe t

/-- Loading is safe for every input except those that declare file lengths
adding up to `2 ^ 64` or more and pass every check before the addition. -/
theorem loadsSafely_iff (sha1Of : Bytes → Digest) (input : Bytes)
    (hlen : input.length < 2 ^ 63) :
    LoadsSafely sha1Of input ↔
      ¬ OverflowingTorrent input ∧ ¬ OverflowingInfoDict input := by
  constructor
  · intro h
    refine ⟨?_, ?_⟩
    · intro hover
      exact h.fromBytes
        ((TorrentFile.fromBytes_eq_panic sha1Of (by omega)).mpr hover)
    · intro hover
      exact h.fromInfoDict (sha1Of input) []
        ((TorrentFile.fromInfoDictBytes_eq_panic sha1Of).mpr ⟨rfl, hover⟩)
  · rintro ⟨htorrent, hinfo⟩
    refine ⟨?_, ?_, ?_⟩
    · intro hpanic
      exact htorrent
        ((TorrentFile.fromBytes_eq_panic sha1Of (by omega)).mp hpanic)
    · intro hash trackers hpanic
      exact hinfo ((TorrentFile.fromInfoDictBytes_eq_panic sha1Of).mp hpanic).2
    · intro t ht
      have haccepted : t.info.Accepted := by
        rcases ht with ht | ⟨hash, trackers, ht⟩
        · exact TorrentFile.fromBytes_accepted sha1Of ht
        · exact TorrentFile.fromInfoDictBytes_accepted sha1Of ht
      exact ⟨layoutSafe_of_accepted haccepted,
        managerSafe_of_accepted haccepted⟩

theorem loadsSafely_iff_exampleInput : exampleInput.length < 2 ^ 63 ∧
      (LoadsSafely (fun _ => zeroDigest) exampleInput ↔
        ¬ OverflowingTorrent exampleInput ∧
          ¬ OverflowingInfoDict exampleInput) := by
  have hlen : exampleInput.length < 2 ^ 63 := by decide +kernel
  exact ⟨hlen, loadsSafely_iff (fun _ => zeroDigest) exampleInput hlen⟩

/-- Three files of `2 ^ 63 - 1`, `2 ^ 63 - 1` and two bytes. -/
def overflowingInfoBytes : Bytes :=
  ascii ("d5:filesld6:lengthi9223372036854775807e4:pathl1:aeed6:length" ++
    "i9223372036854775807e4:pathl1:beed6:lengthi2e4:pathl1:ceee" ++
    "4:name1:x12:piece lengthi16384e6:pieces0:e")

theorem loadsSafely_overflowing :
    TorrentFile.fromInfoDictBytes (fun _ => zeroDigest)
        overflowingInfoBytes zeroDigest [] = .panic ∧
      TorrentFile.fromBytes (fun _ => zeroDigest)
        (ascii "d4:info" ++ overflowingInfoBytes ++ ascii "e") =
          .panic := by
  decide +kernel

end RustyTorrent
