import RustyTorrent.Metainfo.WrittenRoot

/-!
# A magnet persisted as a torrent

`assemble_torrent_bytes` of `web.rs` puts the info dictionary of a magnet,
byte for byte, into a root dictionary with the magnet's trackers.  The loader
then reads it one level deeper than it was read on its own, so it comes back
as the same torrent exactly when a level is left.
-/

namespace RustyTorrent.Web

open Metainfo BencodeValue Outcome

def pushBstr (out s : Bytes) : Bytes := out ++ stringToBytes s

def assembleTorrentBytes (infoBytes : Bytes) (trackers : List Bytes) :
    Bytes :=
  let out := [asciiByte 'd']
  let out :=
    match trackers.head? with
    | some first => pushBstr (pushBstr out (ascii "announce")) first
    | none => out
  let out :=
    if trackers.isEmpty then out
    else
      let out := pushBstr out (ascii "announce-list") ++ [asciiByte 'l']
      let out := trackers.foldl
        (fun out t => pushBstr (out ++ [asciiByte 'l']) t ++ [asciiByte 'e'])
        out
      out ++ [asciiByte 'e']
  pushBstr out (ascii "info") ++ infoBytes ++ [asciiByte 'e']

/-! ## The root dictionary -/

theorem foldl_pushBstr (trackers : List Bytes) (out : Bytes) : trackers.foldl
        (fun out t => pushBstr (out ++ [asciiByte 'l']) t ++ [asciiByte 'e'])
        out =
      out ++ itemsToBytes (trackers.map singleTier) := by
  induction trackers generalizing out with
  | nil => simp [itemsToBytes]
  | cons t trackers ih =>
    rw [List.foldl_cons, ih]
    simp [itemsToBytes, singleTier, toBytes, pushBstr]

theorem assembleTorrentBytes_eq (infoBytes : Bytes) (trackers : List Bytes) :
    assembleTorrentBytes infoBytes trackers =
      asciiByte 'd' :: (entriesToBytes (rootEntries trackers.head? trackers) ++
        (stringToBytes (ascii "info") ++ (infoBytes ++ [asciiByte 'e']))) := by
  cases trackers with
  | nil => simp [assembleTorrentBytes, rootEntries, entriesToBytes, pushBstr]
  | cons first rest =>
    simp only [assembleTorrentBytes, foldl_pushBstr]
    simp [rootEntries, entriesToBytes, toBytes, pushBstr]

/-! ## Reloading -/

/-- A torrent built from a bare info dictionary is reloaded from its
persisted form exactly when no value in the dictionary is enclosed by as many
containers as the reader may enter. -/
theorem assembled_reloads_iff (sha1Of : Bytes → Digest) (infoBytes : Bytes)
    (trackers : List Bytes) (t : TorrentFile)
    (hutf : ∀ url ∈ trackers, Utf8.fromUtf8 url = .ok url)
    (hlen : (assembleTorrentBytes infoBytes trackers).length < 2 ^ 63)
    (h : TorrentFile.fromInfoDictBytes sha1Of infoBytes (sha1Of infoBytes)
      trackers = .ok t) :
    (∃ t', TorrentFile.fromBytes sha1Of
        (assembleTorrentBytes infoBytes trackers) = .ok t' ∧
      t'.infoHash = t.infoHash ∧ t'.info = t.info ∧
      t'.trackers = t.trackers) ↔
      ∃ v : BencodeValue, v.ReadFrom infoBytes ∧ v.enclosure < maxDepth := by
  simp only [TorrentFile.fromInfoDictBytes, bind_eq_ok,
    pure_eq, ok.injEq, parseAll_iff] at h
  obtain ⟨-, -, v, ⟨hv, -⟩, info, hinfo, rfl⟩ := h
  have hannounced : ∀ a ∈ trackers.head?, Utf8.fromUtf8 a = .ok a :=
    fun a ha => hutf a (List.mem_of_head? ha)
  have hload := TorrentFile.fromBytes_rootEntries sha1Of
    (assembleTorrentBytes_eq infoBytes trackers) hannounced hutf hv hlen
  constructor
  · rintro ⟨t', ht', -⟩
    exact ⟨v, hv, ((hload t').mp ht').1⟩
  · rintro ⟨w, hw, henc⟩
    have hsame : infoBytes ++ [] = infoBytes ++ [] := rfl
    obtain ⟨rfl, -, -⟩ := hw.unique hv hsame
    refine ⟨_, (hload _).mpr ⟨henc, info, hinfo, rfl⟩, rfl, rfl, ?_⟩
    rw [TorrentFile.trackers_singleTiers rfl rfl]
    cases trackers with
    | nil => rfl
    | cons first rest =>
      simp [TorrentFile.trackers, foldl_pushTracker]

/-- An info dictionary whose unknown entry `a` holds the given number of
nested lists. -/
def nestedInfo (depth : ℕ) : Bytes :=
  ascii "d1:a" ++ List.replicate depth (asciiByte 'l') ++
    List.replicate depth (asciiByte 'e') ++
    ascii "6:lengthi1e4:name1:x12:piece lengthi1e6:pieces20:" ++
    List.replicate 20 0 ++ ascii "e"

/-- The torrent with one file `x` of one byte that a magnet with the given
tiers describes. -/
def oneByteMagnet (announceList : List (List Bytes)) : TorrentFile where
  infoHash := zeroDigest
  announce := none
  announceList := announceList
  info := {
    name := ascii "x", pieceLength := 1, pieceHashes := [zeroDigest],
    files := .single 1, isPrivate := false }

theorem assembled_reloads_iff_flat :
    (∃ t', TorrentFile.fromBytes (fun _ => zeroDigest)
        (assembleTorrentBytes (nestedInfo 1) [ascii "udp://t"]) = .ok t' ∧
      t'.infoHash = (oneByteMagnet [[ascii "udp://t"]]).infoHash ∧
      t'.info = (oneByteMagnet [[ascii "udp://t"]]).info ∧
      t'.trackers = (oneByteMagnet [[ascii "udp://t"]]).trackers) ↔
      ∃ v : BencodeValue, v.ReadFrom (nestedInfo 1) ∧ v.enclosure < maxDepth :=
  assembled_reloads_iff (fun _ => zeroDigest) (nestedInfo 1)
    [ascii "udp://t"] (oneByteMagnet [[ascii "udp://t"]])
    (by decide +kernel) (by decide +kernel) (by decide +kernel)

/-- With a hundred nested lists the info dictionary is accepted on its own and
refused when it is read inside the root dictionary. -/
theorem nestedInfo_not_reloaded :
    TorrentFile.fromInfoDictBytes (fun _ => zeroDigest) (nestedInfo 100)
        zeroDigest [] = .ok (oneByteMagnet []) ∧
    TorrentFile.fromBytes (fun _ => zeroDigest)
        (assembleTorrentBytes (nestedInfo 100) []) =
      .err (.bencode "nesting exceeds max depth 100") := by
  constructor <;> decide +kernel

end RustyTorrent.Web
