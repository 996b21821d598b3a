import RustyTorrent.Metainfo.BencodeRoundTrip
import RustyTorrent.Metainfo.InfoSlice

/-!
# Loading a root dictionary that was written

Both writers of `.torrent` files put the tracker entries, printed by the
encoder, before an info value, and a root dictionary of that form is loaded
exactly when its info value is accepted one level below the root.
-/

namespace RustyTorrent.Metainfo

open BencodeValue Outcome List TorrentFile

/-! ## Walking and loading -/

variable {input text : Bytes} {v : BencodeValue} {announced : Option Bytes}
  {tiers : List Bytes}

/-- On entries as the writer prints them the walk reaches a value under `info`
that follows them. -/
theorem findInfoLoop_written {front tail : Bytes}
    {before : List (Bytes × BencodeValue)}
    (hinput : input = front ++ (entriesToBytes before ++
      (stringToBytes (ascii "info") ++ (text ++ tail))))
    (hwf : EntriesWellFormed before) (hv : v.ReadFrom text)
    (henc : v.enclosure ≤ maxDepth)
    (hbefore : ∀ e ∈ before, e.1 ≠ ascii "info" ∧ e.2.enclosure ≤ maxDepth)
    (hlen : input.length < 2 ^ 64) {fuel : ℕ} (hfuel : before.length < fuel) :
    findInfoLoop input fuel front.length = .ok text := by
  obtain ⟨fuel, rfl⟩ := Nat.exists_eq_succ_of_ne_zero (by omega : fuel ≠ 0)
  induction before generalizing front fuel with
  | nil =>
    rw [entriesToBytes, nil_append] at hinput
    have hkey : StringText (ascii "info") (stringToBytes (ascii "info")) :=
      stringText_stringToBytes (by decide)
    refine (findInfoLoop_eq_ok hinput hkey hv henc).mpr
      ⟨digitFirst_stringToBytes _, ?_, ?_⟩
    · rw [hinput] at hlen
      simp only [length_append] at hlen ⊢
      omega
    · rw [if_pos rfl]
  | cons e before ih =>
    obtain ⟨k, w⟩ := e
    rw [EntriesWellFormed] at hwf
    obtain ⟨hk, hw, hwf⟩ := hwf
    obtain ⟨hne, hwenc⟩ := hbefore (k, w) (by simp)
    have hentry : input = front ++ (stringToBytes k ++ (w.toBytes ++
        (entriesToBytes before ++
          (stringToBytes (ascii "info") ++ (text ++ tail))))) := by
      rw [hinput, entriesToBytes]
      simp only [append_assoc]
    refine (findInfoLoop_eq_ok hentry (stringText_stringToBytes hk)
      (readFrom_toBytes w hw) hwenc).mpr ⟨digitFirst_stringToBytes _, ?_, ?_⟩
    · rw [hentry] at hlen
      simp only [length_append] at hlen ⊢
      omega
    · rw [if_neg hne]
      obtain ⟨fuel, rfl⟩ :=
        Nat.exists_eq_succ_of_ne_zero
          (by rw [length_cons] at hfuel; omega : fuel ≠ 0)
      refine ih ?_ hwf (fun e he => hbefore e (by simp [he])) fuel
        (by simpa using hfuel)
      simpa using hentry

/-- Loading a root dictionary whose entries before `info` were written by the
encoder and whose info value is spelled `text`. -/
theorem TorrentFile.fromBytes_written (sha1Of : Bytes → Digest)
    {before : List (Bytes × BencodeValue)}
    (hinput : input = asciiByte 'd' :: (entriesToBytes before ++
      (stringToBytes (ascii "info") ++ (text ++ [asciiByte 'e']))))
    (hwf : EntriesWellFormed before)
    (hsorted : SortedMap.Sorted (before ++ [(ascii "info", v)]))
    (hv : v.ReadFrom text) (hbefore : ∀ e ∈ before, e.2.enclosure < maxDepth)
    (hlen : input.length < 2 ^ 64) (t : TorrentFile) :
    fromBytes sha1Of input = .ok t ↔ v.enclosure < maxDepth ∧
        fromValue (.dict (before ++ [(ascii "info", v)]))
          (sha1Of text) = .ok t := by
  have hroot : (dict
      (before ++ [(ascii "info", v)])).ReadFrom input := by
    rw [ReadFrom]
    refine ⟨hsorted, entriesToBytes before ++
      (stringToBytes (ascii "info") ++ text), by simp [hinput], ?_⟩
    rw [entriesReadFrom_append]
    refine ⟨_, _, rfl, entriesReadFrom_entriesToBytes before hwf, ?_⟩
    rw [EntriesReadFrom]
    refine ⟨_, text, [], by simp, stringText_stringToBytes (by decide), hv, ?_⟩
    rw [EntriesReadFrom]
  have hdepth : (dict
      (before ++ [(ascii "info", v)])).enclosure ≤ maxDepth ↔
        v.enclosure < maxDepth := by
    rw [enclosure, entriesEnclosure_le_iff]
    constructor
    · intro h
      exact h (ascii "info", v) (by simp)
    · intro h e he
      rcases mem_append.mp he with he | he
      · exact hbefore e he
      · rw [mem_singleton.mp he]
        exact h
  by_cases henc : v.enclosure < maxDepth
  · have hslice : findInfoSlice input = .ok text := by
      have hfront : input = [asciiByte 'd'] ++ (entriesToBytes before ++
          (stringToBytes (ascii "info") ++ (text ++ [asciiByte 'e']))) :=
        hinput
      have hfuel := (entriesReadFrom_entriesToBytes before hwf).length_le
      rw [findInfoSlice, if_neg (by simp [hinput])]
      refine findInfoLoop_written hfront hwf hv (Nat.le_of_lt henc) ?_ hlen ?_
      · intro e he
        exact ⟨hsorted.ne_of_append_cons e he, Nat.le_of_lt (hbefore e he)⟩
      · rw [hinput]
        simp only [length_cons, length_append]
        omega
    rw [fromBytes,
      parseAll_iff.mpr ⟨hroot, hdepth.mpr henc⟩, ok_bind,
      computeInfoHash, hslice]
    simp [henc]
  · constructor
    · intro h
      obtain ⟨root, hparse, -⟩ := bind_eq_ok.mp h
      obtain ⟨hread, hle⟩ := parseAll_iff.mp hparse
      -- The input spells one value only, and that one is nested too deep.
      have heq : input ++ [] = input ++ [] := rfl
      obtain ⟨rfl, -, -⟩ := hread.unique hroot heq
      exact absurd (hdepth.mp hle) henc
    · intro h
      exact absurd h.1 henc

/-! ## The tracker entries -/

/-- The entries before `info`: the announced tracker if there is one, and the
others each in a tier of its own. -/
def rootEntries (announced : Option Bytes) (tiers : List Bytes) :
    List (Bytes × BencodeValue) :=
  (announced.map fun a => (ascii "announce", BencodeValue.bytes a)).toList ++
    if tiers.isEmpty then []
    else [(ascii "announce-list", .list (tiers.map singleTier))]

theorem mem_rootEntries
    {e : Bytes × BencodeValue} (h : e ∈ rootEntries announced tiers) :
    (∃ a, e = (ascii "announce", .bytes a)) ∨
      e = (ascii "announce-list", .list (tiers.map singleTier)) := by
  rcases mem_append.mp h with h | h
  · rw [Option.mem_toList, Option.map_eq_some_iff] at h
    obtain ⟨a, -, rfl⟩ := h
    exact Or.inl ⟨a, rfl⟩
  · split at h
    · simp at h
    · exact Or.inr (mem_singleton.mp h)

theorem nested_rootEntries :
    ∀ e ∈ rootEntries announced tiers, Nested 2 e.2 := by
  intro e he
  rcases mem_rootEntries he with ⟨a, rfl⟩ | rfl
  · exact nested_bytes 2 a
  · refine nested_list fun v hv => ?_
    obtain ⟨t, -, rfl⟩ := mem_map.mp hv
    exact nested_list (by simp)

theorem sorted_rootEntries (announced : Option Bytes) (tiers : List Bytes)
    (v : BencodeValue) :
    SortedMap.Sorted (rootEntries announced tiers ++ [(ascii "info", v)]) := by
  have hlist : ascii "announce-list" < ascii "info" := by decide
  have hannounce : ascii "announce" < ascii "announce-list" := by decide
  have hinfo : ascii "announce" < ascii "info" := by decide
  cases announced with
  | none =>
    cases tiers with
    | nil => simp [rootEntries, SortedMap.Sorted]
    | cons t tiers => simp [rootEntries, SortedMap.Sorted, hlist]
  | some a =>
    cases tiers with
    | nil => simp [rootEntries, SortedMap.Sorted, hinfo]
    | cons t tiers =>
      simp [rootEntries, SortedMap.Sorted, hlist, hannounce, hinfo]

theorem readAnnounce_rootEntries
    (hutf : ∀ a ∈ announced, Utf8.fromUtf8 a = .ok a) (tiers : List Bytes)
    (v : BencodeValue) :
    readAnnounce (rootEntries announced tiers ++ [(ascii "info", v)]) =
      .ok announced := by
  cases announced with
  | none =>
    cases tiers with
    | nil => rfl
    | cons t tiers => rfl
  | some a =>
    have hstr : (bytes a).asStr = .ok a :=
      asStr_eq_ok.mpr ⟨rfl, hutf a rfl⟩
    simp [readAnnounce, rootEntries, SortedMap.get, hstr]

theorem readAnnounceList_rootEntries (announced : Option Bytes)
    (hutf : ∀ url ∈ tiers, Utf8.fromUtf8 url = .ok url) (v : BencodeValue) :
    readAnnounceList (rootEntries announced tiers ++ [(ascii "info", v)]) =
      .ok (tiers.map fun url => [url]) := by
  have htiers := traverse_readTier_singleTier hutf
  cases tiers with
  | nil =>
    cases announced with
    | none => rfl
    | some a => rfl
  | cons t tiers =>
    have hget : SortedMap.get (rootEntries announced (t :: tiers) ++
        [(ascii "info", v)]) (ascii "announce-list") =
          some (.list ((t :: tiers).map singleTier)) := by
      cases announced with
      | none => rfl
      | some a => rfl
    rw [readAnnounceList, hget]
    exact htiers

/-- Loading a written root dictionary: it succeeds exactly when its info value
leaves a level for the root and is accepted, and gives back the trackers. -/
theorem TorrentFile.fromBytes_rootEntries (sha1Of : Bytes → Digest)
    (hinput : input = asciiByte 'd' ::
      (entriesToBytes (rootEntries announced tiers) ++
        (stringToBytes (ascii "info") ++ (text ++ [asciiByte 'e']))))
    (hannounced : ∀ a ∈ announced, Utf8.fromUtf8 a = .ok a)
    (htiers : ∀ url ∈ tiers, Utf8.fromUtf8 url = .ok url) (hv : v.ReadFrom text)
    (hlen : input.length < 2 ^ 63) (t : TorrentFile) :
    fromBytes sha1Of input = .ok t ↔
      v.enclosure < maxDepth ∧ ∃ info, Info.fromValue v = .ok info ∧
        t = { infoHash := sha1Of text, announce := announced,
              announceList := tiers.map fun url => [url], info } := by
  have hwf : EntriesWellFormed (rootEntries announced tiers) := by
    apply entriesWellFormed_of_length _
      (entriesOrdered_of_forall fun e he => (nested_rootEntries e he).1)
    rw [hinput, length_cons, length_append] at hlen
    omega
  have hsorted := sorted_rootEntries announced tiers v
  rw [fromBytes_written sha1Of hinput hwf hsorted hv
    (fun e he => (nested_rootEntries e he).2.trans_lt (by decide)) (by omega)
    t]
  simp only [fromValue, asDict, ok_bind,
    readAnnounce_rootEntries hannounced, readAnnounceList_rootEntries _ htiers,
    field, hsorted.get_append_cons, Outcome.ofOption, bind_eq_ok,
    pure_eq, ok.injEq]
  constructor
  all_goals
    rintro ⟨henc, info, hinfo, rfl⟩
    exact ⟨henc, info, hinfo, rfl⟩

end RustyTorrent.Metainfo
