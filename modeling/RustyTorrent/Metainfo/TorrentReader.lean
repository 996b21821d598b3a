import RustyTorrent.Metainfo.Torrent
import RustyTorrent.Support.Geometry

/-!
# What the torrent loader accepts

One specification for each reading function of the loader.  The two results
that the rest of the development uses are `Info.fromValue_accepted`, which
collects what every accepted info dictionary satisfies, and
`Info.fromValue_eq_panic`, which says exactly which dictionaries make the
loader unwind: those that pass every check before the lengths are added up and
whose lengths do not fit in 64 bits.
-/

namespace RustyTorrent.Metainfo

open UnixPath BencodeValue Outcome List Info TorrentFile SortedMap Utf8

/-! ## Accessors -/

namespace BencodeValue

variable {v : BencodeValue}

theorem asInt_eq_ok {i : Int64} : v.asInt = .ok i ↔ v = .int i := by
  cases v with
  | int j => simp [asInt]
  | _ => simp [asInt, bencodeErr]

theorem asBytes_eq_ok {b : Bytes} : v.asBytes = .ok b ↔ v = .bytes b := by
  cases v with
  | bytes c => simp [asBytes]
  | _ => simp [asBytes, bencodeErr]

theorem asList_eq_ok {items : List BencodeValue} :
    v.asList = .ok items ↔ v = .list items := by
  cases v with
  | list l => simp [asList]
  | _ => simp [asList, bencodeErr]

theorem asDict_eq_ok {d : List (Bytes × BencodeValue)} :
    v.asDict = .ok d ↔ v = .dict d := by
  cases v with
  | dict m => simp [asDict]
  | _ => simp [asDict, bencodeErr]

section

variable (v : BencodeValue)

@[simp] theorem asInt_ne_panic : v.asInt ≠ .panic := by
  cases v <;> simp [asInt, bencodeErr]

@[simp] theorem asBytes_ne_panic : v.asBytes ≠ .panic := by
  cases v <;> simp [asBytes, bencodeErr]

@[simp] theorem asList_ne_panic : v.asList ≠ .panic := by
  cases v <;> simp [asList, bencodeErr]

@[simp] theorem asDict_ne_panic : v.asDict ≠ .panic := by
  cases v <;> simp [asDict, bencodeErr]

end

theorem asStr_eq_ok {s : Bytes} :
    v.asStr = .ok s ↔ v = .bytes s ∧ fromUtf8 s = .ok s := by
  simp only [asStr, bind_eq_ok, asBytes_eq_ok]
  constructor
  · rintro ⟨b, rfl, h⟩
    cases hutf : fromUtf8 b with
    | error e => simp [hutf, bencodeErr] at h
    | ok t =>
      simp only [hutf, ok.injEq] at h
      obtain rfl := fromUtf8_eq_ok hutf
      subst h
      exact ⟨rfl, hutf⟩
  · rintro ⟨rfl, hutf⟩
    exact ⟨s, rfl, by simp [hutf]⟩

@[simp] theorem asStr_ne_panic (v : BencodeValue) : v.asStr ≠ .panic := by
  refine bind_ne_panic v.asBytes_ne_panic fun b _ => ?_
  cases fromUtf8 b with
  | error e => simp [bencodeErr]
  | ok t => simp

end BencodeValue

variable {d : List (Bytes × BencodeValue)} {v : BencodeValue} {n : ℕ}
  {info : Info} {input : Bytes}

theorem field_eq_ok {key missing : String} :
    field d key missing = .ok v ↔ get d (ascii key) = some v :=
  ofOption_eq_ok

@[simp] theorem field_ne_panic (d : List (Bytes × BencodeValue))
    (key missing : String) : field d key missing ≠ .panic :=
  ofOption_ne_panic _ _

theorem unsignedField_eq_ok {key missing negative : String} :
    unsignedField d key missing negative = .ok n ↔
      ∃ i : Int64, get d (ascii key) = some (.int i) ∧ i.toInt = n := by
  simp only [unsignedField, bind_eq_ok, field_eq_ok, asInt_eq_ok, unsignedOr]
  constructor
  · rintro ⟨v, hv, i, rfl, h⟩
    refine ⟨i, hv, ?_⟩
    split at h
    · rw [ok.injEq] at h
      omega
    · simp [bencodeErr] at h
  · rintro ⟨i, hv, hi⟩
    refine ⟨_, hv, i, rfl, ?_⟩
    rw [if_pos (by omega), ok.injEq]
    omega

@[simp] theorem unsignedField_ne_panic (d : List (Bytes × BencodeValue))
    (key missing negative : String) :
    unsignedField d key missing negative ≠ .panic := by
  have hunsigned (i : Int64) : unsignedOr negative i ≠ .panic := by
    unfold unsignedOr
    split
    · simp
    · simp [bencodeErr]
  simp [unsignedField, hunsigned, bind_eq_panic]

/-! ## Names and paths -/

/-- A plain name without a backslash either. -/
structure SafeComponent (s : Bytes) : Prop where
  plain : PlainName s
  no_backslash : asciiByte '\\' ∉ s

theorem isUnsafePathComponent_eq_false {s : Bytes} :
    isUnsafePathComponent s = false ↔ SafeComponent s := by
  simp only [isUnsafePathComponent, Bool.or_eq_false_iff,
    isEmpty_eq_false_iff, decide_eq_false_iff_not,
    contains_eq_mem]
  constructor
  · rintro ⟨⟨⟨⟨hnil, hdot⟩, hdotDot⟩, hslash⟩, hback⟩
    exact ⟨⟨hnil, hdot, hdotDot, hslash⟩, hback⟩
  · rintro ⟨⟨hnil, hdot, hdotDot, hslash⟩, hback⟩
    exact ⟨⟨⟨⟨hnil, hdot⟩, hdotDot⟩, hslash⟩, hback⟩

/-- A name the loader takes: valid UTF-8 and safe to join. -/
def ReadableName (s : Bytes) : Prop :=
  Utf8.fromUtf8 s = .ok s ∧ SafeComponent s

theorem readSegment_eq_ok {s : Bytes} :
    readSegment v = .ok s ↔ v = .bytes s ∧ ReadableName s := by
  simp only [readSegment, bind_eq_ok, asStr_eq_ok,
    check_eq_ok, pure_eq, ok.injEq,
    Bool.not_eq_true', isUnsafePathComponent_eq_false]
  constructor
  · rintro ⟨t, ⟨rfl, hutf⟩, -, hsafe, rfl⟩
    exact ⟨rfl, hutf, hsafe⟩
  · rintro ⟨rfl, hutf, hsafe⟩
    exact ⟨s, ⟨rfl, hutf⟩, (), hsafe, rfl⟩

@[simp] theorem readSegment_ne_panic (v : BencodeValue) : readSegment v ≠ .panic := by
  simp [readSegment, bind_eq_panic]

/-! ## File lists -/

/-- `v` describes a file of the given length whose path segments are all
readable names. -/
def DeclaresFile (v : BencodeValue) (e : FileEntry) : Prop :=
  ∃ (fd : List (Bytes × BencodeValue)) (i : Int64)
      (segments : List Bytes),
    v = .dict fd ∧
    SortedMap.get fd (ascii "length") = some (.int i) ∧
    i.toInt = e.length ∧
    SortedMap.get fd (ascii "path") = some (.list (segments.map .bytes)) ∧
    (∀ s ∈ segments, ReadableName s) ∧
    e.path = relative segments

theorem foldl_push_readable {segments : List Bytes}
    (h : ∀ s ∈ segments, ReadableName s) :
    segments.foldl push [] = relative segments := by
  have hplain : ∀ s ∈ segments, PlainName s := fun s hs => (h s hs).2.plain
  have hnone : ∀ n ∈ ([] : List (List UInt8)), PlainName n := by simp
  exact foldl_push_plain hnone hplain

theorem traverse_readSegment_eq_ok {vs : List BencodeValue}
    {segments : List Bytes} :
    Outcome.traverse readSegment vs = .ok segments ↔
      vs = segments.map .bytes ∧ ∀ s ∈ segments, ReadableName s := by
  rw [traverse_eq_ok]
  constructor
  · intro h
    induction h with
    | nil => simp
    | cons hv _ ih =>
      obtain ⟨rfl, hs⟩ := readSegment_eq_ok.mp hv
      obtain ⟨rfl, hrest⟩ := ih
      refine ⟨rfl, ?_⟩
      intro t ht
      rcases mem_cons.mp ht with rfl | ht
      · exact hs
      · exact hrest t ht
  · rintro ⟨rfl, hs⟩
    induction segments with
    | nil => exact List.Forall₂.nil
    | cons s segments ih =>
      refine List.Forall₂.cons ?_ (ih fun t ht => hs t (by simp [ht]))
      exact readSegment_eq_ok.mpr ⟨rfl, hs s (by simp)⟩

theorem readFile_eq_ok {e : FileEntry} :
    readFile v = .ok e ↔ DeclaresFile v e := by
  simp only [readFile, bind_eq_ok, asDict_eq_ok,
    unsignedField_eq_ok, field_eq_ok, asList_eq_ok,
    traverse_readSegment_eq_ok, pure_eq, ok.injEq]
  constructor
  · rintro ⟨fd, rfl, n, ⟨i, hlen, hi⟩, pv, hpath, vs, rfl, segments,
      ⟨rfl, hs⟩, rfl⟩
    exact ⟨fd, i, segments, rfl, hlen, hi, hpath, hs, foldl_push_readable hs⟩
  · rintro ⟨fd, i, segments, rfl, hlen, hi, hpath, hs, he⟩
    refine ⟨fd, rfl, e.length, ⟨i, hlen, hi⟩, _, hpath, _, rfl, segments,
      ⟨rfl, hs⟩, ?_⟩
    rw [foldl_push_readable hs, ← he]

@[simp] theorem readFile_ne_panic (v : BencodeValue) : readFile v ≠ .panic := by
  simp [readFile, bind_eq_panic]

/-- `d` holds a `files` list with the given entries, or a `length` only. -/
def DeclaresFiles (d : List (Bytes × BencodeValue)) : TorrentFiles → Prop
  | .multi entries => ∃ list,
      SortedMap.get d (ascii "files") = some (.list list) ∧
      List.Forall₂ DeclaresFile list entries
  | .single length => SortedMap.get d (ascii "files") = none ∧
      ∃ i : Int64, SortedMap.get d (ascii "length") = some (.int i) ∧
        i.toInt = length

theorem readFiles_eq_ok {files : TorrentFiles} :
    readFiles d = .ok files ↔ DeclaresFiles d files := by
  unfold readFiles
  cases hget : get d (ascii "files") with
  | none =>
    simp only [bind_eq_ok, unsignedField_eq_ok, pure_eq, ok.injEq]
    cases files with
    | multi entries | single length => simp [DeclaresFiles, hget]
  | some filesV =>
    simp only [bind_eq_ok, asList_eq_ok, traverse_eq_ok,
      readFile_eq_ok, pure_eq, ok.injEq]
    cases files with
    | multi entries | single length => simp [DeclaresFiles, hget]

@[simp] theorem readFiles_ne_panic (d : List (Bytes × BencodeValue)) :
    readFiles d ≠ .panic := by
  unfold readFiles
  cases get d (ascii "files") with
  | none | some filesV => simp [bind_eq_panic]

/-! ## The info dictionary -/

/-- `v` is a dictionary whose fields the loader reads as `info`, before any
comparison between them. -/
structure DeclaresInfo (d : List (Bytes × BencodeValue)) (info : Info) :
    Prop where
  name : SortedMap.get d (ascii "name") = some (.bytes info.name)
  readable : ReadableName info.name
  pieceLength : ∃ i : Int64,
    SortedMap.get d (ascii "piece length") = some (.int i) ∧
      i.toInt = info.pieceLength
  pieceLength_pos : 0 < info.pieceLength
  pieceLength_le : info.pieceLength ≤ maxPieceLength
  pieces : ∃ raw, SortedMap.get d (ascii "pieces") = some (.bytes raw) ∧
    raw.length % 20 = 0 ∧ info.pieceHashes = digests raw
  files : DeclaresFiles d info.files
  isPrivate : info.isPrivate = readPrivate d

theorem Info.read_eq_ok : read v = .ok info ↔
      ∃ d, v = .dict d ∧ DeclaresInfo d info := by
  simp only [read, bind_eq_ok, asDict_eq_ok, field_eq_ok,
    asStr_eq_ok, check_eq_ok, unsignedField_eq_ok, asBytes_eq_ok,
    readFiles_eq_ok, pure_eq, ok.injEq, Bool.not_eq_true',
    isUnsafePathComponent_eq_false, decide_eq_true_eq]
  constructor
  · rintro ⟨d, rfl, nv, hname, name, ⟨rfl, hutf⟩, -, hsafe, pl, hpl, -,
      hbound, pv, hpieces, raw, rfl, -, hraw, files, hfiles, rfl⟩
    refine ⟨d, rfl, hname, ⟨hutf, hsafe⟩, hpl, ?_, ?_, ⟨raw, hpieces, hraw,
      rfl⟩, hfiles, rfl⟩
    all_goals
      dsimp only
      omega
  · rintro ⟨d, rfl, h⟩
    obtain ⟨raw, hpieces, hraw, hhashes⟩ := h.pieces
    have hpos := h.pieceLength_pos
    have hle := h.pieceLength_le
    refine ⟨d, rfl, _, h.name, info.name, ⟨rfl, h.readable.1⟩, (),
      h.readable.2, info.pieceLength, h.pieceLength, (), by omega, _,
      hpieces, raw, rfl, (), hraw, info.files, h.files, ?_⟩
    rw [← hhashes, ← h.isPrivate]

theorem Info.read_ne_panic (v : BencodeValue) : read v ≠ .panic := by
  simp [read, bind_eq_panic]

theorem int64_length_lt {i : Int64} (h : i.toInt = n) : n < 2 ^ 63 := by
  have := Int64.toInt_lt i
  omega

theorem TorrentFiles.totalLength_eq
    {files : TorrentFiles} (h : DeclaresFiles d files) :
    files.totalLength =
      if files.lengths.sum < 2 ^ 64 then .ok files.lengths.sum
      else .panic := by
  cases files with
  | single length =>
    obtain ⟨-, i, -, hi⟩ := h
    have hlt := int64_length_lt hi
    have hfits : length < 2 ^ 64 := by omega
    rw [lengths, sum_singleton, if_pos hfits, totalLength]
  | multi entries =>
    rw [totalLength, checkedSum_eq _ _ _ (by norm_num), Nat.zero_add]
    rfl

/-- What holds of every accepted info dictionary. -/
structure Info.Accepted (info : Info) : Prop where
  readable : ReadableName info.name
  pieceLength_pos : 0 < info.pieceLength
  pieceLength_le : info.pieceLength ≤ maxPieceLength
  total_pos : 0 < info.files.lengths.sum
  total_lt : info.files.lengths.sum < 2 ^ 64
  numPieces : info.pieceHashes.length =
    Outcome.divCeil info.files.lengths.sum info.pieceLength
  paths : ∀ files, info.files = .multi files → ∀ e ∈ files,
    ∃ segments, (∀ s ∈ segments, ReadableName s) ∧
      e.path = relative segments

theorem DeclaresFiles.paths {files : List FileEntry}
    (h : DeclaresFiles d (.multi files)) {e : FileEntry} (he : e ∈ files) :
    ∃ segments, (∀ s ∈ segments, ReadableName s) ∧
      e.path = relative segments := by
  obtain ⟨list, -, hall⟩ := h
  induction hall with
  | nil => simp at he
  | cons hv _ ih =>
    rcases mem_cons.mp he with rfl | he
    · obtain ⟨fd, i, segments, -, -, -, -, hs, hpath⟩ := hv
      exact ⟨segments, hs, hpath⟩
    · exact ih he

theorem Info.crossCheck_eq_ok (h : DeclaresInfo d info) :
    info.crossCheck = .ok () ↔
      0 < info.files.lengths.sum ∧ info.files.lengths.sum < 2 ^ 64 ∧
        info.pieceHashes.length =
          Outcome.divCeil info.files.lengths.sum info.pieceLength := by
  rw [crossCheck, TorrentFiles.totalLength_eq h.files]
  by_cases hlt : info.files.lengths.sum < 2 ^ 64
  · rw [if_pos hlt, ok_bind, checkedDivCeil_of_pos h.pieceLength_pos]
    simp only [bind_eq_ok, check_eq_ok, decide_eq_true_eq, ok.injEq]
    constructor
    · rintro ⟨-, hpos, n, rfl, hcount⟩
      exact ⟨by omega, hlt, hcount⟩
    · rintro ⟨hpos, -, hcount⟩
      exact ⟨(), by omega, _, rfl, hcount⟩
  · rw [if_neg hlt, panic_bind]
    constructor
    · intro h
      cases h
    · intro h
      exact absurd h.2.1 hlt

theorem Info.crossCheck_eq_panic (h : DeclaresInfo d info) :
    info.crossCheck = .panic ↔ 2 ^ 64 ≤ info.files.lengths.sum := by
  rw [crossCheck, TorrentFiles.totalLength_eq h.files]
  by_cases hlt : info.files.lengths.sum < 2 ^ 64
  · rw [if_pos hlt, ok_bind, checkedDivCeil_of_pos h.pieceLength_pos]
    simp only [bind_eq_panic, check_ne_panic, false_or,
      ok.injEq, reduceCtorEq, and_false, exists_false, false_iff]
    omega
  · simp only [hlt, if_false, panic_bind, true_iff]
    omega

theorem Info.fromValue_eq_ok : fromValue v = .ok info ↔
      ∃ d, v = .dict d ∧ DeclaresInfo d info ∧
        0 < info.files.lengths.sum ∧ info.files.lengths.sum < 2 ^ 64 ∧
        info.pieceHashes.length =
          Outcome.divCeil info.files.lengths.sum info.pieceLength := by
  simp only [fromValue, bind_eq_ok, pure_eq, ok.injEq, read_eq_ok]
  constructor
  · rintro ⟨info', ⟨d, rfl, hd⟩, ⟨⟩, hcheck, rfl⟩
    exact ⟨d, rfl, hd, (crossCheck_eq_ok hd).mp hcheck⟩
  · rintro ⟨d, rfl, hd, hcheck⟩
    exact ⟨info, ⟨d, rfl, hd⟩, (), (crossCheck_eq_ok hd).mpr hcheck, rfl⟩

theorem Info.fromValue_accepted
    (h : fromValue v = .ok info) : info.Accepted := by
  obtain ⟨d, -, hd, hpos, hlt, hcount⟩ := fromValue_eq_ok.mp h
  refine ⟨hd.readable, hd.pieceLength_pos, hd.pieceLength_le, hpos, hlt,
    hcount, ?_⟩
  intro files hfiles e he
  have hdecl := hd.files
  rw [hfiles] at hdecl
  exact hdecl.paths he

/-- A dictionary that passes every check before its lengths are added up, and
whose lengths do not fit in 64 bits. -/
def OverflowingInfo (v : BencodeValue) : Prop :=
  ∃ d info, v = .dict d ∧ DeclaresInfo d info ∧
    2 ^ 64 ≤ info.files.lengths.sum

theorem Info.fromValue_eq_panic : fromValue v = .panic ↔ OverflowingInfo v := by
  simp only [fromValue, bind_eq_panic, read_ne_panic,
    false_or, pure_eq, reduceCtorEq, and_false, exists_false,
    or_false, read_eq_ok, OverflowingInfo]
  constructor
  · rintro ⟨info, ⟨d, rfl, hd⟩, hcheck⟩
    exact ⟨d, info, rfl, hd, (crossCheck_eq_panic hd).mp hcheck⟩
  · rintro ⟨d, info, rfl, hd, hsum⟩
    exact ⟨info, ⟨d, rfl, hd⟩, (crossCheck_eq_panic hd).mpr hsum⟩

/-! ## The whole loader -/

theorem skipValue_iff : skipValue input = .ok n ↔
      ∃ (v : BencodeValue) (text rest : Bytes), input = text ++ rest ∧
        v.ReadFrom text ∧ v.enclosure ≤ maxDepth ∧ n = text.length := by
  simp only [skipValue, bind_eq_ok, Prod.exists, parse_eq_ok]
  constructor
  · rintro ⟨v, rest, ⟨text, rfl, hv, henc⟩, hsub⟩
    rw [checkedSub_of_le (by simp), ok.injEq,
      length_append, Nat.add_sub_cancel] at hsub
    exact ⟨v, text, rest, rfl, hv, henc, hsub.symm⟩
  · rintro ⟨v, text, rest, rfl, hv, henc, rfl⟩
    refine ⟨v, rest, ⟨text, rfl, hv, henc⟩, ?_⟩
    rw [checkedSub_of_le (by simp), length_append, Nat.add_sub_cancel]

theorem skipValue_eq_ok (h : skipValue input = .ok n) :
    0 < n ∧ n ≤ input.length := by
  obtain ⟨v, text, rest, rfl, hv, -, rfl⟩ := skipValue_iff.mp h
  obtain ⟨c, t, rfl, -⟩ := hv.head
  simp

theorem skipValue_ne_panic (input : Bytes) : skipValue input ≠ .panic := by
  refine bind_ne_panic (parse_ne_panic _) ?_
  rintro ⟨v, rest⟩ hparse
  obtain ⟨pre, -, rfl⟩ := parse_consumes hparse
  dsimp only
  rw [checkedSub_of_le (by simp)]
  simp

theorem parseBytesInline_ne_panic (input : Bytes) :
    parseBytesInline input ≠ .panic := by
  refine bind_ne_panic (parse_ne_panic _) ?_
  rintro ⟨v, rest⟩ -
  refine bind_ne_panic (check_ne_panic _ _) fun _ _ => ?_
  cases v <;> simp [bencodeErr]

/-- The walk over the root dictionary stays in range and ends: each round
moves the cursor forward. -/
theorem findInfoLoop_ne_panic (hlen : input.length < 2 ^ 64) {fuel cursor : ℕ}
    (hcursor : cursor ≤ input.length) (hfuel : input.length < cursor + fuel) :
    findInfoLoop input fuel cursor ≠ .panic := by
  induction fuel generalizing cursor with
  | zero => omega
  | succ fuel ih =>
    rw [findInfoLoop]
    split
    next hlt =>
      rw [index_of_lt hlt, ok_bind]
      split
      · simp [bencodeErr]
      rw [sliceFrom_of_le hcursor, ok_bind]
      refine bind_ne_panic (skipValue_ne_panic _) fun keyLen hkey => ?_
      obtain ⟨hpos, hle⟩ := skipValue_eq_ok hkey
      rw [length_drop] at hle
      rw [checkedAdd_of_lt (by omega), ok_bind,
        slice_of_le (by omega) (by omega), ok_bind]
      refine bind_ne_panic (parseBytesInline_ne_panic _) fun key _ => ?_
      rw [sliceFrom_of_le (by omega), ok_bind]
      refine bind_ne_panic (skipValue_ne_panic _) fun valueLen hvalue => ?_
      obtain ⟨hpos', hle'⟩ := skipValue_eq_ok hvalue
      rw [length_drop] at hle'
      rw [checkedAdd_of_lt (by omega), ok_bind]
      split
      · rw [slice_of_le (by omega) (by omega)]
        simp
      · exact ih (by omega) (by omega)
    next => simp [bencodeErr]

theorem findInfoSlice_ne_panic
    (hlen : input.length < 2 ^ 64) : findInfoSlice input ≠ .panic := by
  unfold findInfoSlice
  split
  · simp [bencodeErr]
  next hhead =>
    cases input with
    | nil => simp at hhead
    | cons c t =>
      apply findInfoLoop_ne_panic hlen
      · simp
      · omega

/-- The tracker entries of a root dictionary can be read. -/
def ReadableTrackers (dict : List (Bytes × BencodeValue)) : Prop :=
  (∃ announce, readAnnounce dict = .ok announce) ∧
    ∃ announceList, readAnnounceList dict = .ok announceList

theorem readAnnounce_ne_panic (dict : List (Bytes × BencodeValue)) :
    readAnnounce dict ≠ .panic := by
  unfold readAnnounce
  cases get dict (ascii "announce") with
  | none | some v => simp [bind_eq_panic]

@[simp] theorem readTier_ne_panic (v : BencodeValue) : readTier v ≠ .panic := by
  simp [readTier, bind_eq_panic]

theorem readAnnounceList_ne_panic (dict : List (Bytes × BencodeValue)) :
    readAnnounceList dict ≠ .panic := by
  unfold readAnnounceList
  cases get dict (ascii "announce-list") with
  | none | some v => simp [bind_eq_panic]

/-! ## Trackers -/

/-- A tier with one tracker. -/
def singleTier (url : Bytes) : BencodeValue := .list [.bytes url]

theorem traverse_readTier_singleTier {urls : List Bytes}
    (h : ∀ url ∈ urls, fromUtf8 url = .ok url) :
    Outcome.traverse readTier (urls.map singleTier) =
      .ok (urls.map fun url => [url]) := by
  rw [traverse_eq_ok, List.forall₂_map_left_iff,
    List.forall₂_map_right_iff, List.forall₂_same]
  intro url hurl
  have hstr : (BencodeValue.bytes url).asStr = .ok url :=
    asStr_eq_ok.mpr ⟨rfl, h url hurl⟩
  simp [readTier, singleTier, asList, Outcome.traverse, hstr]

theorem pushTracker_of_mem {out : List Bytes} {url : Bytes} (h : url ∈ out) :
    pushTracker out url = out := by
  rw [pushTracker, if_pos (by simpa using h)]

theorem foldl_pushTracker (urls out : List Bytes) : urls.foldl pushTracker out =
      out ++ (urls.filter fun u => !out.contains u).eraseDups := by
  induction urls generalizing out with
  | nil => simp
  | cons url urls ih =>
    rw [foldl_cons, ih]
    by_cases hmem : url ∈ out
    · simp [pushTracker_of_mem hmem, hmem]
    · have hpush : pushTracker out url = out ++ [url] := by
        simp [pushTracker, hmem]
      rw [hpush, filter_cons_of_pos (by simpa using hmem),
        eraseDups_cons, filter_filter, append_assoc,
        singleton_append]
      congr 3
      apply filter_congr
      intro u hu
      by_cases heq : u = url
      · simp [heq]
      · simp [heq]

/-- The trackers of a torrent that lists each one in a tier of its own and
announces to the first. -/
theorem TorrentFile.trackers_singleTiers {t : TorrentFile}
    {urls : List Bytes} (hannounce : t.announce = urls.head?)
    (hlist : t.announceList = urls.map fun url => [url]) :
    t.trackers = urls.eraseDups := by
  have hfold : (urls.map fun url => [url]).foldl
      (fun out tier => tier.foldl pushTracker out) [] = urls.eraseDups := by
    rw [foldl_map]
    simpa using foldl_pushTracker urls []
  rw [trackers, hannounce, hlist, hfold]
  cases urls with
  | nil => rfl
  | cons url urls =>
    -- The announced tracker is the first of the list already.
    apply pushTracker_of_mem
    rw [eraseDups_cons]
    exact mem_cons_self

section Load

variable (sha1Of : Bytes → Digest)

theorem TorrentFile.fromBytes_accepted {t : TorrentFile}
    (h : fromBytes sha1Of input = .ok t) : t.info.Accepted := by
  simp only [fromBytes, fromValue, bind_eq_ok, pure_eq, ok.injEq] at h
  obtain ⟨root, -, hash, -, dict, -, announce, -, list, -, infoV, -, info,
    hinfo, rfl⟩ := h
  exact fromValue_accepted hinfo

theorem TorrentFile.fromInfoDictBytes_accepted
    {hash : Digest} {trackers : List Bytes} {t : TorrentFile}
    (h : fromInfoDictBytes sha1Of input hash trackers = .ok t) :
    t.info.Accepted := by
  simp only [fromInfoDictBytes, bind_eq_ok, pure_eq, ok.injEq] at h
  obtain ⟨-, -, infoV, -, info, hinfo, rfl⟩ := h
  exact fromValue_accepted hinfo

/-- A `.torrent` whose info dictionary overflows and which gets as far as
reading it. -/
def OverflowingTorrent (input : Bytes) : Prop :=
  ∃ dict infoV, parseAll input = .ok (.dict dict) ∧
    (∃ s, findInfoSlice input = .ok s) ∧ ReadableTrackers dict ∧
    SortedMap.get dict (ascii "info") = some infoV ∧ OverflowingInfo infoV

theorem TorrentFile.fromBytes_eq_panic (hlen : input.length < 2 ^ 64) :
    fromBytes sha1Of input = .panic ↔ OverflowingTorrent input := by
  simp only [fromBytes, fromValue, computeInfoHash,
    bind_eq_panic, bind_eq_ok, parseAll_ne_panic, false_or,
    findInfoSlice_ne_panic hlen, asDict_ne_panic, asDict_eq_ok,
    readAnnounce_ne_panic, readAnnounceList_ne_panic, field_ne_panic,
    field_eq_ok, fromValue_eq_panic, pure_eq,
    ok.injEq, reduceCtorEq, and_false, exists_false, or_false,
    OverflowingTorrent, ReadableTrackers]
  constructor
  · rintro ⟨root, hparse, hash, ⟨s, hs, -⟩, dict, rfl, a, ha, l, hl, iv, hiv,
      hover⟩
    exact ⟨dict, iv, hparse, ⟨s, hs⟩, ⟨⟨a, ha⟩, ⟨l, hl⟩⟩, hiv, hover⟩
  · rintro ⟨dict, iv, hparse, ⟨s, hs⟩, ⟨⟨a, ha⟩, ⟨l, hl⟩⟩, hiv, hover⟩
    exact ⟨_, hparse, _, ⟨s, hs, rfl⟩, dict, rfl, a, ha, l, hl, iv, hiv, hover⟩

/-- A bare info dictionary that overflows. -/
def OverflowingInfoDict (input : Bytes) : Prop :=
  ∃ v, parseAll input = .ok v ∧ OverflowingInfo v

theorem TorrentFile.fromInfoDictBytes_eq_panic
    {hash : Digest} {trackers : List Bytes} :
    fromInfoDictBytes sha1Of input hash trackers = .panic ↔
      sha1Of input = hash ∧ OverflowingInfoDict input := by
  simp only [fromInfoDictBytes, bind_eq_panic,
    check_ne_panic, check_eq_ok, decide_eq_true_eq,
    parseAll_ne_panic, false_or, fromValue_eq_panic, pure_eq,
    reduceCtorEq, and_false, exists_false, or_false, OverflowingInfoDict]
  constructor
  · rintro ⟨-, hhash, v, hv, hover⟩
    exact ⟨hhash, v, hv, hover⟩
  · rintro ⟨hhash, v, hv, hover⟩
    exact ⟨(), hhash, v, hv, hover⟩

end Load

/-- The cut into pieces that an accepted torrent describes. -/
def Info.Accepted.geometry {info : Info} (h : info.Accepted) : Geometry where
  pieceLength := info.pieceLength
  totalLength := info.files.lengths.sum
  numPieces := info.pieceHashes.length
  pieceLength_pos := h.pieceLength_pos
  totalLength_pos := h.total_pos
  numPieces_eq := h.numPieces

theorem Info.Accepted.totalLength_eq {info : Info} (h : info.Accepted) :
    info.files.totalLength = .ok info.files.lengths.sum := by
  have hlt := h.total_lt
  cases hfiles : info.files with
  | single length => simp [TorrentFiles.totalLength, TorrentFiles.lengths]
  | multi entries =>
    rw [hfiles] at hlt
    simp only [TorrentFiles.lengths] at hlt
    rw [TorrentFiles.totalLength,
      checkedSum_eq _ _ _ (by norm_num), Nat.zero_add, if_pos hlt]
    rfl

/-! ## A small torrent -/

/-- The digest of twenty zero bytes. -/
def zeroDigest : Digest := Digest.zeroed

/-- A torrent with the files `x/a/b` and `x/c` of three bytes each, in pieces
of four bytes. -/
def exampleTorrent : TorrentFile where
  infoHash := zeroDigest
  announce := none
  announceList := []
  info := {
    name := ascii "x", pieceLength := 4,
    pieceHashes := [zeroDigest, zeroDigest],
    files := .multi [⟨3, ascii "a/b"⟩, ⟨3, ascii "c"⟩],
    isPrivate := false }

/-- The `.torrent` file of `exampleTorrent`. -/
def exampleInput : Bytes :=
  ascii ("d4:infod5:filesld6:lengthi3e4:pathl1:a1:beed6:lengthi3e4:pathl1:c" ++
    "eee4:name1:x12:piece lengthi4e6:pieces40:") ++
    List.replicate 40 0 ++ ascii "ee"

theorem fromBytes_exampleInput :
    fromBytes (fun _ => zeroDigest) exampleInput = .ok exampleTorrent := by
  decide +kernel

end RustyTorrent.Metainfo
