import RustyTorrent.CreateSpec
import RustyTorrent.Metainfo.WrittenRoot

/-!
# Loading what was created

Creation checks the piece length and the total length only from below, and the
names not at all, while the loader bounds the piece length and the loader and
the layout restrict the names.  A created torrent is therefore loaded, and laid
out under every root, exactly when the piece length is within the loader's
bound and every name is one both filters let through.
-/

namespace RustyTorrent.Create

open UnixPath Metainfo BencodeValue Storage Outcome List Option Request Layout

/-! ## The info dictionary -/

/-- The entries after the one that lists the files. -/
def Request.commonEntries (r : Request) (pieces : Bytes) :
    List (Bytes × BencodeValue) :=
  [(ascii "name", .bytes r.name),
    (ascii "piece length", intValue r.pieceLength),
    (ascii "pieces", .bytes pieces)] ++
    if r.isPrivate then [(ascii "private", .int 1)] else []

/-- The info a created torrent is loaded with. -/
def Request.createdInfo (r : Request) (pieces : Bytes) (tf : TorrentFiles) :
    Info where
  name := r.name
  pieceLength := r.pieceLength
  pieceHashes := digests pieces
  files := tf
  isPrivate := r.isPrivate

theorem infoDict_eq (r : Request) (files : List InputFile) (single : Bool)
    (pieces : Bytes) :
    r.infoDict files single pieces =
      if single then do
        let first ← Outcome.index 0 files
        return (ascii "length", intValue first.length) :: r.commonEntries pieces
      else .ok ((ascii "files", .list (files.map fileValue)) ::
        r.commonEntries pieces) := by
  cases h : r.isPrivate <;> simp only [infoDict, commonEntries, h] <;> rfl

theorem toInt_ofNat {n : ℕ} (h : n < 2 ^ 63) : (Int64.ofNat n).toInt = n :=
  Int64.toInt_ofNat_of_lt h

section Dict

variable {r : Request} {k : Bytes} {x : BencodeValue} {pieces : Bytes}

theorem declaresInfo_iff (hk : k = ascii "files" ∨ k = ascii "length")
    (hpieces : pieces.length % 20 = 0) (hpos : 0 < r.pieceLength)
    (hlt : r.pieceLength < 2 ^ 63) {info : Info} :
    DeclaresInfo ((k, x) :: r.commonEntries pieces) info ↔
      ReadableName r.name ∧ r.pieceLength ≤ maxPieceLength ∧
        ∃ tf, DeclaresFiles ((k, x) :: r.commonEntries pieces) tf ∧
          info = r.createdInfo pieces tf := by
  have hname : SortedMap.get ((k, x) :: r.commonEntries pieces)
      (ascii "name") = some (.bytes r.name) := by
    rcases hk with rfl | rfl <;> rfl
  have hlength : SortedMap.get ((k, x) :: r.commonEntries pieces)
      (ascii "piece length") = some (intValue r.pieceLength) := by
    rcases hk with rfl | rfl <;> rfl
  have hraw : SortedMap.get ((k, x) :: r.commonEntries pieces)
      (ascii "pieces") = some (.bytes pieces) := by
    rcases hk with rfl | rfl <;> rfl
  have hprivate : readPrivate ((k, x) :: r.commonEntries pieces) =
      r.isPrivate := by
    rcases hk with rfl | rfl
    all_goals
      cases h : r.isPrivate with
      | false | true =>
        simp only [readPrivate, commonEntries, h]
        rfl
  have hint := toInt_ofNat hlt
  constructor
  · rintro ⟨hn, hreadable, ⟨i, hi, hi'⟩, -, hbound, ⟨raw, hraw', -, hhashes⟩,
      hfiles, hflag⟩
    rw [hname, some.injEq, bytes.injEq] at hn
    rw [hlength, some.injEq, intValue, int.injEq] at hi
    rw [hraw, some.injEq, bytes.injEq] at hraw'
    rw [hprivate] at hflag
    subst hi hraw'
    rw [hint, Int.ofNat_inj] at hi'
    rw [← hn] at hreadable
    rw [← hi'] at hbound
    refine ⟨hreadable, hbound, info.files, hfiles, ?_⟩
    rw [createdInfo, hn, hi', ← hhashes, ← hflag]
  · rintro ⟨hreadable, hbound, tf, hfiles, rfl⟩
    exact ⟨hname, hreadable, ⟨_, hlength, hint⟩, hpos, hbound,
      ⟨pieces, hraw, hpieces, rfl⟩, hfiles, hprivate.symm⟩

theorem declaresFiles_single {n : ℕ} (hn : n < 2 ^ 63) {files : TorrentFiles} :
    DeclaresFiles ((ascii "length", intValue n) :: r.commonEntries pieces)
        files ↔ files = .single n := by
  have hnone : SortedMap.get ((ascii "length", intValue n) ::
      r.commonEntries pieces) (ascii "files") = none := by
    cases h : r.isPrivate with
    | false | true =>
      simp only [commonEntries, h]
      rfl
  have hlength : SortedMap.get ((ascii "length", intValue n) ::
      r.commonEntries pieces) (ascii "length") = some (intValue n) := rfl
  have hint := toInt_ofNat hn
  cases files with
  | multi entries => simp [DeclaresFiles, hnone]
  | single length =>
    rw [TorrentFiles.single.injEq]
    constructor
    · rintro ⟨-, i, hi, hvalue⟩
      rw [hlength, some.injEq, intValue, int.injEq] at hi
      rw [← hi, hint] at hvalue
      exact (Int.ofNat_inj.mp hvalue).symm
    · rintro rfl
      exact ⟨hnone, _, hlength, hint⟩

/-- The entry of a created torrent for a file. -/
def entryOf (f : InputFile) : FileEntry where
  length := f.length
  path := relative f.relComponents

theorem declaresFile_fileValue {f : InputFile} (hf : f.length < 2 ^ 63)
    {e : FileEntry} :
    DeclaresFile (fileValue f) e ↔
      e = entryOf f ∧ ∀ c ∈ f.relComponents, ReadableName c := by
  have hint := toInt_ofNat hf
  constructor
  · rintro ⟨fd, i, segments, hfd, hlength, hi, hpath, hs, he⟩
    rw [fileValue, dict.injEq] at hfd
    subst hfd
    obtain rfl : Int64.ofNat f.length = i := int.inj (some.inj hlength)
    have hinj : Function.Injective bytes := fun _ _ => bytes.inj
    obtain rfl : f.relComponents = segments :=
      map_injective_iff.mpr hinj (list.inj (some.inj hpath))
    rw [hint, Int.ofNat_inj] at hi
    refine ⟨?_, hs⟩
    rw [entryOf, hi, ← he]
  · rintro ⟨rfl, hs⟩
    exact ⟨_, _, f.relComponents, rfl, rfl, hint, rfl, hs, rfl⟩

theorem declaresFiles_multi {files : List InputFile}
    (hfiles : ∀ f ∈ files, f.length < 2 ^ 63) {tf : TorrentFiles} :
    DeclaresFiles ((ascii "files", .list (files.map fileValue)) ::
        r.commonEntries pieces) tf ↔
      tf = .multi (files.map entryOf) ∧
        ∀ f ∈ files, ∀ c ∈ f.relComponents, ReadableName c := by
  have hget : SortedMap.get ((ascii "files",
      list (files.map fileValue)) :: r.commonEntries pieces)
        (ascii "files") = some (.list (files.map fileValue)) := rfl
  cases tf with
  | single length => simp [DeclaresFiles, hget]
  | multi entries =>
    simp only [DeclaresFiles, hget, some.injEq, list.injEq,
      exists_eq_left', TorrentFiles.multi.injEq, List.forall₂_map_left_iff]
    constructor
    · intro h
      clear hget
      induction h with
      | nil => simp
      | cons hfe _ ih =>
        obtain ⟨rfl, hs⟩ :=
          (declaresFile_fileValue (hfiles _ (by simp))).mp hfe
        obtain ⟨rfl, hrest⟩ := ih fun f hf => hfiles f (by simp [hf])
        refine ⟨rfl, ?_⟩
        intro f hf
        rcases mem_cons.mp hf with rfl | hf
        · exact hs
        · exact hrest f hf
    · rintro ⟨rfl, hs⟩
      rw [List.forall₂_map_right_iff, List.forall₂_same]
      intro f hf
      exact (declaresFile_fileValue (hfiles f hf)).mpr ⟨rfl, hs f hf⟩

end Dict

/-! ## What is created -/

/-- The regular files of the input.  A single file has no components. -/
def Request.regularFiles (r : Request) : List InputFile :=
  match r.node with
  | .file contents => [{ contents, relComponents := [] }]
  | .dir entries => regularFilesIn [] entries
  | _ => []

/-- The files of a torrent are those of the input, with their lengths and
their paths below it. -/
def Request.Describes (r : Request) (files : TorrentFiles) : Prop :=
  match r.node with
  | .file contents => files = .single contents.length
  | .dir entries => ∃ fs : List InputFile,
      fs.Perm (regularFilesIn [] entries) ∧ files = .multi (fs.map entryOf)
  | _ => False

/-- The info dictionary of a created torrent: the entry that lists the files
and what the loader makes of it. -/
structure CreatedDict (r : Request) (pieces : Bytes)
    (files : List InputFile) (k : Bytes) (x : BencodeValue)
    (tf : TorrentFiles) : Prop where
  key : k = ascii "files" ∨ k = ascii "length"
  declares : ∀ tf', DeclaresFiles ((k, x) :: r.commonEntries pieces) tf' ↔
    tf' = tf ∧ ∀ f ∈ files, ∀ c ∈ f.relComponents, ReadableName c
  lengths : tf.lengths = files.map InputFile.length
  describes : r.Describes tf
  single : ∀ n, tf = .single n → ∀ f ∈ files, f.relComponents = []
  multi : ∀ entries, tf = .multi entries →
    entries = files.map entryOf ∧ ∀ f ∈ files, f.relComponents ≠ []
  utf8 : ∀ f ∈ files, ∀ c ∈ f.relComponents, Utf8.fromUtf8 c = .ok c
  ordered : x.Ordered
  shallow : x.enclosure ≤ 3
  perm : files.Perm r.regularFiles

theorem nested_fileValue (f : InputFile) : Nested 2 (fileValue f) := by
  have hpath : Nested 1 (.list (f.relComponents.map .bytes)) :=
    nested_list (by simp)
  have hlt : ascii "length" < ascii "path" := by decide
  change Nested 2 (.dict [(ascii "length", intValue f.length),
    (ascii "path", .list (f.relComponents.map .bytes))])
  refine nested_dict ?_ ?_
  · simp [SortedMap.Sorted, hlt]
  · simp [intValue, hpath]

theorem createdDict_of_inputFiles {r : Request} {files : List InputFile}
    {single : Bool} {pieces : Bytes} {d : List (Bytes × BencodeValue)}
    (hnode : r.node.Valid) (hfiles : r.inputFiles = .ok (files, single))
    (hd : r.infoDict files single pieces = .ok d) :
    ∃ k x tf, d = (k, x) :: r.commonEntries pieces ∧
      CreatedDict r pieces files k x tf := by
  unfold inputFiles at hfiles
  split at hfiles
  next contents hfile =>
    simp only [ok.injEq, Prod.mk.injEq] at hfiles
    obtain ⟨rfl, rfl⟩ := hfiles
    rw [infoDict_eq, if_pos rfl] at hd
    injection hd with hd
    rw [hfile, Node.Valid] at hnode
    refine ⟨_, _, .single contents.length, hd.symm, Or.inr rfl, fun tf' => ?_,
      rfl, ?_, by simp, by simp, by simp, ?_, ?_, ?_⟩
    · rw [InputFile.length, declaresFiles_single hnode]
      simp
    · rw [Request.Describes, hfile]
    · simp [intValue, Ordered]
    · simp [intValue, enclosure]
    · rw [Request.regularFiles, hfile]
  next entries hdir =>
    simp only at hfiles
    split at hfiles
    · simp [refuse] at hfiles
    simp only [ok.injEq, Prod.mk.injEq] at hfiles
    obtain ⟨hsort, rfl⟩ := hfiles
    have hperm : files.Perm (regularFilesIn [] entries) := by
      rw [← hsort]
      exact (perm_insertionSort _ _).trans (collectFiles_perm entries)
    rw [infoDict_eq, if_neg Bool.false_ne_true, ok.injEq] at hd
    rw [hdir, Node.Valid] at hnode
    have hx : Nested 3 (.list (files.map fileValue)) :=
      nested_list (by simp [nested_fileValue])
    have hvalid : ∀ f ∈ files, f.Valid := by
      intro f hf
      exact regularFilesIn_valid entries [] hnode (by simp) f
        (hperm.mem_iff.mp hf)
    refine ⟨_, _, .multi (files.map entryOf), hd.symm, Or.inl rfl, fun tf' =>
      declaresFiles_multi fun f hf => (hvalid f hf).length_lt, ?_, ?_,
      by simp, ?_, fun f hf c hc => ((hvalid f hf).names c hc).2, hx.1, hx.2,
      ?_⟩
    · simp [TorrentFiles.lengths, entryOf, Function.comp_def]
    · rw [Request.Describes, hdir]
      exact ⟨files, hperm, rfl⟩
    · rintro entries' ⟨⟩
      exact ⟨rfl, fun f hf => (hvalid f hf).ne_nil⟩
    · rw [Request.regularFiles, hdir]
      exact hperm
  next => simp [refuse] at hfiles

theorem length_streamOf (files : List InputFile) :
    (streamOf files).length = (files.map InputFile.length).sum := by
  induction files with
  | nil => rfl
  | cons f files ih =>
    rw [streamOf, flatMap_cons, length_append, map_cons, sum_cons, ← ih]
    rfl

theorem createTorrent_eq_ok {sha1Of : Bytes → Digest} {readSize : ℕ → ℕ}
    {r : Request} {bytes : Bytes} {hash : Digest}
    (h : createTorrent sha1Of readSize r = .ok (bytes, hash)) :
    ∃ files single pieces d, 0 < r.pieceLength ∧ r.pieceLength < 2 ^ 63 ∧
      r.inputFiles = .ok (files, single) ∧
      0 < (files.map InputFile.length).sum ∧
      (files.map InputFile.length).sum < 2 ^ 64 ∧
      CutInto r.pieceLength (streamOf files) pieces ∧
      r.infoDict files single (hashAll sha1Of pieces) = .ok d ∧
      hash = sha1Of (dict d).toBytes ∧
      bytes = (dict (topDict r.trackers (.dict d))).toBytes := by
  simp only [createTorrent, bind_eq_ok, check_eq_ok, decide_eq_true_eq] at h
  obtain ⟨-, hpos, ⟨files, single⟩, hfiles, total, htotal, h⟩ := h
  dsimp only at htotal h
  rw [checkedSum_eq _ _ _ (by norm_num), Nat.zero_add] at htotal
  split at htotal
  next hlt =>
    rw [ok.injEq] at htotal
    subst htotal
    split at h
    · simp [refuse] at h
    next hne =>
      simp only [bind_eq_ok, pure_eq, ok.injEq, Prod.mk.injEq] at h
      obtain ⟨raw, hraw, d, hd, rfl, rfl⟩ := h
      have hbound : r.pieceLength < 2 ^ 63 := by
        by_contra hge
        rw [hashPieces, decide_eq_false hge] at hraw
        cases hraw
      obtain ⟨pieces, hcut, -, hpieces⟩ :=
        hashPieces_eq sha1Of readSize (by omega) hbound files
      cases hpieces.symm.trans hraw
      exact ⟨files, single, pieces, d, by omega, hbound, hfiles, by omega,
        hlt, hcut, hd, rfl, rfl⟩
  next => cases htotal

/-! ## Loading it -/

theorem topDict_eq (trackers : List Bytes) (v : BencodeValue) :
    topDict trackers v = rootEntries trackers.head?
          (if trackers.length > 1 then trackers else []) ++
        [(ascii "info", v)] := by
  match trackers with
  | [] => rfl
  | [t] => rfl
  | t :: u :: rest =>
    have hlen : (t :: u :: rest).length > 1 := by simp
    simp only [topDict, hlen, if_true, head?_cons]
    rfl

theorem trackers_of_topDict {t : TorrentFile} {trackers : List Bytes}
    (hannounce : t.announce = trackers.head?)
    (hlist : t.announceList =
      (if trackers.length > 1 then trackers else []).map fun url => [url]) :
    t.trackers = trackers.eraseDups := by
  match trackers with
  | [] => exact TorrentFile.trackers_singleTiers hannounce hlist
  | [u] =>
    -- A single tracker is announced only.
    have hnil : t.announceList = [] := by simpa using hlist
    simp [TorrentFile.trackers, hannounce, hnil, pushTracker, eraseDups_cons]
  | u :: w :: rest =>
    have hlen : (u :: w :: rest).length > 1 := by simp
    rw [if_pos hlen] at hlist
    exact TorrentFile.trackers_singleTiers hannounce hlist

section Loading

variable {r : Request} {pieces k : Bytes} {files : List InputFile}
  {x : BencodeValue} {tf : TorrentFiles}

theorem commonEntries_keys (r : Request) (pieces : Bytes) :
    (r.commonEntries pieces).map Prod.fst =
      [ascii "name", ascii "piece length", ascii "pieces"] ++
        if r.isPrivate then [ascii "private"] else [] := by
  cases h : r.isPrivate with
  | false | true => simp [commonEntries, h]

theorem CreatedDict.nested (h : CreatedDict r pieces files k x tf) :
    Nested 4 (.dict ((k, x) :: r.commonEntries pieces)) := by
  refine nested_dict ?_ (forall_mem_cons.mpr ⟨⟨h.ordered, h.shallow⟩, ?_⟩)
  · rw [SortedMap.Sorted, map_cons, commonEntries_keys]
    dsimp only
    rcases h.key with rfl | rfl
    all_goals
      cases r.isPrivate with
      | false | true => decide
  · cases hflag : r.isPrivate with
    | false | true => simp [commonEntries, hflag, intValue]

theorem CreatedDict.fromValue_iff {sha1Of : Bytes → Digest} {ps : List Bytes}
    (h : CreatedDict r (hashAll sha1Of ps) files k x tf)
    (hpos : 0 < r.pieceLength) (hlt : r.pieceLength < 2 ^ 63)
    (htotal : 0 < (files.map InputFile.length).sum)
    (htotal' : (files.map InputFile.length).sum < 2 ^ 64)
    (hcut : CutInto r.pieceLength (streamOf files) ps) (info : Info) :
    Info.fromValue (.dict ((k, x) :: r.commonEntries (hashAll sha1Of ps))) =
        .ok info ↔
      info = r.createdInfo (hashAll sha1Of ps) tf ∧ ReadableName r.name ∧
        r.pieceLength ≤ maxPieceLength ∧
        ∀ f ∈ files, ∀ c ∈ f.relComponents, ReadableName c := by
  have hlen := length_hashAll sha1Of ps
  have hcount : (digests (hashAll sha1Of ps)).length =
      Outcome.divCeil (files.map InputFile.length).sum r.pieceLength := by
    rw [← length_streamOf, ← hcut.count, digests, length_ofFn, hlen]
    omega
  simp only [Info.fromValue_eq_ok, dict.injEq, exists_eq_left',
    declaresInfo_iff h.key (by omega : (hashAll sha1Of ps).length % 20 = 0)
      hpos hlt, h.declares]
  constructor
  · rintro ⟨⟨hname, hbound, tf', ⟨rfl, hsegments⟩, rfl⟩, -⟩
    exact ⟨rfl, hname, hbound, hsegments⟩
  · rintro ⟨rfl, hname, hbound, hsegments⟩
    refine ⟨⟨hname, hbound, tf, ⟨rfl, hsegments⟩, rfl⟩, ?_⟩
    simp only [createdInfo, h.lengths]
    exact ⟨htotal, htotal', hcount⟩

theorem CreatedDict.safe_of_layout (h : CreatedDict r pieces files k x tf)
    {t : TorrentFile} (hinfo : t.info = r.createdInfo pieces tf)
    (hname : ReadableName r.name)
    (hsegments : ∀ f ∈ files, ∀ c ∈ f.relComponents, ReadableName c)
    {root : Path} {l : Layout} (hl : fromTorrent root t = .ok l) :
    SafeName r.name ∧ ∀ f ∈ files, ∀ c ∈ f.relComponents, SafeName c := by
  simp only [fromTorrent, bind_eq_ok, hinfo, createdInfo] at hl
  obtain ⟨⟨⟩, hleaf, spans, hspans, -⟩ := hl
  refine ⟨(ensureSafeLeafName_eq_ok hname.2).mp hleaf, ?_⟩
  intro f hf
  cases tf with
  | single n =>
    rw [h.single n rfl f hf]
    simp
  | multi entries =>
    obtain ⟨rfl, -⟩ := h.multi entries rfl
    have hcheck := (place_eq_ok hspans).2.2.2 (entryOf f) (mem_map_of_mem hf)
    exact ((ensureSafeRelativePath_eq_ok fun s hs =>
      (hsegments f hf s hs).2).mp hcheck).2

theorem CreatedDict.layout_of_safe (h : CreatedDict r pieces files k x tf)
    {t : TorrentFile} (hinfo : t.info = r.createdInfo pieces tf)
    (haccepted : t.info.Accepted) (hname : SafeName r.name)
    (hsegments : ∀ f ∈ files, ∀ c ∈ f.relComponents, SafeName c)
    (root : Path) : ∃ l, fromTorrent root t = .ok l := by
  apply fromTorrent_of_safe haccepted
  · rw [hinfo]
    exact hname
  · intro entries hentries e he
    rw [hinfo, createdInfo] at hentries
    obtain ⟨rfl, hne⟩ := h.multi entries hentries
    obtain ⟨f, hf, rfl⟩ := mem_map.mp he
    exact ⟨f.relComponents, hne f hf, hsegments f hf, rfl⟩

end Loading

/-- The bytes load as the torrent that was asked for, and it can be laid out
under every root. -/
def Request.Loads (r : Request) (sha1Of : Bytes → Digest) (bytes : Bytes)
    (hash : Digest) : Prop :=
  ∃ t, TorrentFile.fromBytes sha1Of bytes = .ok t ∧ t.infoHash = hash ∧
    t.info.name = r.name ∧ t.info.pieceLength = r.pieceLength ∧
    t.info.isPrivate = r.isPrivate ∧ r.Describes t.info.files ∧
    t.trackers = r.trackers.eraseDups ∧
    ∀ root, ∃ l, Layout.fromTorrent root t = .ok l

/-- A created torrent is loaded and laid out exactly when its piece length is
within the loader's bound and its name and all path components are safe. -/
theorem createTorrent_loads_iff (sha1Of : Bytes → Digest)
    (readSize : ℕ → ℕ) (r : Request) (bytes : Bytes) (hash : Digest)
    (hnode : r.node.Valid) (hname : Utf8.fromUtf8 r.name = .ok r.name)
    (htrackers : ∀ url ∈ r.trackers, Utf8.fromUtf8 url = .ok url)
    (hlen : bytes.length < 2 ^ 63)
    (h : createTorrent sha1Of readSize r = .ok (bytes, hash)) :
    r.Loads sha1Of bytes hash ↔
      r.pieceLength ≤ maxPieceLength ∧ SafeName r.name ∧
        ∀ f ∈ r.regularFiles, ∀ c ∈ f.relComponents, SafeName c := by
  obtain ⟨files, single, ps, d, hpos, hlt, hfiles, htotal, htotal', hcut, hd,
    rfl, hbytes⟩ := createTorrent_eq_ok h
  obtain ⟨k, x, tf, rfl, hc⟩ := createdDict_of_inputFiles hnode hfiles hd
  have hinput : bytes = asciiByte 'd' :: (entriesToBytes
      (rootEntries r.trackers.head?
        (if r.trackers.length > 1 then r.trackers else [])) ++
      (stringToBytes (ascii "info") ++ ((BencodeValue.dict
        ((k, x) :: r.commonEntries (hashAll sha1Of ps))).toBytes ++
          [asciiByte 'e']))) := by
    rw [hbytes, topDict_eq]
    conv_lhs => rw [toBytes]
    simp [entriesToBytes_append, entriesToBytes]
  have hread := readFrom_toBytes _ (wellFormed_of_length _ hc.nested.1 (by
    rw [hinput] at hlen
    simp only [length_cons, length_append] at hlen
    omega))
  have hhead : ∀ a ∈ r.trackers.head?, Utf8.fromUtf8 a = .ok a :=
    fun a ha => htrackers a (mem_of_head? ha)
  have htiers : ∀ url ∈ (if r.trackers.length > 1 then r.trackers else []),
      Utf8.fromUtf8 url = .ok url := by
    intro url hurl
    split at hurl
    · exact htrackers url hurl
    · simp at hurl
  have hload := TorrentFile.fromBytes_rootEntries sha1Of hinput hhead htiers
    hread hlen
  have hvalue := hc.fromValue_iff hpos hlt htotal htotal' hcut
  constructor
  · rintro ⟨t, ht, -, -, -, -, -, -, hlayout⟩
    obtain ⟨-, info, hinfo, rfl⟩ := (hload t).mp ht
    obtain ⟨rfl, hreadable, hbound, hsegments⟩ := (hvalue info).mp hinfo
    obtain ⟨l, hl⟩ := hlayout []
    obtain ⟨hsafe, hnames⟩ := hc.safe_of_layout rfl hreadable hsegments hl
    refine ⟨hbound, hsafe, ?_⟩
    intro f hf
    exact hnames f (hc.perm.mem_iff.mpr hf)
  · rintro ⟨hbound, hsafe, hnames⟩
    have hnames' : ∀ f ∈ files, ∀ c ∈ f.relComponents, SafeName c :=
      fun f hf => hnames f (hc.perm.mem_iff.mp hf)
    have hreadable : ReadableName r.name := ⟨hname, (safeName_iff.mp hsafe).1⟩
    have hsegments : ∀ f ∈ files, ∀ c ∈ f.relComponents, ReadableName c :=
      fun f hf c hc' =>
        ⟨hc.utf8 f hf c hc', (safeName_iff.mp (hnames' f hf c hc')).1⟩
    have hinfo := (hvalue _).mpr ⟨rfl, hreadable, hbound, hsegments⟩
    have hshallow := hc.nested.2.trans_lt (by decide : 4 < maxDepth)
    refine ⟨_, (hload _).mpr ⟨hshallow, _, hinfo, rfl⟩, rfl, rfl, rfl, rfl,
      hc.describes, trackers_of_topDict rfl rfl, ?_⟩
    exact hc.layout_of_safe rfl (Info.fromValue_accepted hinfo) hsafe hnames'

/-- A directory with a file, a subdirectory and a symbolic link. -/
def exampleRequest : Request where
  path := ascii "/in/x"
  node := .dir [(ascii "b", .file [1, 2]), (ascii "l", .symlink),
    (ascii "a", .dir [(ascii "c", .file [3])])]
  trackers := [ascii "udp://t"]
  pieceLength := 2
  nameOverride := none
  isPrivate := false

/-- The `.torrent` file of `exampleRequest`. -/
def exampleBytes : Bytes :=
  ascii ("d8:announce7:udp://t4:infod5:filesld6:lengthi1e4:pathl1:a1:cee" ++
    "d6:lengthi2e4:pathl1:beee4:name1:x12:piece lengthi2e6:pieces40:") ++
    List.replicate 40 0 ++ ascii "ee"

theorem createTorrent_loads_iff_example :
    createTorrent (fun _ => zeroDigest) (fun _ => 1) exampleRequest =
        .ok (exampleBytes, zeroDigest) ∧
      (exampleRequest.Loads (fun _ => zeroDigest) exampleBytes zeroDigest ↔
        exampleRequest.pieceLength ≤ maxPieceLength ∧
          SafeName exampleRequest.name ∧
          ∀ f ∈ exampleRequest.regularFiles, ∀ c ∈ f.relComponents,
            SafeName c) := by
  have hnames : ∀ n ∈ [ascii "a", ascii "b", ascii "c", ascii "l"],
      PlainName n ∧ Utf8.fromUtf8 n = .ok n := by
    intro n hn
    have hall : ∀ m ∈ [ascii "a", ascii "b", ascii "c", ascii "l"],
        (m ≠ [] ∧ m ≠ ascii "." ∧ m ≠ ascii ".." ∧ separator ∉ m) ∧
          Utf8.fromUtf8 m = .ok m := by
      decide
    obtain ⟨⟨h₁, h₂, h₃, h₄⟩, h₅⟩ := hall n hn
    exact ⟨⟨h₁, h₂, h₃, h₄⟩, h₅⟩
  have hvalid : exampleRequest.node.Valid := by
    simp only [exampleRequest, Node.Valid, EntriesValid, and_true, true_and]
    exact ⟨hnames _ (by decide), by decide, hnames _ (by decide),
      hnames _ (by decide), hnames _ (by decide), by decide⟩
  have hcreate : createTorrent (fun _ => zeroDigest) (fun _ => 1)
      exampleRequest = .ok (exampleBytes, zeroDigest) := by
    decide +kernel
  have hname : Utf8.fromUtf8 exampleRequest.name = .ok exampleRequest.name := by
    decide +kernel
  have htrackers : ∀ url ∈ exampleRequest.trackers,
      Utf8.fromUtf8 url = .ok url := by
    decide +kernel
  have hlen : exampleBytes.length < 2 ^ 63 := by
    decide +kernel
  exact ⟨hcreate, createTorrent_loads_iff _ _ _ _ _ hvalid hname htrackers
    hlen hcreate⟩

/-- A request for a file of one byte in the directory `/in`. -/
def oneByteRequest (name : Bytes) (pieceLength : ℕ) : Request where
  path := ascii "/in/" ++ name
  node := .file [65]
  trackers := []
  pieceLength := pieceLength
  nameOverride := none
  isPrivate := false

/-- The `.torrent` file of `oneByteRequest`, given the printed name and piece
length. -/
def oneByteBytes (name pieceLength : String) : Bytes :=
  ascii ("d4:infod6:lengthi1e4:name" ++ name ++ "12:piece lengthi" ++
    pieceLength ++ "e6:pieces20:") ++ List.replicate 20 0 ++ ascii "ee"

/-- The torrent with one file `aux` of one byte. -/
def auxTorrent : TorrentFile where
  infoHash := zeroDigest
  announce := none
  announceList := []
  info := {
    name := ascii "aux", pieceLength := 1, pieceHashes := [zeroDigest],
    files := .single 1, isPrivate := false }

/-- Creation succeeds on a file whose name has a backslash, with a piece
length above the loader's bound, and on a file with a reserved name; the first
two are refused by the loader and the third by the layout. -/
theorem created_not_loaded : createTorrent (fun _ => zeroDigest) (fun _ => 1)
        (oneByteRequest (ascii "a\\b") 1) =
      .ok (oneByteBytes "3:a\\b" "1", zeroDigest) ∧
    TorrentFile.fromBytes (fun _ => zeroDigest) (oneByteBytes "3:a\\b" "1") =
      .err (.bencodeEcho [.text "unsafe torrent name: ",
        .debug (describeUnsafeComponent (ascii "a\\b"))]) ∧
    createTorrent (fun _ => zeroDigest) (fun _ => 1)
        (oneByteRequest (ascii "x") (2 ^ 30 + 1)) =
      .ok (oneByteBytes "1:x" "1073741825", zeroDigest) ∧
    TorrentFile.fromBytes (fun _ => zeroDigest)
        (oneByteBytes "1:x" "1073741825") =
      .err (.bencode "implausible piece length: 1073741825") ∧
    createTorrent (fun _ => zeroDigest) (fun _ => 1)
        (oneByteRequest (ascii "aux") 1) =
      .ok (oneByteBytes "3:aux" "1", zeroDigest) ∧
    TorrentFile.fromBytes (fun _ => zeroDigest)
        (oneByteBytes "3:aux" "1") = .ok auxTorrent ∧
    ∀ root, Layout.fromTorrent root auxTorrent =
      .err (.bencodeEcho [.text "unsafe torrent name ",
        .debug (Utf8.chars (ascii "aux")),
        .text ": reserved device name"]) := by
  refine ⟨by decide +kernel, by decide +kernel, by decide +kernel,
    by decide +kernel, by decide +kernel, by decide +kernel, fun root => ?_⟩
  have hleaf : ensureSafeLeafName (ascii "aux") =
      .err (.bencodeEcho [.text "unsafe torrent name ",
        .debug (Utf8.chars (ascii "aux")),
        .text ": reserved device name"]) := by
    decide +kernel
  rw [Layout.fromTorrent, auxTorrent, hleaf, err_bind]

end RustyTorrent.Create
