import Mathlib.Data.List.TakeWhile
import RustyTorrent.Storage.LayoutSpec
import RustyTorrent.Support.Hex

/-!
# Files stay under the download root

Two filters look at the names a torrent chooses: the loader refuses segments
that are empty, dots, or contain a separator, and the layout refuses anything
but plain components and reserved device names.  Together they make every file
path the root followed by one or more safe names, for every root.
-/

namespace RustyTorrent.Storage

open UnixPath Metainfo Outcome List Bool Layout

/-! ## Device names -/

/-- `n` is a reserved device name in any letter case, alone or followed by an
extension, with any dots and spaces at its end. -/
def IsDeviceName (n : Bytes) : Prop :=
  ∃ stem extension trailer, n = stem ++ (extension ++ trailer) ∧
    stem.map asciiLower ∈ windowsReserved ∧
    (extension = [] ∨ extension.head? = some (asciiByte '.')) ∧
    ∀ c ∈ trailer, isTrailer c = true

theorem windowsReserved_spec {dev : Bytes} (h : dev ∈ windowsReserved) :
    (∃ c, dev.getLast? = some c ∧ isTrailer c = false) ∧
      asciiByte '.' ∉ dev := by
  have hall : ∀ d ∈ windowsReserved,
      (d.getLast?.any fun c => !isTrailer c) = true ∧ asciiByte '.' ∉ d := by
    decide
  obtain ⟨hlast, hdot⟩ := hall dev h
  refine ⟨?_, hdot⟩
  cases hget : dev.getLast? with
  | none => simp [hget] at hlast
  | some c => exact ⟨c, rfl, by simpa [hget] using hlast⟩

theorem trimEnd_append_trailer {s trailer : Bytes}
    (h : ∀ c ∈ trailer, isTrailer c = true) :
    trimEnd (s ++ trailer) = trimEnd s := by
  have hdrop : trailer.reverse.dropWhile isTrailer = [] := by
    rw [dropWhile_eq_nil_iff]
    intro c hc
    exact h c (mem_reverse.mp hc)
  rw [trimEnd, reverse_append, dropWhile_append, hdrop]
  rfl

theorem trimEnd_isPrefix (s : Bytes) : trimEnd s <+: s := by
  have hsuffix := dropWhile_suffix isTrailer (l := s.reverse)
  have hprefix := reverse_prefix.mpr hsuffix
  rwa [reverse_reverse] at hprefix

variable {c : UInt8} {n name : Bytes} {names : List Bytes} {root : Path}

theorem trimEnd_append {s t : Bytes} (hlast : s.getLast? = some c)
    (hc : isTrailer c = false) : trimEnd (s ++ t) = s ++ trimEnd t := by
  obtain ⟨init, rfl⟩ := getLast?_eq_some_iff.mp hlast
  rw [trimEnd, trimEnd, reverse_append, dropWhile_append]
  split
  next hempty =>
    have hnil : t.reverse.dropWhile isTrailer = [] := by simpa using hempty
    simp [hnil, hc]
  next => simp

theorem asciiLower_dot : asciiLower (asciiByte '.') = asciiByte '.' := by
  decide

theorem asciiLower_of_isTrailer (h : isTrailer c = true) :
    asciiLower c = c := by
  rcases or_eq_true_iff.mp h with h | h
  all_goals
    rw [of_decide_eq_true h]
    decide

theorem isWindowsReserved_of_isDeviceName (h : IsDeviceName n) :
    isWindowsReserved n = true := by
  obtain ⟨stem, extension, trailer, rfl, hdev, hext, htrail⟩ := h
  obtain ⟨⟨c, hlast, hc⟩, hdot⟩ := windowsReserved_spec hdev
  have hlower : trailer.map asciiLower = trailer := by
    conv_rhs => rw [← map_id trailer]
    apply map_congr_left
    intro d hd
    exact asciiLower_of_isTrailer (htrail d hd)
  have htrim : trimEnd ((stem ++ (extension ++ trailer)).map asciiLower) =
      stem.map asciiLower ++ trimEnd (extension.map asciiLower) := by
    rw [map_append, map_append, hlower, ← append_assoc,
      trimEnd_append_trailer htrail, trimEnd_append hlast hc]
  -- What is left of the extension still starts with its dot.
  have hstop : (trimEnd (extension.map asciiLower)).takeWhile
      (· ≠ asciiByte '.') = [] := by
    have hprefix := trimEnd_isPrefix (extension.map asciiLower)
    rcases hext with rfl | hhead
    · rfl
    · cases htrimmed : trimEnd (extension.map asciiLower) with
      | nil => rfl
      | cons d rest =>
        rw [htrimmed] at hprefix
        obtain ⟨more, hmore⟩ := hprefix
        have hd : some d = (extension.map asciiLower).head? := by
          rw [← hmore]
          rfl
        rw [head?_map, hhead, Option.map_some, asciiLower_dot,
          Option.some.injEq] at hd
        simp [hd]
  have hstem : (stem.map asciiLower ++
      trimEnd (extension.map asciiLower)).takeWhile (· ≠ asciiByte '.') =
        stem.map asciiLower := by
    rw [takeWhile_append_of_pos, hstop, append_nil]
    intro d hd
    simp only [ne_eq, decide_not, not_eq_true', decide_eq_false_iff_not]
    rintro rfl
    exact hdot hd
  rw [isWindowsReserved, htrim, hstem]
  exact contains_iff_mem.mpr hdev

theorem trimEnd_split (s : Bytes) : ∃ trailer, s = trimEnd s ++ trailer ∧
      ∀ c ∈ trailer, isTrailer c = true := by
  refine ⟨(s.reverse.takeWhile isTrailer).reverse, ?_, ?_⟩
  · rw [trimEnd, ← reverse_append, takeWhile_append_dropWhile, reverse_reverse]
  · intro c hc
    rw [mem_reverse] at hc
    exact mem_takeWhile_imp hc

theorem isTrailer_of_asciiLower
    (h : isTrailer (asciiLower c) = true) : isTrailer c = true := by
  have hall : ∀ c, isTrailer (asciiLower c) = true → isTrailer c = true :=
    Hex.forall_byte (by decide +kernel)
  exact hall c h

theorem eq_dot_of_asciiLower
    (h : asciiLower c = asciiByte '.') : c = asciiByte '.' := by
  have htrailer : isTrailer c = true := by
    apply isTrailer_of_asciiLower
    rw [h]
    decide
  rwa [asciiLower_of_isTrailer htrailer] at h

theorem isDeviceName_of_isWindowsReserved
    (h : isWindowsReserved n = true) : IsDeviceName n := by
  obtain ⟨trailer, hsplit, htrailer⟩ := trimEnd_split (n.map asciiLower)
  rw [isWindowsReserved, contains_iff_mem] at h
  generalize trimEnd (n.map asciiLower) = trimmed at h hsplit
  have hstop := head?_dropWhile_not (· ≠ asciiByte '.') trimmed
  rw [← takeWhile_append_dropWhile (p := (· ≠ asciiByte '.'))
    (l := trimmed), append_assoc] at hsplit
  obtain ⟨stem, rest, rfl, hstem, hrest⟩ := map_eq_append_iff.mp hsplit
  obtain ⟨extension, trailer', rfl, hext, htrail⟩ :=
    map_eq_append_iff.mp hrest
  refine ⟨stem, extension, trailer', rfl, ?_, ?_, ?_⟩
  · rw [hstem]
    exact h
  · cases extension with
    | nil => exact Or.inl rfl
    | cons c extension =>
      right
      rw [← hext] at hstop
      simp only [map_cons, head?_cons, ne_eq, decide_not,
        not_eq_false', decide_eq_true_eq] at hstop
      rw [head?_cons, eq_dot_of_asciiLower hstop]
  · intro c hc
    apply isTrailer_of_asciiLower
    apply htrailer
    rw [← htrail]
    exact mem_map_of_mem hc

/-! ## Safe names -/

/-- A plain name that is no device name and has no backslash. -/
structure SafeName (n : Bytes) : Prop where
  plain : PlainName n
  no_backslash : asciiByte '\\' ∉ n
  not_device : ¬ IsDeviceName n

theorem safeName_iff :
    SafeName n ↔ SafeComponent n ∧ isWindowsReserved n = false := by
  rw [← not_eq_true]
  constructor
  · rintro ⟨hplain, hslash, hdevice⟩
    exact ⟨⟨hplain, hslash⟩, mt isDeviceName_of_isWindowsReserved hdevice⟩
  · rintro ⟨⟨hplain, hslash⟩, hreserved⟩
    exact ⟨hplain, hslash, mt isWindowsReserved_of_isDeviceName hreserved⟩

theorem relative_singleton (n : Bytes) : relative [n] = n := by
  simp [relative, List.intercalate]

theorem components_plain (h : PlainName n) : components n = [.normal n] := by
  have hcomponents := components_relative (forall_mem_singleton.mpr h)
  rwa [relative_singleton] at hcomponents

theorem ensureSafeLeafName_eq_ok (hname : SafeComponent name) :
    ensureSafeLeafName name = .ok () ↔ SafeName name := by
  rw [ensureSafeLeafName, components_plain hname.plain, safeName_iff]
  simp [check_eq_ok, hname]

theorem checkComponents_eq_ok (shown : List ℕ) :
    checkComponents shown (names.map .normal) = .ok () ↔
      ∀ n ∈ names, isWindowsReserved n = false := by
  induction names with
  | nil => simp [checkComponents]
  | cons m names ih =>
    simp [checkComponents, bind_eq_ok, check_eq_ok, ih]

theorem ensureSafeRelativePath_eq_ok (h : ∀ n ∈ names, SafeComponent n) :
    ensureSafeRelativePath (relative names) = .ok () ↔
      names ≠ [] ∧ ∀ n ∈ names, SafeName n := by
  have hsafe : (∀ n ∈ names, SafeName n) ↔
      ∀ n ∈ names, isWindowsReserved n = false := by
    refine forall₂_congr fun n hn => ?_
    rw [safeName_iff, and_iff_right (h n hn)]
  rw [hsafe, ← checkComponents_eq_ok (Utf8.chars (relative names)), And.comm]
  simp [ensureSafeRelativePath, components_relative fun n hn => (h n hn).plain,
    bind_eq_ok, check_eq_ok, Unique.exists_iff]

/-! ## Containment -/

/-- `path` leads from `root` down through the safe names `names`. -/
structure Under (root path : Path) (names : List Bytes) : Prop where
  components_eq : components path = components root ++ names.map .normal
  safe : ∀ n ∈ names, SafeName n

theorem Under.resolve_eq {path : Path}
    (h : Under root path names) (cwd : List Bytes) :
    resolve cwd (components path) = resolve cwd (components root) ++ names := by
  rw [h.components_eq, resolve_append_plain]

theorem Under.join {path : Path} {more : List Bytes} (h : Under root path names)
    (hmore : ∀ n ∈ more, SafeName n) (hne : more ≠ []) :
    Under root (join path (relative more)) (names ++ more) := by
  refine ⟨?_, ?_⟩
  · rw [components_join_relative path (fun n hn => (hmore n hn).plain) hne,
      h.components_eq, append_assoc, map_append]
  · intro n hn
    rcases mem_append.mp hn with hn | hn
    · exact h.safe n hn
    · exact hmore n hn

theorem Under.refl (root : Path) : Under root root [] :=
  ⟨by simp, by simp⟩

theorem under_join_name (root : Path) (h : SafeName name) :
    Under root (UnixPath.join root name) [name] := by
  have hunder := (Under.refl root).join (forall_mem_singleton.mpr h) (by simp)
  rwa [relative_singleton] at hunder

/-- The names a file path adds to the root: the torrent's name alone for a
single file, and the name followed by at least one segment otherwise. -/
theorem Layout.spans_under {info : Info} {files : List FileSpan}
    (hinfo : info.Accepted) (hname : ensureSafeLeafName info.name = .ok ())
    (h : spans root info = .ok files) :
    ∀ f ∈ files, ∃ names, Under root f.path (info.name :: names) ∧
      ((∃ entries, info.files = .multi entries) → names ≠ []) := by
  have hsafe := (ensureSafeLeafName_eq_ok hinfo.readable.2).mp hname
  have hbase := under_join_name root hsafe
  unfold spans at h
  split at h
  next length hfiles =>
    simp only [bind_eq_ok, pure_eq, ok.injEq] at h
    obtain ⟨path, hpath, rfl⟩ := h
    intro f hf
    rw [mem_singleton.mp hf]
    refine ⟨[], ?_, ?_⟩
    · rw [joinedUnderRoot_eq_ok hpath]
      exact hbase
    · rintro ⟨entries, hentries⟩
      cases hfiles.symm.trans hentries
  next entries hfiles =>
    obtain ⟨-, -, hpaths, hchecks⟩ := place_eq_ok h
    intro f hf
    have hmem : f.path ∈ files.map FileSpan.path := mem_map_of_mem hf
    rw [hpaths, mem_map] at hmem
    obtain ⟨e, he, hpath⟩ := hmem
    obtain ⟨segments, hsegments, hepath⟩ := hinfo.paths entries hfiles e he
    have hcheck := hchecks e he
    rw [hepath] at hcheck hpath
    obtain ⟨hne, hall⟩ := (ensureSafeRelativePath_eq_ok fun s hs =>
      (hsegments s hs).2).mp hcheck
    refine ⟨segments, ?_, fun _ => hne⟩
    rw [← hpath]
    exact hbase.join hall hne

/-! ## What the layout accepts -/

theorem joinedUnderRoot_relative (base : Path)
    (h : ∀ n ∈ names, PlainName n) (hne : names ≠ []) :
    joinedUnderRoot base (relative names) =
      .ok (join base (relative names)) := by
  have hstarts : UnixPath.startsWith (join base (relative names)) base =
      true := by
    rw [UnixPath.startsWith, components_join_relative base h hne,
      isPrefixOf_iff_prefix]
    exact prefix_append _ _
  simp [joinedUnderRoot, hstarts, Outcome.check]

/-- The path of an entry consists of safe names. -/
def SafeEntry (e : FileEntry) : Prop :=
  ∃ segments, segments ≠ [] ∧ (∀ s ∈ segments, SafeName s) ∧
    e.path = relative segments

theorem Layout.place_of_safe {base : Path} {offset : ℕ}
    {entries : List FileEntry} (h : ∀ e ∈ entries, SafeEntry e)
    (hsum : offset + (entries.map FileEntry.length).sum < 2 ^ 64) :
    ∃ files, place base offset entries = .ok files := by
  induction entries generalizing offset with
  | nil => exact ⟨[], rfl⟩
  | cons e entries ih =>
    obtain ⟨segments, hne, hsafe, hpath⟩ := h e (by simp)
    rw [map_cons, sum_cons] at hsum
    obtain ⟨files, hfiles⟩ := ih (fun e' he' => h e' (by simp [he']))
      (by omega : offset + e.length + _ < 2 ^ 64)
    have hcheck := (ensureSafeRelativePath_eq_ok fun s hs =>
      (safeName_iff.mp (hsafe s hs)).1).mpr ⟨hne, hsafe⟩
    rw [place, hpath, hcheck, ok_bind,
      joinedUnderRoot_relative base (fun s hs => (hsafe s hs).plain) hne,
      ok_bind, checkedAdd_of_lt (by omega),
      ok_bind, hfiles]
    exact ⟨_, rfl⟩

theorem Layout.fromTorrent_of_safe {t : TorrentFile} (ht : t.info.Accepted)
    (hname : SafeName t.info.name)
    (hfiles : ∀ entries, t.info.files = .multi entries →
      ∀ e ∈ entries, SafeEntry e) (root : Path) :
    ∃ l, fromTorrent root t = .ok l := by
  have hlt := ht.total_lt
  have hspans : ∃ files, spans root t.info = .ok files := by
    unfold spans
    split
    next length hsingle =>
      have hjoin := joinedUnderRoot_relative root
        (forall_mem_singleton.mpr hname.plain) (by simp)
      rw [relative_singleton] at hjoin
      rw [hjoin]
      exact ⟨_, rfl⟩
    next entries hmulti =>
      apply place_of_safe (hfiles entries hmulti)
      rw [hmulti, TorrentFiles.lengths] at hlt
      omega
  obtain ⟨files, hspans⟩ := hspans
  rw [fromTorrent,
    (ensureSafeLeafName_eq_ok (safeName_iff.mp hname).1).mpr hname,
    ok_bind, hspans, ok_bind, TorrentFile.totalLength, ht.totalLength_eq]
  exact ⟨_, rfl⟩

/-! ## Containment -/

/-- Every file path of a layout is the root followed by at least one safe
name, and for a multi-file torrent by its name and at least one more; lexical
resolution therefore ends strictly inside the root. -/
theorem Layout.fromTorrent_contained (sha1Of : Bytes → Digest)
    (input : Bytes) (t : TorrentFile) (root : Path) (l : Layout)
    (ht : TorrentFile.fromBytes sha1Of input = .ok t)
    (hl : Layout.fromTorrent root t = .ok l) :
    ∀ f ∈ l.files, ∃ names, components f.path =
        components root ++ (t.info.name :: names).map .normal ∧
      (∀ n ∈ t.info.name :: names, SafeName n) ∧
      (∀ cwd, resolve cwd (components f.path) =
        resolve cwd (components root) ++ t.info.name :: names) ∧
      ((∃ entries, t.info.files = .multi entries) → names ≠ []) := by
  simp only [Layout.fromTorrent, bind_eq_ok, pure_eq, ok.injEq] at hl
  obtain ⟨⟨⟩, hname, files, hfiles, total, -, rfl⟩ := hl
  have haccepted := TorrentFile.fromBytes_accepted sha1Of ht
  intro f hf
  obtain ⟨names, hunder, hmulti⟩ :=
    Layout.spans_under haccepted hname hfiles f hf
  exact ⟨names, hunder.components_eq, hunder.safe, hunder.resolve_eq, hmulti⟩

theorem Layout.fromTorrent_contained_example :
    ∃ names, components (ascii "/dl/x/a/b") =
        components (ascii "/dl") ++ (ascii "x" :: names).map .normal ∧
      names ≠ [] := by
  obtain ⟨names, hcomponents, -, -, hmulti⟩ :=
    Layout.fromTorrent_contained (fun _ => zeroDigest) exampleInput
      exampleTorrent (ascii "/dl") Layout.exampleLayout
      fromBytes_exampleInput Layout.fromTorrent_exampleTorrent
      ⟨ascii "/dl/x/a/b", 0, 3⟩ (by decide)
  exact ⟨names, hcomponents, hmulti ⟨_, rfl⟩⟩

end RustyTorrent.Storage
