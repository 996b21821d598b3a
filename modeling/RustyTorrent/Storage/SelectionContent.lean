import RustyTorrent.Storage.Selection
import RustyTorrent.Storage.Containment

/-!
# What a selection selects

The selectors are looked for in the whole path of a file, so a selector that
begins in the download root selects a file by where it is stored.  The pieces
and files that are asked for are otherwise those of the selected files, as
long as no selected file is empty: an empty file overlaps a piece without
sharing a byte with it, and is never marked.
-/

namespace RustyTorrent.Storage

open UnixPath Metainfo Utf8 Outcome List Layout

namespace Layout

/-! ## Pieces -/

/-- A file overlaps a range by the test of the source. -/
def Overlaps (a b : ℕ) (f : FileSpan) : Prop :=
  f.start < b ∧ a < f.start + f.length

instance (a b : ℕ) (f : FileSpan) : Decidable (Overlaps a b f) :=
  inferInstanceAs (Decidable (_ ∧ _))

theorem anyOverlap_eq (a b : ℕ) {files : List FileSpan}
    (h : ∀ f ∈ files, f.start + f.length < 2 ^ 64) :
    anyOverlap a b files = .ok (decide (∃ f ∈ files, Overlaps a b f)) := by
  induction files with
  | nil => rfl
  | cons f files ih =>
    have hrest := ih fun g hg => h g (by simp [hg])
    have hstop : f.stop = .ok (f.start + f.length) :=
      checkedAdd_of_lt (h f (by simp))
    rw [anyOverlap, hstop, ok_bind, hrest]
    by_cases hf : Overlaps a b f
    · have hex : ∃ g ∈ f :: files, Overlaps a b g := ⟨f, by simp, hf⟩
      rw [if_pos hf.1, if_pos hf.2, decide_eq_true hex]
    · have hiff : (∃ g ∈ f :: files, Overlaps a b g) ↔
          ∃ g ∈ files, Overlaps a b g := by
        simp [hf]
      rw [decide_eq_decide.mpr hiff]
      split_ifs with hb ha
      · exact absurd ⟨hb, ha⟩ hf
      · rfl
      · rfl

/-- The last piece, taken at its full length, ends below `2 ^ 64`. -/
def PiecesFit (l : Layout) : Prop := l.numPieces * l.pieceLength < 2 ^ 64

variable {l : Layout}

section OfPlaced

variable (h : l.Placed)

theorem Placed.pieceEnd_eq {i : ℕ} (hi : i < l.numPieces) :
    min (i * l.pieceLength + l.pieceLength) l.totalLength =
      h.geometry.start i + h.geometry.size i := by
  have hstart : h.geometry.start i = i * l.pieceLength := rfl
  have htotal : h.geometry.totalLength = l.totalLength := rfl
  by_cases hlast : i + 1 = h.geometry.numPieces
  · have hend := h.geometry.start_add_size_last hlast
    have hsize := h.geometry.size_le i
    have hlen : h.geometry.pieceLength = l.pieceLength := rfl
    omega
  · have hlt : i + 1 < h.geometry.numPieces := by
      have : h.geometry.numPieces = l.numPieces := rfl
      omega
    have hsize : h.geometry.size i = l.pieceLength := h.geometry.size_of_lt hlt
    have hend := h.geometry.start_add_size_le hi
    omega

/-- The file overlaps a piece. -/
def Placed.Meets (i : ℕ) (f : FileSpan) : Prop :=
  Overlaps (h.geometry.start i) (h.geometry.start i + h.geometry.size i) f

instance (i : ℕ) (f : FileSpan) : Decidable (h.Meets i f) :=
  inferInstanceAs (Decidable (Overlaps _ _ f))

theorem Placed.isWantedPiece_eq (hfit : l.PiecesFit) {selected : List FileSpan}
    (hsel : ∀ f ∈ selected, f ∈ l.files) {i : ℕ} (hi : i < l.numPieces) :
    l.isWantedPiece selected i =
      .ok (decide (∃ f ∈ selected, h.Meets i f)) := by
  have hle : i * l.pieceLength + l.pieceLength ≤
      l.numPieces * l.pieceLength := by
    rw [← Nat.succ_mul]
    exact Nat.mul_le_mul_right _ hi
  rw [PiecesFit] at hfit
  rw [isWantedPiece, checkedMul_of_lt (by omega), ok_bind,
    checkedAdd_of_lt (by omega), ok_bind, h.pieceEnd_eq hi]
  exact anyOverlap_eq _ _ fun f hf =>
    Nat.lt_of_le_of_lt (h.stop_le (hsel f hf)) h.total_lt

/-- A piece meets a file that is selected. -/
def Placed.Wants (selectors : List Str) (i : ℕ) : Prop :=
  ∃ f ∈ l.files, f.isSelected selectors = true ∧ h.Meets i f

instance (selectors : List Str) (i : ℕ) :
    Decidable (h.Wants selectors i) :=
  inferInstanceAs (Decidable (∃ f ∈ l.files, _))

theorem Placed.wantedPieces_eq (hfit : l.PiecesFit)
    {selectors : List Str} (hne : selectors ≠ []) :
    l.wantedPieces selectors = .ok ((List.range l.numPieces).map
        fun i => decide (h.Wants selectors i)) := by
  rw [wantedPieces, if_neg (mt List.isEmpty_iff.mp hne)]
  apply traverse_of_forall
  intro i hi
  rw [h.isWantedPiece_eq hfit (fun f hf => mem_of_mem_filter hf)
    (mem_range.mp hi)]
  apply congrArg Outcome.ok
  rw [decide_eq_decide, Wants]
  simp only [mem_filter, and_assoc]

include h in
theorem Placed.piecesFit_of_wantedPieces
    {selectors : List Str} (hne : selectors ≠ []) {mask : List Bool}
    (hmask : l.wantedPieces selectors = .ok mask) : l.PiecesFit := by
  have hpos : 0 < l.numPieces := h.geometry.numPieces_pos
  have hmem : l.numPieces - 1 ∈ List.range l.numPieces :=
    mem_range.mpr (by omega)
  rw [wantedPieces, if_neg (mt List.isEmpty_iff.mp hne)] at hmask
  obtain ⟨found, hfound⟩ := exists_of_traverse_eq_ok hmask hmem
  simp only [isWantedPiece, bind_eq_ok, checkedMul_eq_ok,
    checkedAdd_eq_ok] at hfound
  obtain ⟨start, ⟨-, rfl⟩, stop, ⟨hlt, -⟩, -⟩ := hfound
  rw [← Nat.succ_mul, Nat.succ_eq_add_one, Nat.sub_add_cancel hpos] at hlt
  exact hlt

end OfPlaced

/-! ## Files -/

theorem markSlices_eq {slices : List (ℕ × ℕ × ℕ)} {marks : List Bool}
    (h : ∀ s ∈ slices, s.1 < marks.length) :
    ∃ marks', markSlices slices marks = .ok marks' ∧
      marks'.length = marks.length ∧ ∀ k, marks'[k]? = some true ↔
        marks[k]? = some true ∨ ∃ s ∈ slices, s.1 = k := by
  induction slices generalizing marks with
  | nil => exact ⟨marks, rfl, rfl, by simp⟩
  | cons s slices ih =>
    have hs : s.1 < marks.length := h s (by simp)
    have hin : ∀ t ∈ slices, t.1 < (marks.set s.1 true).length := by
      intro t ht
      rw [length_set]
      exact h t (by simp [ht])
    obtain ⟨marks', hrun, hlen, hmarks⟩ := ih hin
    refine ⟨marks', ?_, by rw [hlen, length_set], fun k => ?_⟩
    · rw [markSlices, update_of_lt hs]
      exact hrun
    · rw [hmarks]
      by_cases hk : s.1 = k
      · subst hk
        simp [hs]
      · simp [hk]

theorem markSlices_append (slices slices' : List (ℕ × ℕ × ℕ))
    (marks : List Bool) : markSlices (slices ++ slices') marks =
      markSlices slices marks >>= markSlices slices' := by
  induction slices generalizing marks with
  | nil => rfl
  | cons s slices ih =>
    rw [cons_append, markSlices, markSlices]
    cases (Outcome.update s.1 true marks : Outcome Error (List Bool)) with
    | ok marks => exact ih marks
    | err | panic => rfl

/-- The outer loop marks the files of all slices of the pieces asked for. -/
theorem markPieces_eq {slicesOf : ℕ → List (ℕ × ℕ × ℕ)} (idx : ℕ)
    (wanted marks : List Bool)
    (hslices : ∀ i, i < idx + wanted.length → ∃ size, l.pieceSize i = .ok size ∧
        l.slicesForPiece i size = .ok (slicesOf i)) :
    l.markPieces idx wanted marks =
      markSlices ((wanted.zipIdx idx).flatMap fun w =>
        if w.1 then slicesOf w.2 else []) marks := by
  induction wanted generalizing idx marks with
  | nil => rfl
  | cons w wanted ih =>
    rw [length_cons] at hslices
    have hrest := fun marks =>
      ih (idx + 1) marks fun i hi => hslices i (by omega)
    rw [markPieces, zipIdx_cons, flatMap_cons]
    cases w with
    | false => exact hrest marks
    | true =>
      obtain ⟨size, hsize, hcut⟩ := hslices idx (by omega)
      simp only [Bool.not_true, Bool.false_eq_true, if_false, if_true, hsize,
        ok_bind, hcut, markSlices_append, hrest]

theorem Placed.exists_mem_cut (h : l.Placed) (i k : ℕ) :
    (∃ s ∈ Segments.cut (h.geometry.start i)
        (h.geometry.start i + h.geometry.size i) 0 0 l.lengths, s.1 = k) ↔
      ∃ f, l.files[k]? = some f ∧ f.length ≠ 0 ∧ h.Meets i f := by
  have hpos := h.geometry.size_pos i
  have hcut := Segments.exists_mem_cut (h.geometry.start i)
    (h.geometry.start i + h.geometry.size i) 0 0 k l.lengths
  rw [Nat.zero_add] at hcut
  rw [hcut, lengths]
  constructor
  · rintro ⟨len, hlen, hlt⟩
    rw [getElem?_map, Option.map_eq_some_iff] at hlen
    obtain ⟨f, hf, rfl⟩ := hlen
    have hstart := h.consecutive.start_eq hf
    refine ⟨f, hf, ?_, ?_⟩
    · omega
    · rw [Meets, Overlaps]
      omega
  · rintro ⟨f, hf, hlen, hmeets⟩
    have hstart := h.consecutive.start_eq hf
    rw [Meets, Overlaps] at hmeets
    refine ⟨f.length, by rw [getElem?_map, hf]; rfl, ?_⟩
    omega

/-- The files a selection marks: those that share a byte with a piece it asks
for. -/
theorem Placed.wantedFiles_eq (h : l.Placed)
    (hfit : l.PiecesFit) {selectors : List Str} (hne : selectors ≠ []) :
    ∃ marks, l.wantedFiles selectors = .ok marks ∧
      ∀ k : ℕ, marks[k]? = some true ↔ ∃ f, l.files[k]? = some f ∧
        f.length ≠ 0 ∧ ∃ i, i < l.numPieces ∧ h.Wants selectors i ∧
          h.Meets i f := by
  let slicesOf (i : ℕ) : List (ℕ × ℕ × ℕ) := Segments.cut
    (h.geometry.start i) (h.geometry.start i + h.geometry.size i) 0 0 l.lengths
  let wanted :=
    (range l.numPieces).map fun i => decide (h.Wants selectors i)
  have hslices : ∀ i, i < 0 + wanted.length → ∃ size,
      l.pieceSize i = .ok size ∧ l.slicesForPiece i size = .ok (slicesOf i) := by
    intro i hi
    have hi' : i < l.numPieces := by simpa [wanted] using hi
    exact ⟨_, h.pieceSize_eq hi', h.slicesForPiece_eq hi'⟩
  have hin : ∀ s ∈ wanted.zipIdx.flatMap fun w =>
      if w.1 then slicesOf w.2 else [],
      s.1 < (replicate l.files.length false).length := by
    intro s hs
    obtain ⟨w, -, hw⟩ := mem_flatMap.mp hs
    split_ifs at hw
    · obtain ⟨-, -, len, hlen, -⟩ := Segments.cut_mem hw
      have hlt := (List.getElem?_eq_some_iff.mp hlen).1
      simpa [lengths] using hlt
    · cases hw
  obtain ⟨marks, hrun, -, hmarks⟩ := markSlices_eq hin
  refine ⟨marks, ?_, fun k => ?_⟩
  · rw [wantedFiles, if_neg (mt List.isEmpty_iff.mp hne),
      h.wantedPieces_eq hfit hne, ok_bind, markPieces_eq 0 _ _ hslices]
    exact hrun
  · have hfalse : (replicate l.files.length false)[k]? ≠ some true := by
      simp [getElem?_replicate]
    rw [hmarks, or_iff_right hfalse]
    constructor
    · rintro ⟨s, hs, rfl⟩
      obtain ⟨⟨w, i⟩, hi, hw⟩ := mem_flatMap.mp hs
      rw [mem_zipIdx_iff_getElem?] at hi
      cases w with
      | false => cases hw
      | true =>
        obtain ⟨f, hf, hlen, hmeets⟩ := (h.exists_mem_cut i s.1).mp ⟨s, hw, rfl⟩
        obtain ⟨hlt, hwants⟩ : i < l.numPieces ∧ h.Wants selectors i := by
          simpa [wanted, List.getElem?_eq_some_iff] using hi
        exact ⟨f, hf, hlen, i, hlt, hwants, hmeets⟩
    · rintro ⟨f, hf, hlen, i, hi, hw, hmeets⟩
      obtain ⟨s, hs, rfl⟩ := (h.exists_mem_cut i k).mpr ⟨f, hf, hlen, hmeets⟩
      refine ⟨s, mem_flatMap.mpr ⟨(true, i), ?_, hs⟩, rfl⟩
      rw [mem_zipIdx_iff_getElem?]
      simp [wanted, hi, hw]

end Layout

/-! ## Paths -/

/-- The paths of the files inside the torrent: its name, and for a multi-file
torrent what follows it. -/
def innerPaths (info : Info) : List Path :=
  match info.files with
  | .single _ => [info.name]
  | .multi entries => entries.map fun e => join info.name e.path

/-- What stands before the name of the torrent in the path of a file. -/
def rootPart (root : Path) : Path :=
  if root.getLast?.any (· ≠ separator) then root ++ [separator] else root

/-- The same as text. -/
def rootText (root : Path) : Bytes := fromUtf8Lossy (rootPart root)

theorem join_of_relative (root : Path) {rel : Path}
    (h : isAbsolute rel = false) : join root rel = rootPart root ++ rel := by
  rw [join, push, h, if_neg Bool.false_ne_true, rootPart]
  split
  · simp
  · rfl

theorem separator_ascii : separator.toNat < 0x80 := by decide

theorem fromUtf8Lossy_rootPart (root : Path) {inner : Bytes}
    (h : fromUtf8Lossy inner = inner) :
    fromUtf8Lossy (rootPart root ++ inner) = rootText root ++ inner := by
  have hcut : ∀ r : Path, fromUtf8Lossy (r ++ [separator] ++ inner) =
      fromUtf8Lossy (r ++ [separator]) ++ inner := by
    intro r
    rw [append_assoc, singleton_append,
      fromUtf8Lossy_append_ascii separator_ascii,
      fromUtf8Lossy_append_ascii separator_ascii, h, append_assoc]
    rfl
  rw [rootText, rootPart]
  split
  next => exact hcut root
  next hlast =>
    rcases eq_nil_or_concat' root with rfl | ⟨r, c, rfl⟩
    · exact h
    · have hc : c = separator := by simpa using hlast
      rw [hc]
      exact hcut r

theorem fromUtf8Lossy_relative {names : List Bytes}
    (h : ∀ n ∈ names, ReadableName n) :
    fromUtf8Lossy (relative names) = relative names := by
  induction names with
  | nil => rfl
  | cons n names ih =>
    have hn : fromUtf8Lossy n = n := fromUtf8Lossy_of_valid (h n (by simp)).1
    cases names with
    | nil => simpa [relative, intercalate] using hn
    | cons m names =>
      rw [relative_cons_cons, fromUtf8Lossy_append_ascii separator_ascii,
        hn, ih fun k hk => h k (by simp [hk])]

/-- Every path of a layout is the root followed by a path inside the torrent,
which is text. -/
theorem fromTorrent_paths {root : Path} {t : TorrentFile} {l : Layout}
    (ht : t.info.Accepted) (h : fromTorrent root t = .ok l) :
    l.files.map FileSpan.path = (innerPaths t.info).map (rootPart root ++ ·) ∧
      l.files.map FileSpan.length = t.info.files.lengths ∧
      ∀ inner ∈ innerPaths t.info, fromUtf8Lossy inner = inner := by
  simp only [fromTorrent, bind_eq_ok, pure_eq, ok.injEq] at h
  obtain ⟨-, -, files, hfiles, total, -, rfl⟩ := h
  have hlens := (spans_eq_ok hfiles).2
  have hname := ht.readable.2.plain
  have htext : fromUtf8Lossy t.info.name = t.info.name :=
    fromUtf8Lossy_of_valid ht.readable.1
  have hpart : rootPart t.info.name = t.info.name ++ [separator] :=
    if_pos hname.getLast?_any
  unfold spans at hfiles
  unfold innerPaths
  split at hfiles
  next length hsingle =>
    simp only [bind_eq_ok, pure_eq, ok.injEq] at hfiles
    obtain ⟨path, hpath, rfl⟩ := hfiles
    rw [hsingle, joinedUnderRoot_eq_ok hpath,
      join_of_relative root hname.not_isAbsolute]
    exact ⟨rfl, hsingle ▸ hlens, by simpa using htext⟩
  next entries hmulti =>
    have hrel : ∀ e ∈ entries, isAbsolute e.path = false := by
      intro e he
      obtain ⟨segments, hsegments, hpath⟩ := ht.paths entries hmulti e he
      rw [hpath]
      exact not_isAbsolute_relative fun s hs => (hsegments s hs).2.plain
    rw [hmulti, (place_eq_ok hfiles).2.2.1]
    dsimp only
    refine ⟨?_, hmulti ▸ hlens, ?_⟩
    · have hlast : (rootPart root ++ t.info.name).getLast?.any
          (· ≠ separator) = true := by
        rw [getLast?_append_of_ne_nil _ hname.ne_nil]
        exact hname.getLast?_any
      rw [map_map]
      apply map_congr_left
      intro e he
      rw [Function.comp, join_of_relative root hname.not_isAbsolute,
        join_of_relative _ (hrel e he), join_of_relative _ (hrel e he), hpart,
        rootPart, if_pos hlast]
      simp
    · intro inner hinner
      obtain ⟨e, he, rfl⟩ := mem_map.mp hinner
      obtain ⟨segments, hsegments, hpath⟩ := ht.paths entries hmulti e he
      rw [join_of_relative _ (hrel e he), hpart, append_assoc,
        singleton_append, fromUtf8Lossy_append_ascii separator_ascii,
        htext, hpath, fromUtf8Lossy_relative hsegments]

/-! ## Selecting by content -/

/-- The path of file `i` inside the torrent contains a selector. -/
def ContentSelected (info : Info) (selectors : List Str) (i : ℕ) : Prop :=
  ∃ inner, (innerPaths info)[i]? = some inner ∧
    ∃ s ∈ selectors, s.1 <:+: inner

/-- Some byte of the stream lies in piece `p` and in file `i`. -/
def SharesByte (info : Info) (p i : ℕ) : Prop :=
  ∃ len pos, info.files.lengths[i]? = some len ∧
    (info.files.lengths.take i).sum ≤ pos ∧
    pos < (info.files.lengths.take i).sum + len ∧
    pos / info.pieceLength = p

/-- A layout under which the selectors select by content: the files whose
inner paths contain one, the pieces that share a byte with such a file, and
each such file is marked. -/
structure SelectsByContent (info : Info) (selectors : List Str)
    (l : Layout) : Prop where
  selected : ∀ i f, l.files[i]? = some f →
    (f.isSelected selectors = true ↔ ContentSelected info selectors i)
  pieces : ∃ mask, l.wantedPieces selectors = .ok mask ∧
    mask.length = info.pieceHashes.length ∧
    ∀ p, p < info.pieceHashes.length → (mask[p]? = some true ↔
      ∃ i, ContentSelected info selectors i ∧ SharesByte info p i)
  files : ∃ marks, l.wantedFiles selectors = .ok marks ∧
    ∀ i, ContentSelected info selectors i → marks[i]? = some true

/-- A selector occurs in the root followed by a path, beginning in the root:
it lies in the root, or a non-empty part of it ends the root and the rest
begins the path. -/
def BeginsInRoot (root inner s : Bytes) : Prop :=
  s <:+: root ∨ ∃ s₁ s₂, s₁ ≠ [] ∧ s = s₁ ++ s₂ ∧ s₁ <:+ root ∧ s₂ <+: inner

/-- No selector begins in the root before a path that contains none. -/
def RootApart (info : Info) (selectors : List Str) (root : Path) : Prop :=
  ∀ inner ∈ innerPaths info, (∀ s ∈ selectors, ¬ s.1 <:+: inner) →
    ∀ s ∈ selectors, ¬ BeginsInRoot (rootText root) inner s.1

/-- No file whose inner path contains a selector is empty. -/
def NoneEmpty (info : Info) (selectors : List Str) : Prop :=
  ∀ i, ContentSelected info selectors i → info.files.lengths[i]? ≠ some 0

theorem infix_append_iff_begins (root inner s : Bytes) :
    s <:+: root ++ inner ↔ s <:+: inner ∨ BeginsInRoot root inner s := by
  rw [infix_append_iff, BeginsInRoot]
  constructor
  · rintro (hroot | hinner | ⟨s₁, s₂, hs, h₁, h₂⟩)
    · exact .inr (.inl hroot)
    · exact .inl hinner
    · by_cases hnil : s₁ = []
      · subst hnil
        exact .inl (hs ▸ h₂.isInfix)
      · exact .inr (.inr ⟨s₁, s₂, hnil, hs, h₁, h₂⟩)
  · rintro (hinner | hroot | ⟨s₁, s₂, -, hs, h₁, h₂⟩)
    · exact .inr (.inl hinner)
    · exact .inl hroot
    · exact .inr (.inr ⟨s₁, s₂, hs, h₁, h₂⟩)

section Accepted

variable {root : Path} {t : TorrentFile} {l : Layout} {selectors : List Str}
  (ht : t.info.Accepted) (hl : Layout.fromTorrent root t = .ok l)

include hl in
theorem numPieces_eq : l.numPieces = t.info.pieceHashes.length ∧
      l.pieceLength = t.info.pieceLength := by
  simp only [fromTorrent, bind_eq_ok, pure_eq, ok.injEq] at hl
  obtain ⟨-, -, files, -, total, -, rfl⟩ := hl
  exact ⟨rfl, rfl⟩

include ht hl

theorem exists_inner (selectors : List Str) {i : ℕ} {f : FileSpan}
    (hf : l.files[i]? = some f) :
    ∃ inner, (innerPaths t.info)[i]? = some inner ∧
      t.info.files.lengths[i]? = some f.length ∧
      (f.isSelected selectors = true ↔ ∃ s ∈ selectors,
        s.1 <:+: inner ∨ BeginsInRoot (rootText root) inner s.1) := by
  obtain ⟨hpaths, hlens, htext⟩ := fromTorrent_paths ht hl
  have hpath : (l.files.map FileSpan.path)[i]? = some f.path := by
    rw [getElem?_map, hf]
    rfl
  have hlen : (l.files.map FileSpan.length)[i]? = some f.length := by
    rw [getElem?_map, hf]
    rfl
  rw [hpaths, getElem?_map, Option.map_eq_some_iff] at hpath
  rw [hlens] at hlen
  obtain ⟨inner, hinner, hjoined⟩ := hpath
  refine ⟨inner, hinner, hlen, ?_⟩
  have hlossy := fromUtf8Lossy_rootPart root
    (htext inner (mem_of_getElem? hinner))
  simp only [FileSpan.isSelected, ← hjoined, hlossy, any_eq_true,
    decide_eq_true_eq, infix_append_iff_begins]

theorem exists_file {i : ℕ} {inner : Path}
    (hinner : (innerPaths t.info)[i]? = some inner) :
    ∃ f, l.files[i]? = some f := by
  have hpath : (l.files.map FileSpan.path)[i]? =
      some (rootPart root ++ inner) := by
    rw [(fromTorrent_paths ht hl).1, getElem?_map, hinner]
    rfl
  rw [getElem?_map, Option.map_eq_some_iff] at hpath
  obtain ⟨f, hf, -⟩ := hpath
  exact ⟨f, hf⟩

theorem selected_iff_rootApart :
    (∀ i f, l.files[i]? = some f → (f.isSelected selectors = true ↔
        ContentSelected t.info selectors i)) ↔
      RootApart t.info selectors root := by
  constructor
  · intro h inner hmem hnone s hs hbegins
    obtain ⟨i, hinner⟩ := getElem?_of_mem hmem
    obtain ⟨f, hf⟩ := exists_file ht hl hinner
    obtain ⟨inner', hinner', -, hiff⟩ := exists_inner ht hl selectors hf
    cases hinner.symm.trans hinner'
    have hsel := hiff.mpr ⟨s, hs, .inr hbegins⟩
    obtain ⟨inner', hinner', s', hs', hin⟩ := (h i f hf).mp hsel
    cases hinner.symm.trans hinner'
    exact hnone s' hs' hin
  · intro h i f hf
    obtain ⟨inner, hinner, -, hiff⟩ :=
      exists_inner ht hl selectors hf
    rw [hiff, ContentSelected]
    constructor
    · rintro ⟨s, hs, hin | hbegins⟩
      · exact ⟨inner, hinner, s, hs, hin⟩
      · by_contra hnone
        refine h inner (mem_of_getElem? hinner) ?_ s hs hbegins
        intro s' hs' hin
        exact hnone ⟨inner, hinner, s', hs', hin⟩
    · rintro ⟨inner', hinner', s, hs, hin⟩
      cases hinner.symm.trans hinner'
      exact ⟨s, hs, .inl hin⟩

theorem meets_iff_sharesByte (h : l.Placed) {i p : ℕ}
    {f : FileSpan} (hf : l.files[i]? = some f) (hp : p < l.numPieces) :
    f.length ≠ 0 ∧ h.Meets p f ↔ SharesByte t.info p i := by
  obtain ⟨-, -, hlen, -⟩ := exists_inner ht hl [] hf
  have hlens := (fromTorrent_paths ht hl).2.1
  have hstart := h.consecutive.start_eq hf
  rw [hlens, Nat.zero_add] at hstart
  have hstop := h.stop_le (mem_of_getElem? hf)
  have hend := h.pieceEnd_eq hp
  have hpos := h.pieceLength_pos
  have hfirst : h.geometry.start p = p * l.pieceLength := rfl
  have hsize := h.geometry.size_pos p
  rw [Layout.Placed.Meets, Layout.Overlaps, SharesByte,
    ← (numPieces_eq hl).2, ← hstart]
  constructor
  · rintro ⟨hne, hleft, hright⟩
    refine ⟨f.length, max (h.geometry.start p) f.start, hlen, by omega,
      by omega, ?_⟩
    have hle : max (h.geometry.start p) f.start <
        p * l.pieceLength + l.pieceLength := by omega
    apply Nat.div_eq_of_lt_le
    · omega
    · rw [Nat.succ_mul]
      exact hle
  · rintro ⟨len, pos, hlen', hle, hlt, hdiv⟩
    cases hlen.symm.trans hlen'
    have hlow : p * l.pieceLength ≤ pos := by
      rw [← hdiv]
      exact Nat.div_mul_le_self pos l.pieceLength
    have hhigh : pos < p * l.pieceLength + l.pieceLength := by
      rw [← Nat.succ_mul]
      exact (Nat.div_lt_iff_lt_mul hpos).mp (by omega)
    omega

section Apart

variable (happart : RootApart t.info selectors root)
  (hnonempty : NoneEmpty t.info selectors)

include happart hnonempty

theorem exists_selected {i : ℕ} (h : ContentSelected t.info selectors i) :
    ∃ f, l.files[i]? = some f ∧ f.isSelected selectors = true ∧
      f.length ≠ 0 := by
  obtain ⟨inner, hinner, -⟩ := id h
  obtain ⟨f, hf⟩ := exists_file ht hl hinner
  obtain ⟨-, -, hlen, -⟩ := exists_inner ht hl selectors hf
  refine ⟨f, hf, ((selected_iff_rootApart ht hl).mpr happart i f hf).mpr h, ?_⟩
  intro hzero
  exact hnonempty i h (hzero ▸ hlen)

/-- The pieces asked for share a byte with a file that is selected by its
content. -/
theorem wants_iff_sharesByte (h : l.Placed) {p : ℕ} (hp : p < l.numPieces) :
    h.Wants selectors p ↔
      ∃ i, ContentSelected t.info selectors i ∧ SharesByte t.info p i := by
  constructor
  · rintro ⟨f, hmem, hsel, hmeets⟩
    obtain ⟨i, hf⟩ := getElem?_of_mem hmem
    have hcontent :=
      ((selected_iff_rootApart ht hl).mpr happart i f hf).mp hsel
    obtain ⟨f', hf', -, hne⟩ :=
      exists_selected ht hl happart hnonempty hcontent
    cases hf.symm.trans hf'
    exact ⟨i, hcontent, (meets_iff_sharesByte ht hl h hf hp).mp ⟨hne, hmeets⟩⟩
  · rintro ⟨i, hcontent, hshares⟩
    obtain ⟨f, hf, hsel, -⟩ :=
      exists_selected ht hl happart hnonempty hcontent
    exact ⟨f, mem_of_getElem? hf, hsel,
      ((meets_iff_sharesByte ht hl h hf hp).mpr hshares).2⟩

end Apart

omit ht hl in
theorem exists_meets (h : l.Placed) {f : FileSpan} (hf : f ∈ l.files)
    (hne : f.length ≠ 0) : ∃ p, p < l.numPieces ∧ h.Meets p f := by
  have hstop := h.stop_le hf
  have htotal : h.geometry.totalLength = l.totalLength := rfl
  obtain ⟨p, hp, hlow, hhigh⟩ :=
    h.geometry.exists_piece (by omega : f.start < h.geometry.totalLength)
  exact ⟨p, hp, hhigh, by omega⟩

theorem selectsByContent_iff_apart (hne : selectors ≠ []) :
    SelectsByContent t.info selectors l ↔
      RootApart t.info selectors root ∧ NoneEmpty t.info selectors ∧
        t.info.pieceHashes.length * t.info.pieceLength < 2 ^ 64 := by
  have hplaced := fromTorrent_placed ht hl
  obtain ⟨hnum, hpl⟩ := numPieces_eq hl
  have hfit : l.PiecesFit ↔
      t.info.pieceHashes.length * t.info.pieceLength < 2 ^ 64 := by
    rw [Layout.PiecesFit, hnum, hpl]
  constructor
  · rintro ⟨hselected, ⟨mask, hmask, -, -⟩, marks, hmarks, hall⟩
    have hfits := hplaced.piecesFit_of_wantedPieces hne hmask
    refine ⟨(selected_iff_rootApart ht hl).mp hselected, ?_, hfit.mp hfits⟩
    intro i hcontent hzero
    obtain ⟨marks', hmarks', hiff⟩ := hplaced.wantedFiles_eq hfits hne
    cases hmarks.symm.trans hmarks'
    obtain ⟨f, hf, hlength, -⟩ := (hiff i).mp (hall i hcontent)
    obtain ⟨-, -, hlen, -⟩ := exists_inner ht hl selectors hf
    rw [hzero, Option.some.injEq] at hlen
    exact hlength hlen.symm
  · rintro ⟨happart, hnonempty, hsmall⟩
    have hfits := hfit.mpr hsmall
    refine ⟨(selected_iff_rootApart ht hl).mpr happart,
      ⟨_, hplaced.wantedPieces_eq hfits hne, ?_, ?_⟩, ?_⟩
    · rw [length_map, length_range, hnum]
    · intro p hp
      have hp' : p < l.numPieces := hnum ▸ hp
      rw [← wants_iff_sharesByte ht hl happart hnonempty hplaced hp']
      simp [hp']
    · obtain ⟨marks, hmarks, hiff⟩ := hplaced.wantedFiles_eq hfits hne
      refine ⟨marks, hmarks, fun i hcontent => (hiff i).mpr ?_⟩
      obtain ⟨f, hf, hsel, hlength⟩ :=
        exists_selected ht hl happart hnonempty hcontent
      have hmem := mem_of_getElem? hf
      obtain ⟨p, hp, hmeets⟩ := exists_meets hplaced hmem hlength
      exact ⟨f, hf, hlength, p, hp, ⟨f, hmem, hsel, hmeets⟩, hmeets⟩

end Accepted

theorem mask_eq {mask mask' : List Bool} (hlen : mask.length = mask'.length)
    (h : ∀ p, p < mask.length → (mask[p]? = some true ↔ mask'[p]? = some true))
    : mask = mask' := by
  apply ext_getElem hlen
  intro p hp hp'
  have hiff := h p hp
  rw [getElem?_eq_getElem hp, getElem?_eq_getElem hp',
    Option.some.injEq, Option.some.injEq] at hiff
  exact Bool.eq_iff_iff.mpr hiff

/-- The selectors select by content under both roots, with the same pieces,
exactly when no selector begins in a root before a path without one, no
selected file is empty, and the last piece at its full length ends below
`2 ^ 64`. -/
theorem selectsByContent_iff (sha1Of : Bytes → Digest) (input : Bytes)
    (t : TorrentFile) (root root' : Path) (l l' : Layout)
    (selectors : List Str)
    (ht : TorrentFile.fromBytes sha1Of input = .ok t)
    (hl : Layout.fromTorrent root t = .ok l)
    (hl' : Layout.fromTorrent root' t = .ok l') (hne : selectors ≠ []) :
    (SelectsByContent t.info selectors l ∧
      SelectsByContent t.info selectors l' ∧
      l.wantedPieces selectors = l'.wantedPieces selectors) ↔
    (RootApart t.info selectors root ∧ RootApart t.info selectors root') ∧
      NoneEmpty t.info selectors ∧
      t.info.pieceHashes.length * t.info.pieceLength < 2 ^ 64 := by
  have haccepted := TorrentFile.fromBytes_accepted sha1Of ht
  have hiff := selectsByContent_iff_apart haccepted hl hne
  have hiff' := selectsByContent_iff_apart haccepted hl' hne
  constructor
  · rintro ⟨h, h', -⟩
    obtain ⟨happart, hrest⟩ := hiff.mp h
    exact ⟨⟨happart, (hiff'.mp h').1⟩, hrest⟩
  · rintro ⟨⟨happart, happart'⟩, hrest⟩
    have h := hiff.mpr ⟨happart, hrest⟩
    have h' := hiff'.mpr ⟨happart', hrest⟩
    refine ⟨h, h', ?_⟩
    obtain ⟨mask, hmask, hlen, hpieces⟩ := h.pieces
    obtain ⟨mask', hmask', hlen', hpieces'⟩ := h'.pieces
    have hsame : mask = mask' := by
      apply mask_eq (hlen.trans hlen'.symm)
      intro p hp
      rw [hlen] at hp
      rw [hpieces p hp, hpieces' p hp]
    rw [hmask, hmask', hsame]

/-- The selector `dl`. -/
def dlSelector : Str := ⟨ascii "dl", rfl⟩

/-- The layout of the example torrent under `/tmp`. -/
def tmpLayout : Layout where
  root := ascii "/tmp"
  files := [⟨ascii "/tmp/x/a/b", 0, 3⟩, ⟨ascii "/tmp/x/c", 3, 3⟩]
  pieceLength := 4
  totalLength := 6
  numPieces := 2

theorem fromTorrent_tmp :
    fromTorrent (ascii "/tmp") exampleTorrent = .ok tmpLayout := by
  decide +kernel

theorem selectsByContent_iff_dl :
    (SelectsByContent exampleTorrent.info [dlSelector] Layout.exampleLayout ∧
      SelectsByContent exampleTorrent.info [dlSelector] tmpLayout ∧
      Layout.exampleLayout.wantedPieces [dlSelector] =
        tmpLayout.wantedPieces [dlSelector]) ↔
    (RootApart exampleTorrent.info [dlSelector] (ascii "/dl") ∧
      RootApart exampleTorrent.info [dlSelector] (ascii "/tmp")) ∧
      NoneEmpty exampleTorrent.info [dlSelector] ∧
      exampleTorrent.info.pieceHashes.length *
        exampleTorrent.info.pieceLength < 2 ^ 64 :=
  selectsByContent_iff (fun _ => zeroDigest) exampleInput exampleTorrent
    (ascii "/dl") (ascii "/tmp") Layout.exampleLayout tmpLayout [dlSelector]
    fromBytes_exampleInput Layout.fromTorrent_exampleTorrent fromTorrent_tmp
    (cons_ne_nil _ _)

/-- The files `x/a`, `x/e` and `x/c` of three, no and three bytes, in pieces of
four bytes. -/
def emptyFileInput : Bytes :=
  ascii ("d4:infod5:filesld6:lengthi3e4:pathl1:aeed6:lengthi0e4:pathl1:e" ++
    "eed6:lengthi3e4:pathl1:ceee4:name1:x12:piece lengthi4e6:pieces40:") ++
    List.replicate 40 0 ++ ascii "ee"

/-- The masks of the pieces and the files that a selector asks for. -/
def masks (input : Bytes) (root : Path) (s : Str) :
    Outcome Error (List Bool × List Bool) := do
  let t ← TorrentFile.fromBytes (fun _ => zeroDigest) input
  let l ← Layout.fromTorrent root t
  let pieces ← l.wantedPieces [s]
  let files ← l.wantedFiles [s]
  return (pieces, files)

/-- Under `/dl` the selector `dl` selects everything and under `/tmp` nothing;
the selector `e` asks for the piece around the empty file `x/e`, which is not
marked. -/
theorem selection_not_by_content : masks exampleInput (ascii "/dl") dlSelector =
        .ok ([true, true], [true, true]) ∧
      masks exampleInput (ascii "/tmp") dlSelector =
        .ok ([false, false], [false, false]) ∧
      masks emptyFileInput (ascii "/tmp") ⟨ascii "e", rfl⟩ =
        .ok ([true, false], [true, false, true]) := by
  decide +kernel

end RustyTorrent.Storage
