import RustyTorrent.Storage.Layout
import RustyTorrent.Support.Segments

/-!
# What a layout satisfies

The layout of an accepted torrent places its files consecutively from position
zero to the total length (`Layout.Placed`).  On such a layout the checked
arithmetic of `slices` never overflows and its loop, with its early exits,
computes the plain cut of the range along the file boundaries.
-/

namespace RustyTorrent.Storage

open UnixPath Metainfo Outcome List Nat Segments

/-- Each file starts where the previous one ends. -/
def Consecutive : ℕ → List FileSpan → Prop
  | _, [] => True
  | offset, f :: files =>
    f.start = offset ∧ Consecutive (offset + f.length) files

theorem Consecutive.stop_le {offset : ℕ} {files : List FileSpan}
    (h : Consecutive offset files) :
    ∀ f ∈ files,
      f.start + f.length ≤ offset + (files.map FileSpan.length).sum := by
  induction files generalizing offset with
  | nil => simp
  | cons g files ih =>
    obtain ⟨hstart, hrest⟩ := h
    intro f hf
    rw [map_cons, sum_cons]
    rcases mem_cons.mp hf with rfl | hf
    · omega
    · have := ih hrest f hf
      omega

theorem Consecutive.start_eq {offset k : ℕ} {files : List FileSpan}
    {f : FileSpan} (h : Consecutive offset files) (hf : files[k]? = some f) :
    f.start = offset + ((files.map FileSpan.length).take k).sum := by
  induction files generalizing offset k with
  | nil => cases hf
  | cons g files ih =>
    obtain ⟨hstart, hrest⟩ := h
    cases k with
    | zero =>
      cases hf
      simpa using hstart
    | succ k =>
      rw [ih hrest (by simpa using hf), map_cons, take_succ_cons,
        sum_cons, add_assoc]

/-- A layout whose files cover the stream, cut into the right number of
pieces. -/
structure Layout.Placed (l : Layout) : Prop where
  consecutive : Consecutive 0 l.files
  total : (l.files.map FileSpan.length).sum = l.totalLength
  pieceLength_pos : 0 < l.pieceLength
  pieceLength_le : l.pieceLength ≤ maxPieceLength
  total_pos : 0 < l.totalLength
  total_lt : l.totalLength < 2 ^ 64
  numPieces : l.numPieces = Outcome.divCeil l.totalLength l.pieceLength

/-- The lengths of the files of a layout. -/
def Layout.lengths (l : Layout) : List ℕ := l.files.map FileSpan.length

namespace Layout

/-- The cut of a layout into pieces. -/
def Placed.geometry {l : Layout} (h : l.Placed) : Geometry where
  pieceLength := l.pieceLength
  totalLength := l.totalLength
  numPieces := l.numPieces
  pieceLength_pos := h.pieceLength_pos
  totalLength_pos := h.total_pos
  numPieces_eq := h.numPieces

/-! ## Building -/

variable {base : Path} {offset i : ℕ} {files : List FileSpan} {l : Layout}

theorem joinedUnderRoot_eq_ok {rel full : Path}
    (h : joinedUnderRoot base rel = .ok full) : full = join base rel := by
  simp only [joinedUnderRoot, bind_eq_ok, check_eq_ok, pure_eq, ok.injEq] at h
  obtain ⟨-, -, rfl⟩ := h
  rfl

theorem joinedUnderRoot_ne_panic (base rel : Path) :
    joinedUnderRoot base rel ≠ .panic := by
  simp [joinedUnderRoot, bind_eq_panic]

theorem ensureSafeLeafName_ne_panic (name : Bytes) :
    ensureSafeLeafName name ≠ .panic := by
  unfold ensureSafeLeafName
  split
  · exact check_ne_panic _ _
  · simp

theorem checkComponents_ne_panic (shown : List ℕ) (cs : List Component) :
    checkComponents shown cs ≠ .panic := by
  induction cs with
  | nil => simp [checkComponents]
  | cons c cs ih =>
    cases c with
    | normal part =>
      exact bind_ne_panic (check_ne_panic _ _) fun _ _ => ih
    | rootDir | curDir | parentDir => simp [checkComponents]

theorem ensureSafeRelativePath_ne_panic (path : Path) :
    ensureSafeRelativePath path ≠ .panic :=
  bind_ne_panic (checkComponents_ne_panic _ _) fun _ _ => check_ne_panic _ _

/-- Placing entries succeeds with one span per entry, in order, each under
the base directory. -/
theorem place_eq_ok {entries : List FileEntry}
    (h : place base offset entries = .ok files) :
    Consecutive offset files ∧
      files.map FileSpan.length = entries.map FileEntry.length ∧
      files.map FileSpan.path = entries.map (fun e => join base e.path) ∧
      ∀ e ∈ entries, ensureSafeRelativePath e.path = .ok () := by
  induction entries generalizing offset files with
  | nil =>
    simp only [place, ok.injEq] at h
    subst h
    simp [Consecutive]
  | cons e entries ih =>
    simp only [place, bind_eq_ok, checkedAdd_eq_ok, pure_eq, ok.injEq] at h
    obtain ⟨⟨⟩, hsafe, full, hfull, next, ⟨-, rfl⟩, rest, hrest, rfl⟩ := h
    obtain ⟨hcons, hlens, hpaths, hall⟩ := ih hrest
    refine ⟨⟨rfl, hcons⟩, ?_, ?_, ?_⟩
    · rw [map_cons, map_cons, hlens]
    · rw [map_cons, map_cons, hpaths, joinedUnderRoot_eq_ok hfull]
    · intro e' he'
      rcases mem_cons.mp he' with rfl | he'
      · exact hsafe
      · exact hall e' he'

theorem place_ne_panic {entries : List FileEntry}
    (h : offset + (entries.map FileEntry.length).sum < 2 ^ 64) :
    place base offset entries ≠ .panic := by
  induction entries generalizing offset with
  | nil => simp [place]
  | cons e entries ih =>
    rw [map_cons, sum_cons] at h
    refine bind_ne_panic (ensureSafeRelativePath_ne_panic _) fun _ _ => ?_
    refine bind_ne_panic (joinedUnderRoot_ne_panic _ _) fun full _ => ?_
    rw [checkedAdd_of_lt (by omega), ok_bind]
    refine bind_ne_panic (ih (by omega)) fun rest _ => ?_
    simp

theorem spans_eq_ok {root : Path} {info : Info}
    (h : spans root info = .ok files) :
    Consecutive 0 files ∧ files.map FileSpan.length = info.files.lengths := by
  unfold spans at h
  split at h
  next length hfiles =>
    simp only [bind_eq_ok, pure_eq, ok.injEq] at h
    obtain ⟨path, -, rfl⟩ := h
    simp [Consecutive, TorrentFiles.lengths, hfiles]
  next entries hfiles =>
    obtain ⟨hcons, hlens, -⟩ := place_eq_ok h
    rw [hlens, hfiles]
    exact ⟨hcons, rfl⟩

theorem fromTorrent_placed {root : Path} {t : TorrentFile}
    (ht : t.info.Accepted) (h : fromTorrent root t = .ok l) : l.Placed := by
  simp only [fromTorrent, bind_eq_ok, TorrentFile.totalLength,
    ht.totalLength_eq, pure_eq, ok.injEq] at h
  obtain ⟨-, -, files, hfiles, total, rfl, rfl⟩ := h
  obtain ⟨hcons, hlens⟩ := spans_eq_ok hfiles
  refine ⟨hcons, ?_, ht.pieceLength_pos, ht.pieceLength_le, ht.total_pos,
    ht.total_lt, ht.numPieces⟩
  rw [hlens]

theorem fromTorrent_ne_panic {t : TorrentFile} (ht : t.info.Accepted)
    (root : Path) : fromTorrent root t ≠ .panic := by
  refine bind_ne_panic (ensureSafeLeafName_ne_panic _) fun _ _ => ?_
  refine bind_ne_panic ?_ fun files _ => ?_
  · have hlt := ht.total_lt
    unfold spans
    split
    next =>
      simp [bind_eq_panic, joinedUnderRoot_ne_panic]
    next entries hfiles =>
      rw [hfiles] at hlt
      apply place_ne_panic
      simpa [TorrentFiles.lengths] using hlt
  · rw [TorrentFile.totalLength, ht.totalLength_eq]
    simp

/-! ## Slices -/

theorem lengths_getElem? {len : ℕ} (h : l.lengths[i]? = some len) :
    ∃ f, l.files[i]? = some f ∧ f.length = len := by
  simpa [lengths, Option.map_eq_some_iff] using h

/-- The loop of `slices`, with its `continue` and `break`, is the cut along
the file boundaries. -/
theorem slicesLoop_eq {a b : ℕ} (hfiles : Consecutive offset files)
    (hsum : offset + (files.map FileSpan.length).sum < 2 ^ 64) :
    slicesLoop a b i files =
      .ok (cut a b i offset (files.map FileSpan.length)) := by
  induction files generalizing i offset with
  | nil => rfl
  | cons f files ih =>
    obtain ⟨hstart, hrest⟩ := hfiles
    rw [map_cons, sum_cons] at hsum
    have hnext := ih (i := i + 1) hrest (by omega)
    rw [slicesLoop, FileSpan.stop,
      checkedAdd_of_lt (by omega), ok_bind, map_cons,
      cut, hnext, hstart]
    by_cases hbefore : offset + f.length ≤ a
    · rw [if_pos hbefore, if_neg (by omega)]
    rw [if_neg hbefore]
    by_cases hafter : b ≤ offset
    · -- Nothing of the range is left, so leaving the loop loses nothing.
      rw [if_pos hafter, if_neg (by omega), cut_eq_nil_of_le (by omega)]
    rw [if_neg hafter]
    by_cases hempty : min b (offset + f.length) ≤ max a offset
    · rw [if_pos hempty, if_neg (by omega)]
    · rw [if_neg hempty, if_pos (by omega),
        checkedSub_of_le (le_max_right _ _), ok_bind,
        checkedSub_of_le (by omega), ok_bind]
      rfl

section

variable (h : l.Placed)

include h

theorem Placed.slices_eq {a n : ℕ} (hn : a + n ≤ l.totalLength) :
    l.slices a n = .ok (cut a (a + n) 0 0 l.lengths) := by
  have hlt := h.total_lt
  have hsum : 0 + (l.files.map FileSpan.length).sum < 2 ^ 64 := by
    rw [h.total]
    omega
  rw [slices, checkedAdd_of_lt (by omega), ok_bind,
    slicesLoop_eq h.consecutive hsum]
  rfl

theorem Placed.slicesForPiece_eq (hi : i < l.numPieces) :
    l.slicesForPiece i (h.geometry.size i) =
      .ok (cut (h.geometry.start i)
        (h.geometry.start i + h.geometry.size i) 0 0 l.lengths) := by
  have hlt := h.total_lt
  have hend := h.geometry.start_add_size_le hi
  have hmul : i * l.pieceLength ≤ l.totalLength :=
    le_trans (le_add_right _ _) hend
  rw [slicesForPiece, checkedMul_of_lt (by omega), ok_bind]
  exact h.slices_eq hend

theorem Placed.numPieces_lt : l.numPieces < 2 ^ 64 := by
  have hlt := h.total_lt
  have hlast := h.geometry.start_add_size_last
    (Nat.sub_add_cancel h.geometry.numPieces_pos)
  have hsize := h.geometry.size_pos (l.numPieces - 1)
  have hmul : l.numPieces - 1 ≤ (l.numPieces - 1) * l.pieceLength :=
    Nat.le_mul_of_pos_right _ h.pieceLength_pos
  have hstart : h.geometry.start (l.numPieces - 1) =
      (l.numPieces - 1) * l.pieceLength := rfl
  have htotal : h.geometry.totalLength = l.totalLength := rfl
  have hcount : h.geometry.numPieces = l.numPieces := rfl
  rw [hcount, htotal, hstart] at hlast
  omega

theorem Placed.pieceSize_eq (hi : i < l.numPieces)
    : l.pieceSize i = .ok (h.geometry.size i) := by
  have hlt := h.numPieces_lt
  exact h.geometry.checkedSize_eq (by omega)

theorem Placed.stop_le {f : FileSpan} (hf : f ∈ l.files)
    : f.start + f.length ≤ l.totalLength := by
  have hle := h.consecutive.stop_le f hf
  rwa [h.total, zero_add] at hle

/-- A position lies in one file, at its distance from the start. -/
theorem Placed.locate_eq_some_iff {pos j off : ℕ} :
    locate pos 0 0 l.lengths = some (j, off) ↔
      ∃ f, l.files[j]? = some f ∧ off < f.length ∧ f.start + off = pos := by
  constructor
  · intro hlocate
    obtain ⟨-, hpos, len, hlen, hoff⟩ :=
      locate_spec (zero_le pos) hlocate
    rw [Nat.sub_zero] at hpos hlen
    obtain ⟨f, hf, rfl⟩ := lengths_getElem? hlen
    refine ⟨f, hf, hoff, ?_⟩
    rw [h.consecutive.start_eq hf, hpos]
    rfl
  · rintro ⟨f, hf, hoff, rfl⟩
    have hlen : l.lengths[j]? = some f.length := by simp [lengths, hf]
    have hlocate := locate_of_lt_length (i := 0) (o := 0) hlen hoff
    rwa [zero_add j, lengths, ← h.consecutive.start_eq hf] at hlocate

end

/-- Slices of distinct files, in order, whose bytes are the `n` bytes of the
stream from `a` on: each lies in one file only. -/
structure Partition (l : Layout) (a n : ℕ) (slices : List Segments.Slice) :
    Prop where
  ordered : slices.Pairwise fun s s' => s.1 < s'.1
  within : ∀ s ∈ slices, 0 < s.2.2 ∧
    ∃ f, l.files[s.1]? = some f ∧ s.2.1 + s.2.2 ≤ f.length
  counts : (slices.map fun s => s.2.2).sum = n
  bytes : ∀ k < n, ∃ j off f, (Segments.places slices)[k]? = some (j, off) ∧
    l.files[j]? = some f ∧ off < f.length ∧ f.start + off = a + k ∧
    ∀ j' f', l.files[j']? = some f' → f'.start ≤ a + k →
      a + k < f'.start + f'.length → j' = j

theorem Placed.partition (h : l.Placed) {a n : ℕ} (hn : a + n ≤ l.totalLength) :
    l.Partition a n (cut a (a + n) 0 0 l.lengths) := by
  have hsum : a + n ≤ 0 + l.lengths.sum := by
    rw [zero_add]
    exact hn.trans h.total.ge
  have hplaces := places_cut (i := 0) (zero_le a) (le_add_right a n) hsum
  rw [Nat.add_sub_cancel_left] at hplaces
  refine ⟨cut_pairwise, fun s hs => ?_, ?_, fun k hk => ?_⟩
  · obtain ⟨-, hpos, len, hlen, hle⟩ := cut_mem hs
    obtain ⟨f, hf, rfl⟩ := lengths_getElem? hlen
    exact ⟨hpos, f, hf, hle⟩
  · rw [← length_places]
    simpa using congrArg List.length hplaces
  · obtain ⟨⟨j, off⟩, hlocate⟩ := exists_locate (i := 0)
      (zero_le (a + k)) (show a + k < 0 + l.lengths.sum by omega)
    obtain ⟨f, hf, hoff, hpos⟩ := h.locate_eq_some_iff.mp hlocate
    refine ⟨j, off, f, ?_, hf, hoff, hpos, fun j' f' hf' hle hlt => ?_⟩
    · have hkth := congrArg (·[k]?) hplaces
      simpa [getElem?_range' hk, hlocate] using hkth
    · have hlocate' := h.locate_eq_some_iff.mpr
        ⟨f', hf', show a + k - f'.start < f'.length by omega,
          Nat.add_sub_cancel' hle⟩
      rw [hlocate] at hlocate'
      exact (Prod.ext_iff.mp (Option.some.inj hlocate')).1.symm

/-- The slices of a range are its bytes, file by file, and the slices of the
pieces are all bytes of all files, each once. -/
theorem slices_partition {root : Path} {t : TorrentFile}
    (ht : t.info.Accepted) (hl : fromTorrent root t = .ok l) :
    (∀ a n, a + n ≤ l.totalLength → ∃ slices, l.slices a n = .ok slices ∧
      l.Partition a n slices) ∧
    (∀ i < l.numPieces, ∃ size slices, l.pieceSize i = .ok size ∧
      l.slicesForPiece i size = .ok slices ∧
      l.Partition (i * l.pieceLength) size slices) ∧
    ∀ j f off, l.files[j]? = some f → off < f.length →
      ∃ i < l.numPieces, ∀ i' < l.numPieces, ∀ size slices,
        l.pieceSize i' = .ok size → l.slicesForPiece i' size = .ok slices →
          (Segments.places slices).count (j, off) =
            if i' = i then 1 else 0 := by
  have h := fromTorrent_placed ht hl
  refine ⟨fun a n hn => ⟨_, h.slices_eq hn, h.partition hn⟩,
    fun i hi => ⟨_, _, h.pieceSize_eq hi, h.slicesForPiece_eq hi,
      h.partition (h.geometry.start_add_size_le hi)⟩,
    fun j f off hf hoff => ?_⟩
  have hlocate := h.locate_eq_some_iff.mpr ⟨f, hf, hoff, rfl⟩
  have hstop := h.stop_le (mem_of_getElem? hf)
  obtain ⟨i, hi, hle, hlt⟩ := h.geometry.exists_piece
    (show f.start + off < l.totalLength by omega)
  refine ⟨i, hi, fun i' hi' size slices hsize hslices => ?_⟩
  rw [h.pieceSize_eq hi'] at hsize
  cases hsize
  rw [h.slicesForPiece_eq hi'] at hslices
  cases hslices
  have hend := h.geometry.start_add_size_le hi'
  have hsum : h.geometry.start i' + h.geometry.size i' ≤ 0 + l.lengths.sum := by
    rw [Nat.zero_add]
    exact hend.trans h.total.ge
  split_ifs with heq
  · subst heq
    refine count_eq_one_of_mem (Segments.nodup_places_cut
      (Nat.zero_le _) (Nat.le_add_right _ _) hsum) ?_
    exact (Segments.mem_places_cut (Nat.zero_le _) hsum).mpr
      ⟨_, hle, hlt, hlocate⟩
  · refine count_eq_zero_of_not_mem fun hmem => ?_
    obtain ⟨pos, hle', hlt', hpos⟩ :=
      (Segments.mem_places_cut (Nat.zero_le _) hsum).mp hmem
    obtain rfl := Segments.locate_injective (Nat.zero_le _) (Nat.zero_le _)
      hpos hlocate
    rcases Nat.lt_or_gt_of_ne heq with hlt₂ | hlt₂
    all_goals
      have := h.geometry.start_add_size_le_start hlt₂
      omega

/-- The layout of the example torrent under `/dl`. -/
def exampleLayout : Layout where
  root := ascii "/dl"
  files := [⟨ascii "/dl/x/a/b", 0, 3⟩, ⟨ascii "/dl/x/c", 3, 3⟩]
  pieceLength := 4
  totalLength := 6
  numPieces := 2

theorem fromTorrent_exampleTorrent :
    fromTorrent (ascii "/dl") exampleTorrent = .ok exampleLayout := by
  decide +kernel

theorem slices_partition_example :
    ∃ slices, exampleLayout.slices 1 4 = .ok slices ∧
      exampleLayout.Partition 1 4 slices :=
  (slices_partition (TorrentFile.fromBytes_accepted _ fromBytes_exampleInput)
    fromTorrent_exampleTorrent).1 1 4 (by decide)

end Layout

end RustyTorrent.Storage
