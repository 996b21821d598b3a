import RustyTorrent.Storage.Disk
import RustyTorrent.Support.KeyedStore

/-!
# The disk is a faithful store

Every position of the torrent stream has an address on disk: a path and an
offset.  Writing a piece performs the writes of its bytes at the addresses of
its positions, and reading a range collects the bytes at the addresses of its
positions.  So the disk keeps pieces apart exactly when addresses keep
positions apart, which is when no two non-empty files share a path.
-/

namespace RustyTorrent.Storage

open UnixPath Segments KeyedStore List Outcome Function Nat Store Layout

/-! ## Addresses -/

/-- The byte at an offset of a file. -/
def FileSystem.byteAt (fs : FileSystem) (a : Path × ℕ) : Option UInt8 :=
  (fs a.1).bind fun content => content[a.2]?

namespace Layout

/-- The path and the offset of a place. -/
def address (l : Layout) (place : ℕ × ℕ) : Path × ℕ :=
  ((l.files[place.1]?.map FileSpan.path).getD [], place.2)

/-- The address of a position of the stream. -/
def addressOf (l : Layout) (pos : ℕ) : Option (Path × ℕ) :=
  (locate pos 0 0 l.lengths).map l.address

/-- The addresses of `n` positions from `a` on. -/
def addresses (l : Layout) (a n : ℕ) : List (Path × ℕ) :=
  (places (cut a (a + n) 0 0 l.lengths)).map l.address

/-- No two non-empty files share a path. -/
def DistinctPaths (l : Layout) : Prop :=
  l.files.Pairwise fun f f' =>
    0 < f.length → 0 < f'.length → f.path ≠ f'.path

variable {l : Layout}

theorem Placed.lengths_sum (h : l.Placed) : l.lengths.sum = l.totalLength :=
  h.total

variable {a n : ℕ}

section

variable (h : l.Placed) (hn : a + n ≤ l.totalLength)

include h hn

theorem Placed.map_addresses :
    (l.addresses a n).map some = (range' a n).map l.addressOf := by
  have hplaces := places_cut (i := 0) (zero_le a) (le_add_right a n)
    (by rw [h.lengths_sum]; omega : a + n ≤ 0 + l.lengths.sum)
  rw [Nat.add_sub_cancel_left] at hplaces
  have hmap := congrArg (map (Option.map l.address)) hplaces
  have haddress : l.addressOf =
      fun pos => (locate pos 0 0 l.lengths).map l.address := rfl
  simpa [addresses, haddress, comp_def] using hmap

theorem Placed.addresses_length : (l.addresses a n).length = n := by
  simpa using congrArg length (h.map_addresses hn)

theorem Placed.addresses_part {b m : ℕ} (hm : b + m ≤ n) :
    l.addresses (a + b) m = ((l.addresses a n).drop b).take m := by
  apply map_injective_iff.mpr (Option.some_injective _)
  rw [h.map_addresses (by omega), map_take, map_drop,
    h.map_addresses hn, ← map_drop, ← map_take]
  rw [drop_range', mul_one, take_range'_of_length_ge (by omega)]

theorem Placed.mem_addresses {x : Path × ℕ} :
    x ∈ l.addresses a n ↔
      ∃ pos, a ≤ pos ∧ pos < a + n ∧ l.addressOf pos = some x := by
  have hsum := h.lengths_sum
  rw [addresses, mem_map]
  constructor
  · rintro ⟨c, hc, rfl⟩
    obtain ⟨pos, hle, hlt, hlocate⟩ :=
      (mem_places_cut (zero_le a) (by omega)).mp hc
    exact ⟨pos, hle, hlt, Option.map_eq_some_iff.mpr ⟨c, hlocate, rfl⟩⟩
  · rintro ⟨pos, hle, hlt, hx⟩
    obtain ⟨c, hlocate, rfl⟩ := Option.map_eq_some_iff.mp hx
    exact ⟨c, (mem_places_cut (zero_le a) (by omega)).mpr
      ⟨pos, hle, hlt, hlocate⟩, rfl⟩

end

theorem DistinctPaths.addressOf_injective (h : l.DistinctPaths) {p q : ℕ}
    {x : Path × ℕ} (hp : l.addressOf p = some x)
    (hq : l.addressOf q = some x) : p = q := by
  obtain ⟨⟨i, k⟩, hi, rfl⟩ := Option.map_eq_some_iff.mp hp
  obtain ⟨⟨j, k'⟩, hj, hx⟩ := Option.map_eq_some_iff.mp hq
  obtain ⟨-, -, len, hlen, hk⟩ := locate_spec (zero_le p) hi
  obtain ⟨-, -, len', hlen', hk'⟩ := locate_spec (zero_le q) hj
  rw [Nat.sub_zero] at hlen hlen'
  obtain ⟨f, hf, rfl⟩ := lengths_getElem? hlen
  obtain ⟨f', hf', rfl⟩ := lengths_getElem? hlen'
  simp only [address, hf, hf', Option.map_some, Option.getD_some,
    Prod.mk.injEq] at hx
  obtain ⟨hpath, rfl⟩ := hx
  obtain ⟨hilt, rfl⟩ := List.getElem?_eq_some_iff.mp hf
  obtain ⟨hjlt, rfl⟩ := List.getElem?_eq_some_iff.mp hf'
  have hpairs := pairwise_iff_getElem.mp h
  rcases lt_trichotomy i j with hlt | rfl | hlt
  · have hne := hpairs i j hilt hjlt hlt (by omega) (by omega)
    exact absurd hpath.symm hne
  · exact locate_injective (zero_le p) (zero_le q) hi hj
  · have hne := hpairs j i hjlt hilt hlt (by omega) (by omega)
    exact absurd hpath hne

theorem Placed.addresses_nodup (h : l.Placed) (hd : l.DistinctPaths)
    (hn : a + n ≤ l.totalLength) : (l.addresses a n).Nodup := by
  apply List.Nodup.of_map some
  rw [h.map_addresses hn]
  apply List.Nodup.map_on _ nodup_range'
  intro p hp q hq hpq
  obtain ⟨-, hplt⟩ := mem_range'_1.mp hp
  have hsum := h.lengths_sum
  obtain ⟨c, hc⟩ : ∃ c, locate p 0 0 l.lengths = some c :=
    exists_locate (zero_le p) (by omega)
  have hp' : l.addressOf p = some (l.address c) := by
    rw [addressOf, hc, Option.map_some]
  exact hd.addressOf_injective hp' (hpq ▸ hp')

theorem Placed.addresses_disjoint (h : l.Placed) (hd : l.DistinctPaths)
    {i j : ℕ} (hi : i < l.numPieces) (hj : j < l.numPieces) (hne : i ≠ j) :
    ∀ x ∈ l.addresses (h.geometry.start i) (h.geometry.size i),
      x ∉ l.addresses (h.geometry.start j) (h.geometry.size j) := by
  intro x hx hx'
  rw [h.mem_addresses (h.geometry.start_add_size_le hi)] at hx
  rw [h.mem_addresses (h.geometry.start_add_size_le hj)] at hx'
  obtain ⟨p, hp, hp', hpx⟩ := hx
  obtain ⟨q, hq, hq', hqx⟩ := hx'
  have hpq := hd.addressOf_injective hpx hqx
  rcases lt_or_gt_of_ne hne with hlt | hlt
  all_goals
    have := h.geometry.start_add_size_le_start hlt
    omega

end Layout

/-! ## Writes at the level of addresses -/

/-- The addresses of a slice of a file. -/
def sliceAddresses (path : Path) (off count : ℕ) : List (Path × ℕ) :=
  (List.range' off count).map fun k => (path, k)

variable {content data : Bytes} {off i : ℕ} {path : Path} {f : FileSpan}
  {l : Layout} {files : List (Option Path)} {fs : FileSystem}

theorem writeAt_length (h : off + data.length ≤ content.length) :
    (writeAt content off data).length = content.length := by
  rw [writeAt_of_le h, Windows.length_put h]

theorem writeAt_getElem? (h : off + data.length ≤ content.length) (k : ℕ) :
    (writeAt content off data)[k]? =
      if off ≤ k ∧ k < off + data.length then data[k - off]?
      else content[k]? := by
  rw [writeAt_of_le h, Windows.getElem?_put h]

theorem byteAt_writeAt (hcontent : fs path = some content)
    (h : off + data.length ≤ content.length) :
    FileSystem.byteAt
        (Function.update fs path (some (writeAt content off data))) =
      putAll fs.byteAt ((sliceAddresses path off data.length).zip data) := by
  have hlen : (sliceAddresses path off data.length).length = data.length := by
    simp [sliceAddresses]
  have hnodup : (sliceAddresses path off data.length).Nodup :=
    .map (fun _ _ heq => (Prod.mk.inj heq).2) nodup_range'
  funext ⟨p, k⟩
  by_cases hx : (p, k) ∈ sliceAddresses path off data.length
  · obtain ⟨k', hk, heq⟩ := mem_map.mp hx
    obtain ⟨j, hj, rfl⟩ := mem_range'.mp hk
    cases heq
    have hput := congrArg (·[j]?)
      (map_putAll_of_nodup (m := fs.byteAt) hnodup hlen)
    simp only [FileSystem.byteAt, update_self, Option.bind_some,
      writeAt_getElem? h]
    simpa [sliceAddresses, hj] using hput.symm
  · rw [putAll_of_not_mem (by rwa [map_fst_zip hlen.le])]
    simp only [FileSystem.byteAt]
    by_cases hpath : p = path
    · have hk : ¬ (off ≤ k ∧ k < off + data.length) := fun hk =>
        hx (mem_map.mpr ⟨k, mem_range'_1.mpr hk, by rw [hpath]⟩)
      rw [hpath, update_self, Option.bind_some, writeAt_getElem? h,
        if_neg hk, hcontent, Option.bind_some]
    · rw [update_of_ne hpath]

/-! ## Open files -/

/-- The handles of an opened layout: a file is either skipped, or open under
its own path and at least as long as its span. -/
def Opened (l : Layout) (files : List (Option Path)) (fs : FileSystem) :
    Prop :=
  ∀ (i : ℕ) (f : FileSpan), l.files[i]? = some f →
    files[i]? = some none ∨
      files[i]? = some (some f.path) ∧
        ∃ content, fs f.path = some content ∧ f.length ≤ content.length

theorem Opened.of_lengths {fs' : FileSystem} (h : Opened l files fs)
    (hlen : ∀ p, (fs' p).map length = (fs p).map length) :
    Opened l files fs' := by
  intro i f hf
  rcases h i f hf with hskip | ⟨hopen, content, hcontent, hle⟩
  · exact Or.inl hskip
  · have hsame := hlen f.path
    rw [hcontent, Option.map_some, Option.map_eq_some_iff] at hsame
    obtain ⟨content', hcontent', hlen'⟩ := hsame
    exact Or.inr ⟨hopen, content', hcontent', by omega⟩

/-- A slice that lies within its file. -/
def SliceIn (l : Layout) (s : Slice) : Prop :=
  ∃ f, l.files[s.1]? = some f ∧ s.2.1 + s.2.2 ≤ f.length

theorem sliceIn_of_mem_cut {a b : ℕ} {s : Slice}
    (hs : s ∈ cut a b 0 0 l.lengths) : SliceIn l s := by
  obtain ⟨-, -, len, hlen, hle⟩ := cut_mem hs
  rw [Nat.sub_zero] at hlen
  obtain ⟨f, hf, rfl⟩ := lengths_getElem? hlen
  exact ⟨f, hf, hle⟩

theorem address_slice {s : Slice} (hf : l.files[s.1]? = some f) :
    ((range' s.2.1 s.2.2).map fun k => (s.1, k)).map l.address =
      sliceAddresses f.path s.2.1 s.2.2 := by
  simp [sliceAddresses, address, hf, comp_def]

/-- The total number of bytes in some slices. -/
def sliceCount (slices : List Slice) : ℕ :=
  (slices.map fun s => s.2.2).sum

theorem places_length (slices : List Slice) :
    (places slices).length = sliceCount slices := by
  induction slices with
  | nil => rfl
  | cons s slices ih => simp [places_cons, ih, sliceCount]

/-- Whether the file of every slice is open. -/
def AllOpen (files : List (Option Path)) (slices : List Slice) : Prop :=
  ∀ s ∈ slices, ∃ path, fileAt files s.1 = .ok path

theorem Opened.fileAt (h : Opened l files fs) (hf : l.files[i]? = some f)
    (hpath : fileAt files i = .ok path) :
    path = f.path ∧
      ∃ content, fs f.path = some content ∧ f.length ≤ content.length := by
  rcases h i f hf with hskip | ⟨hopen, hcontent⟩
  · simp [Storage.fileAt, hskip] at hpath
  · simp only [Storage.fileAt, hopen, Except.ok.injEq] at hpath
    exact ⟨hpath.symm, hcontent⟩

/-- What the loop of `write_piece` does: it performs the writes of the bytes
at the addresses of the slices, all of them when every file is open and an
initial part otherwise, and no file changes its length. -/
theorem writeSlices_spec (hopen : Opened l files fs) (data : Bytes)
    (dataOff : ℕ) {slices : List Slice} (hslices : ∀ s ∈ slices, SliceIn l s)
    (hdata : dataOff + sliceCount slices ≤ data.length) :
    ∃ fs' r ws, writeSlices files data fs dataOff slices = .ok (fs', r) ∧
      fs'.byteAt = putAll fs.byteAt ws ∧
      ws <+: ((places slices).map l.address).zip (data.drop dataOff) ∧
      (∀ p, (fs' p).map length = (fs p).map length) ∧
      (r = .ok () ↔ AllOpen files slices) ∧
      (r = .ok () → ws =
        ((places slices).map l.address).zip (data.drop dataOff)) := by
  induction slices generalizing fs dataOff with
  | nil =>
    exact ⟨fs, .ok (), [], rfl, rfl, nil_prefix, fun _ => rfl,
      by simp [AllOpen], by simp⟩
  | cons s slices ih =>
    obtain ⟨i, off, count⟩ := s
    have hcount : sliceCount ((i, off, count) :: slices) =
        count + sliceCount slices := by
      simp [sliceCount]
    rw [hcount] at hdata
    cases hfile : fileAt files i with
    | error e =>
      exact ⟨fs, .error e, [], by simp [writeSlices, hfile], rfl, nil_prefix,
        fun _ => rfl, by simp [AllOpen, hfile], by simp⟩
    | ok path =>
      obtain ⟨f, hf, hin⟩ := hslices (i, off, count) (by simp)
      dsimp only at hf hin
      obtain ⟨rfl, content, hcontent, hlen⟩ := hopen.fileAt hf hfile
      obtain ⟨part, hpart⟩ : ∃ part, (data.drop dataOff).take count = part :=
        ⟨_, rfl⟩
      have hpartLen : part.length = count := by
        rw [← hpart, length_take, length_drop]
        omega
      have hfits : off + part.length ≤ content.length := by omega
      have hlengths : ∀ p, ((Function.update fs f.path
            (some (writeAt content off part))) p).map length =
          (fs p).map length := by
        intro p
        by_cases hp : p = f.path
        · rw [hp, update_self, hcontent, Option.map_some,
            Option.map_some, writeAt_length hfits]
        · rw [update_of_ne hp]
      obtain ⟨fs', r, ws, hrun, hview, hprefix, hsame, hiff, hall⟩ :=
        ih (hopen.of_lengths hlengths) (dataOff + count)
          (fun s hs => hslices s (by simp [hs])) (by omega)
      -- The writes of this slice come first, then those of the rest.
      have hsplit : (((places ((i, off, count) :: slices)).map
          l.address).zip (data.drop dataOff)) =
          (sliceAddresses f.path off count).zip part ++
          ((places slices).map l.address).zip
            (data.drop (dataOff + count)) := by
        rw [places_cons, map_append, address_slice (s := (i, off, count)) hf,
          ← take_append_drop count (data.drop dataOff), hpart,
          zip_append (by simp [sliceAddresses, hpartLen]), drop_drop]
      rw [hsplit]
      refine ⟨fs', r, (sliceAddresses f.path off count).zip part ++ ws, ?_, ?_,
        (prefix_append_right_inj _).mpr hprefix, ?_, ?_, ?_⟩
      · rw [writeSlices, hfile]
        dsimp only
        rw [slice_of_le (by omega) (by omega), ok_bind,
          Nat.add_sub_cancel_left, hcontent, Option.getD_some, hpart]
        exact hrun
      · rw [hview, byteAt_writeAt hcontent hfits, hpartLen]
        exact foldl_append.symm
      · intro p
        rw [hsame, hlengths]
      · rw [hiff]
        simp [AllOpen, hfile]
      · intro hr
        rw [hall hr]

theorem readSlices_spec {slices : List Slice} (hopen : Opened l files fs)
    (hslices : ∀ s ∈ slices, SliceIn l s) (hall : AllOpen files slices) :
    ∃ bytes, readSlices files fs slices = .ok bytes ∧
      bytes.map some = ((places slices).map l.address).map fs.byteAt := by
  induction slices with
  | nil => exact ⟨[], rfl, rfl⟩
  | cons s slices ih =>
    obtain ⟨i, off, count⟩ := s
    obtain ⟨path, hfile⟩ := hall (i, off, count) (by simp)
    obtain ⟨f, hf, hin⟩ := hslices (i, off, count) (by simp)
    dsimp only at hf hin hfile
    obtain ⟨rfl, content, hcontent, hlen⟩ := hopen.fileAt hf hfile
    obtain ⟨rest, hrest, hbytes⟩ :=
      ih (fun s hs => hslices s (by simp [hs]))
        (fun s hs => hall s (by simp [hs]))
    refine ⟨(content.drop off).take count ++ rest, ?_, ?_⟩
    · have hlong : ¬ content.length < off + count := by omega
      simp only [readSlices, hfile, hcontent, Option.getD_some, hrest,
        Bind.bind, Except.bind, hlong, if_false, Pure.pure, Except.pure]
    · rw [map_append, hbytes, places_cons, map_append,
        map_append, address_slice (s := (i, off, count)) hf]
      congr 1
      apply ext_getElem
      · simp only [length_map, length_take, length_drop,
          sliceAddresses, length_range']
        omega
      · intro k hk hk'
        simp only [length_map, length_take, length_drop] at hk
        simp [sliceAddresses, FileSystem.byteAt, hcontent]

theorem fileAt_eq_ok : fileAt files i = .ok path ↔ files[i]? = some (some path) := by
  unfold fileAt
  split
  next h => simp [h]
  next h => simpa using fun hpath => h path hpath

/-! ## Opening -/

theorem openFiles_spec (wantedFiles : Option (List Bool)) (i : ℕ)
    (spans : List FileSpan) (fs : FileSystem) :
    (∀ p content, fs p = some content →
      ∃ content', (openFiles wantedFiles i spans fs).2 p = some content' ∧
        content.length ≤ content'.length) ∧
    ∀ (k : ℕ) (f : FileSpan), spans[k]? = some f →
      (isSkipped wantedFiles (i + k) = true ∧
        (openFiles wantedFiles i spans fs).1[k]? = some none) ∨
      (isSkipped wantedFiles (i + k) = false ∧
        (openFiles wantedFiles i spans fs).1[k]? = some (some f.path) ∧
        ∃ content, (openFiles wantedFiles i spans fs).2 f.path =
          some content ∧ f.length ≤ content.length) := by
  induction spans generalizing i fs with
  | nil => exact ⟨fun p content h => ⟨content, h, le_refl _⟩, by simp⟩
  | cons span spans ih =>
    have hshift : ∀ k, i + 1 + k = i + (k + 1) := by omega
    cases hskip : isSkipped wantedFiles i with
    | true =>
      obtain ⟨hgrow, hfiles⟩ := ih (i + 1) fs
      simp only [openFiles, hskip, if_true]
      refine ⟨hgrow, ?_⟩
      rintro (_ | k) f hf
      · exact Or.inl ⟨hskip, rfl⟩
      · simpa [hshift] using hfiles k f hf
    | false =>
      obtain ⟨hgrow, hfiles⟩ := ih (i + 1) (openFile fs span)
      obtain ⟨content', hcontent', hle⟩ := hgrow _ _ (update_self _ _ _)
      rw [extend, length_append, length_replicate] at hle
      simp only [openFiles, hskip, Bool.false_eq_true, if_false]
      constructor
      · intro p content hp
        by_cases hpath : p = span.path
        · subst hpath
          rw [hp, Option.getD_some] at hle
          exact ⟨content', hcontent', by omega⟩
        · apply hgrow
          rw [openFile, update_of_ne hpath]
          exact hp
      · rintro (_ | k) f hf
        · cases hf
          exact Or.inr ⟨hskip, rfl, content', hcontent', by omega⟩
        · simpa [hshift] using hfiles k f hf

theorem Store.opened_opened (l : Layout) (wantedFiles : Option (List Bool))
    (fs : FileSystem) :
    Opened l (opened l wantedFiles fs).files (opened l wantedFiles fs).fs := by
  intro i f hf
  have hspec := (openFiles_spec wantedFiles 0 l.files fs).2 i f hf
  rcases hspec with ⟨-, hskip⟩ | ⟨-, hopen⟩
  · exact Or.inl hskip
  · exact Or.inr hopen

theorem Store.opened_fileAt (l : Layout) (fs : FileSystem)
    (hf : l.files[i]? = some f) :
    fileAt (opened l none fs).files i = .ok f.path := by
  rw [fileAt_eq_ok]
  rcases (openFiles_spec none 0 l.files fs).2 i f hf with ⟨hskip, -⟩ |
    ⟨-, hopen, -⟩
  · simp [isSkipped] at hskip
  · exact hopen

/-! ## Whole calls -/

namespace Layout

/-- The addresses of a piece. -/
def Placed.pieceAddresses (h : l.Placed) (i : ℕ) : List (Path × ℕ) :=
  l.addresses (h.geometry.start i) (h.geometry.size i)

/-- The slices of a piece. -/
def Placed.pieceSlices (h : l.Placed) (i : ℕ) : List Slice :=
  cut (h.geometry.start i) (h.geometry.start i + h.geometry.size i) 0 0
    l.lengths

theorem Placed.size_eq (h : l.Placed) (hi : i < l.numPieces) :
    Storage.pieceSize l i = .ok (h.geometry.size i) := h.pieceSize_eq hi

theorem Placed.pieceAddresses_length (h : l.Placed) (hi : i < l.numPieces) :
    (h.pieceAddresses i).length = h.geometry.size i :=
  h.addresses_length (h.geometry.start_add_size_le hi)

end Layout

section Calls

variable (h : l.Placed) (hopen : Opened l files fs)

include hopen

theorem writePiece_spec (hi : i < l.numPieces) {data : Bytes}
    (hdata : data.length = h.geometry.size i) :
    ∃ fs' r ws, writePiece l files fs i data = .ok (fs', r) ∧
      fs'.byteAt = putAll fs.byteAt ws ∧
      ws <+: (h.pieceAddresses i).zip data ∧
      (∀ p, (fs' p).map length = (fs p).map length) ∧
      (r = .ok () ↔ AllOpen files (h.pieceSlices i)) ∧
      (r = .ok () → ws = (h.pieceAddresses i).zip data) := by
  have hcount : sliceCount (h.pieceSlices i) = h.geometry.size i := by
    have hlen := h.pieceAddresses_length hi
    rw [← places_length]
    simpa [Layout.Placed.pieceAddresses, addresses,
      Layout.Placed.pieceSlices] using hlen
  rw [writePiece, h.size_eq hi, ok_bind, if_neg (not_not.mpr hdata),
    h.slicesForPiece_eq hi, ok_bind]
  have hslices : ∀ s ∈ h.pieceSlices i, SliceIn l s :=
    fun s hs => sliceIn_of_mem_cut hs
  have hspec := writeSlices_spec hopen data 0 hslices (by omega)
  rw [drop_zero] at hspec
  exact hspec

omit hopen in
variable (files fs) in
theorem writePiece_of_ne (hi : i < l.numPieces) {data : Bytes}
    (hdata : data.length ≠ h.geometry.size i) :
    ∃ e, writePiece l files fs i data = .ok (fs, .error e) := by
  rw [writePiece, h.size_eq hi, ok_bind, if_pos hdata]
  exact ⟨_, rfl⟩

theorem readRange_spec (hi : i < l.numPieces)
    (hall : AllOpen files (h.pieceSlices i)) {begin length : ℕ}
    (hrange : begin + length ≤ h.geometry.size i) :
    ∃ bytes, readRange l files fs i begin length = .ok (.ok bytes) ∧
      bytes.map some =
        (((h.pieceAddresses i).drop begin).take length).map fs.byteAt := by
  have hend := h.geometry.start_add_size_le hi
  have hlt := h.total_lt
  have hstart : h.geometry.start i = i * l.pieceLength := rfl
  have htotal : h.geometry.totalLength = l.totalLength := rfl
  -- The files of a part of the piece are among the files of the piece.
  have hopenPart : AllOpen files (cut (h.geometry.start i + begin)
        (h.geometry.start i + begin + length) 0 0 l.lengths) := by
    intro s hs
    obtain ⟨-, hpos, len, hlen, hin⟩ := cut_mem hs
    have hplace : (s.1, s.2.1) ∈ places (cut (h.geometry.start i + begin)
        (h.geometry.start i + begin + length) 0 0 l.lengths) := by
      rw [places, mem_flatMap]
      refine ⟨s, hs, mem_map.mpr ⟨s.2.1, ?_, rfl⟩⟩
      exact mem_range'_1.mpr ⟨le_refl _, by omega⟩
    have hsub := places_mono (i := 0) (zero_le (h.geometry.start i))
      (le_add_right (h.geometry.start i) begin)
      (by omega : h.geometry.start i + begin + length ≤
        h.geometry.start i + h.geometry.size i)
      (by rw [h.lengths_sum]; omega) hplace
    rw [places, mem_flatMap] at hsub
    obtain ⟨s', hs', hmem⟩ := hsub
    obtain ⟨k, -, hk⟩ := mem_map.mp hmem
    have hfile := hall s' hs'
    rw [Prod.mk.injEq] at hk
    rwa [hk.1] at hfile
  obtain ⟨bytes, hread, hbytes⟩ := readSlices_spec hopen
    (fun s hs => sliceIn_of_mem_cut hs) hopenPart
  have haddresses : (places (cut (h.geometry.start i + begin)
      (h.geometry.start i + begin + length) 0 0 l.lengths)).map l.address =
      ((h.pieceAddresses i).drop begin).take length :=
    h.addresses_part hend hrange
  have hlen : bytes.length = length := by
    have hmap := congrArg List.length hbytes
    rw [haddresses] at hmap
    simp only [length_map, length_take, length_drop,
      h.pieceAddresses_length hi] at hmap
    omega
  refine ⟨bytes, ?_, by rw [hbytes, haddresses]⟩
  rw [readRange, h.size_eq hi, ok_bind, if_neg (by omega),
    checkedMul_of_lt (by omega), ok_bind,
    checkedAdd_of_lt (by omega), ok_bind, ← hstart,
    h.slices_eq (by omega), ok_bind, hread]
  simp [Except.map, hlen]

end Calls

/-! ## Runs -/

/-- A command that addresses a piece below `n`. -/
def StorageCommand.Below (n : ℕ) : StorageCommand → Prop
  | .write index _ => index < n
  | .read index _ _ => index < n
  | .shutdown => True

/-- The commands handled so far and what was answered, latest first. -/
abbrev History := List (StorageCommand × StorageOutput)

/-- The data of the latest write of piece `i` that was reported written. -/
def lastWritten (i : ℕ) : History → Option Bytes
  | [] => none
  | (.write j data, .written _) :: history =>
    if j = i then some data else lastWritten i history
  | _ :: history => lastWritten i history

/-- `s` is reached from `s₀` by handling commands on pieces below `n`. -/
inductive Store.Runs (n : ℕ) (s₀ : Store) : History → Store → Prop where
  | start : Runs n s₀ [] s₀
  | step {history : History} {s s' : Store} {cmd : StorageCommand}
      {out : StorageOutput} (hrun : Runs n s₀ history s)
      (hcmd : cmd.Below n) (hstep : s.step cmd = .ok (s', out)) :
      Runs n s₀ ((cmd, out) :: history) s'

/-- Reads return the latest writes, and a write changes no other written
piece. -/
structure Layout.Faithful (l : Layout) : Prop where
  reads : ∀ wantedFiles fs history s,
    Store.Runs l.numPieces (Store.opened l wantedFiles fs) history s →
    ∀ i begin length s' bytes data, i < l.numPieces →
      s.step (.read i begin length) = .ok (s', .reply (.ok bytes)) →
      lastWritten i history = some data →
      bytes = (data.drop begin).take length
  isolated : ∀ wantedFiles fs history s,
    Store.Runs l.numPieces (Store.opened l wantedFiles fs) history s →
    ∀ i j data s' out, i < l.numPieces → j < l.numPieces → i ≠ j →
      (lastWritten i history).isSome →
      s.step (.write j data) = .ok (s', out) →
      ∀ begin length,
        readRange l s'.files s'.fs i begin length =
          readRange l s.files s.fs i begin length

/-- What holds in every state of a run: the handles are those of the layout,
and every written piece is on disk as it was last written. -/
structure Store.Holds {l : Layout} (h : l.Placed) (history : History)
    (s : Store) : Prop where
  layout : s.layout = l
  opened : Opened l s.files s.fs
  written : ∀ i data, lastWritten i history = some data →
    i < l.numPieces ∧ data.length = h.geometry.size i ∧
      AllOpen s.files (h.pieceSlices i) ∧
      (h.pieceAddresses i).map s.fs.byteAt = data.map some

variable {cmd : StorageCommand} {out : StorageOutput} {history : History}
  {s s' : Store}

theorem lastWritten_of_ne_written {j : ℕ} (hout : ∀ k, out ≠ .written k) :
    lastWritten i ((.write j data, out) :: history) =
      lastWritten i history := by
  cases out with
  | written k => exact absurd rfl (hout k)
  | error | reply | nothing => rfl

theorem Store.Holds.write {h : l.Placed} (hs : s.Holds h history) {j : ℕ}
    (hj : j < l.numPieces) (hstep : s.step (.write j data) = .ok (s', out)) :
    s'.layout = l ∧ s'.files = s.files ∧ Opened l s'.files s'.fs ∧
      ∃ ws, s'.fs.byteAt = putAll s.fs.byteAt ws ∧
        ws <+: (h.pieceAddresses j).zip data ∧
        ((∀ k, out ≠ .written k) ∧
            (AllOpen s.files (h.pieceSlices j) → ws = []) ∨
          out = .written j ∧ data.length = h.geometry.size j ∧
            AllOpen s.files (h.pieceSlices j) ∧
            ws = (h.pieceAddresses j).zip data) := by
  rw [step] at hstep
  split at hstep
  next hrunning =>
    simp only [hs.layout] at hstep
    by_cases hdata : data.length = h.geometry.size j
    · obtain ⟨fs', r, ws, hwrite, hview, hprefix, hlen, hiff, hall⟩ :=
        writePiece_spec h hs.opened hj hdata
      rw [hwrite, ok_bind] at hstep
      cases r with
      | error e =>
        cases hstep
        refine ⟨rfl, rfl, hs.opened.of_lengths hlen, ws, hview,
          hprefix, Or.inl ⟨by simp, ?_⟩⟩
        intro hopen
        exact absurd (hiff.mpr hopen) (by simp)
      | ok u =>
        cases hstep
        exact ⟨rfl, rfl, hs.opened.of_lengths hlen, ws, hview,
          hprefix, Or.inr ⟨rfl, hdata, hiff.mp rfl, hall rfl⟩⟩
    · obtain ⟨e, hwrite⟩ := writePiece_of_ne s.files s.fs h hj hdata
      rw [hwrite] at hstep
      cases hstep
      exact ⟨rfl, rfl, hs.opened, [], rfl, nil_prefix,
        Or.inl ⟨by simp, fun _ => rfl⟩⟩
  next =>
    cases hstep
    exact ⟨hs.layout, rfl, hs.opened, [], rfl, nil_prefix,
      Or.inl ⟨by simp, fun _ => rfl⟩⟩

theorem Store.step_of_not_write (hcmd : ∀ j data, cmd ≠ .write j data)
    (hstep : s.step cmd = .ok (s', out)) :
    s'.layout = s.layout ∧ s'.files = s.files ∧ s'.fs = s.fs := by
  unfold step at hstep
  split at hstep
  · cases cmd with
    | write j data => exact absurd rfl (hcmd j data)
    | read j b n =>
      obtain ⟨r, -, hr⟩ := bind_eq_ok.mp hstep
      cases hr
      exact ⟨rfl, rfl, rfl⟩
    | shutdown =>
      cases hstep
      exact ⟨rfl, rfl, rfl⟩
  · cases hstep
    exact ⟨rfl, rfl, rfl⟩

theorem not_mem_of_prefix_zip {x : Path × ℕ} {as : List (Path × ℕ)}
    {ws : List ((Path × ℕ) × UInt8)}
    (hws : ws <+: as.zip data) (hx : x ∉ as) : x ∉ ws.map Prod.fst := by
  intro hmem
  obtain ⟨w, hw, rfl⟩ := mem_map.mp hmem
  exact hx (of_mem_zip (hws.subset hw)).1

theorem Store.Holds.step {h : l.Placed} (hd : l.DistinctPaths)
    (hs : s.Holds h history)
    (hcmd : cmd.Below l.numPieces) (hstep : s.step cmd = .ok (s', out)) :
    s'.Holds h ((cmd, out) :: history) := by
  cases cmd with
  | write j data =>
    obtain ⟨hlayout, hfiles, hopened, ws, hview, hprefix, hcases⟩ :=
      hs.write hcmd hstep
    refine ⟨hlayout, hopened, ?_⟩
    rw [hfiles, hview]
    intro i d hlast
    -- Pieces other than the written one keep their bytes.
    have hother : i ≠ j → lastWritten i history = some d →
        i < l.numPieces ∧ d.length = h.geometry.size i ∧
          AllOpen s.files (h.pieceSlices i) ∧
          (h.pieceAddresses i).map (putAll s.fs.byteAt ws) = d.map some := by
      intro hij hlast
      obtain ⟨hi, hlen, hopen, hbytes⟩ := hs.written i d hlast
      refine ⟨hi, hlen, hopen, ?_⟩
      rw [map_putAll_of_disjoint, hbytes]
      intro x hx
      exact not_mem_of_prefix_zip hprefix
        (h.addresses_disjoint hd hi hcmd hij x hx)
    rcases hcases with ⟨hout, hnone⟩ | ⟨rfl, hlen, hopen, rfl⟩
    · rw [lastWritten_of_ne_written hout] at hlast
      by_cases hij : i = j
      · -- A written piece has all its files open, so a failed write of it
        -- changed nothing.
        subst hij
        rw [hnone (hs.written i d hlast).2.2.1]
        exact hs.written i d hlast
      · exact hother hij hlast
    · by_cases hij : j = i
      · subst hij
        cases (if_pos rfl).symm.trans hlast
        refine ⟨hcmd, hlen, hopen, map_putAll_of_nodup ?_ ?_⟩
        · exact h.addresses_nodup hd (h.geometry.start_add_size_le hcmd)
        · rw [h.pieceAddresses_length hcmd, hlen]
      · exact hother (Ne.symm hij) ((if_neg hij).symm.trans hlast)
  | read | shutdown =>
    obtain ⟨hlayout, hfiles, hfs⟩ := step_of_not_write (by simp) hstep
    refine ⟨hlayout.trans hs.layout, ?_, ?_⟩
    · rw [hfiles, hfs]
      exact hs.opened
    · rw [hfiles, hfs]
      exact hs.written

theorem Store.Runs.holds (h : l.Placed) (hd : l.DistinctPaths)
    {wantedFiles : Option (List Bool)} {fs : FileSystem}
    (hrun : Store.Runs l.numPieces (opened l wantedFiles fs) history s)
    : s.Holds h history := by
  induction hrun with
  | start =>
    refine ⟨rfl, opened_opened l wantedFiles fs, ?_⟩
    intro i data hlast
    simp [lastWritten] at hlast
  | step _ hcmd hstep ih => exact ih.step hd hcmd hstep

theorem Store.Holds.readRange_eq {h : l.Placed}
    (hs : s.Holds h history) (hlast : lastWritten i history = some data)
    {begin length : ℕ} (hrange : begin + length ≤ h.geometry.size i) :
    readRange l s.files s.fs i begin length =
      .ok (.ok ((data.drop begin).take length)) := by
  obtain ⟨hi, hlen, hopen, hbytes⟩ := hs.written i data hlast
  obtain ⟨bytes, hread, hmap⟩ := readRange_spec h hs.opened hi hopen hrange
  rw [map_take, map_drop, hbytes, ← map_drop, ← map_take] at hmap
  rw [hread, map_injective_iff.mpr (Option.some_injective _) hmap]

theorem readRange_past_end (h : l.Placed) (hi : i < l.numPieces)
    {begin length : ℕ} (hrange : h.geometry.size i < begin + length)
    (files : List (Option Path)) (fs : FileSystem) :
    readRange l files fs i begin length =
      .ok (.error (.io .invalidInput "read past piece end")) := by
  rw [readRange, h.size_eq hi, ok_bind, if_pos hrange]
  rfl

theorem Layout.Placed.faithful (h : l.Placed)
    (hd : l.DistinctPaths) : l.Faithful := by
  constructor
  · intro wantedFiles fs history s hrun i begin length s' bytes data hi hstep
      hlast
    have hs := hrun.holds h hd
    rw [step] at hstep
    split at hstep
    next hrunning =>
      simp only [hs.layout, bind_eq_ok, pure_eq,
        ok.injEq, Prod.mk.injEq, StorageOutput.reply.injEq] at hstep
      obtain ⟨r, hread, -, rfl⟩ := hstep
      by_cases hrange : begin + length ≤ h.geometry.size i
      · rw [hs.readRange_eq hlast hrange] at hread
        simpa using hread.symm
      · rw [readRange_past_end h hi (by omega)] at hread
        simp at hread
    next => simp at hstep
  · intro wantedFiles fs history s hrun i j data s' out hi hj hij hlast hstep
      begin length
    have hs := hrun.holds h hd
    have hbelow : (StorageCommand.write j data).Below l.numPieces := hj
    have hs' := hs.step hd hbelow hstep
    obtain ⟨d, hd'⟩ := Option.isSome_iff_exists.mp hlast
    have hlast' : lastWritten i ((.write j data, out) :: history) =
        some d := by
      cases out with
      | written k => exact (if_neg (Ne.symm hij)).trans hd'
      | error | reply | nothing => exact hd'
    by_cases hrange : begin + length ≤ h.geometry.size i
    · rw [hs.readRange_eq hd' hrange, hs'.readRange_eq hlast' hrange]
    · rw [readRange_past_end h hi (by omega),
        readRange_past_end h hi (by omega)]

/-! ## Files that share a path -/

/-- The store of a layout opened whole on an empty disk, now with the files
of `fs`. -/
def Store.holding (l : Layout) (fs : FileSystem) : Store :=
  { Store.opened l none fun _ => none with fs }

theorem Layout.allOpen_holding (l : Layout) (fs : FileSystem) (a b : ℕ) :
    AllOpen (holding l fs).files (cut a b 0 0 l.lengths) := by
  intro s hs
  obtain ⟨f, hf, -⟩ := sliceIn_of_mem_cut hs
  exact ⟨_, opened_fileAt l _ hf⟩

/-- All ones, except for a zero at one place. -/
def markedData (size u : ℕ) : Bytes := (List.replicate size 1).set u 0

section Shared

variable (h : l.Placed) {p u : ℕ}

include h

theorem Store.Runs.write {s₀ : Store}
    (hrun : Store.Runs l.numPieces s₀ history (holding l fs))
    (hopened : Opened l (holding l fs).files fs) (hp : p < l.numPieces)
    (data : Bytes) (hdata : data.length = h.geometry.size p) :
    ∃ fs', Store.Runs l.numPieces s₀ ((.write p data, .written p) :: history)
        (holding l fs') ∧ Opened l (holding l fs').files fs' := by
  obtain ⟨fs', r, ws, hwrite, -, -, hlen, hiff, -⟩ :=
    writePiece_spec h hopened hp hdata
  obtain rfl := hiff.mpr (l.allOpen_holding fs _ _)
  refine ⟨fs', hrun.step hp ?_, hopened.of_lengths hlen⟩
  exact (if_pos rfl).trans (congrArg (· >>= _) hwrite)

/-- On a faithful disk the address of a byte of a written piece holds that
byte. -/
theorem Layout.Faithful.byteAt_eq {x : Path × ℕ} (hf : l.Faithful)
    (hrun : Store.Runs l.numPieces (opened l none fun _ => none) history
      (holding l fs)) (hopened : Opened l (holding l fs).files fs)
    (hp : p < l.numPieces) (hu : u < h.geometry.size p)
    (hx : l.addressOf (h.geometry.start p + u) = some x)
    (hlast : lastWritten p history = some data) : fs.byteAt x = data[u]? := by
  have hend : h.geometry.start p + h.geometry.size p ≤ l.totalLength :=
    h.geometry.start_add_size_le hp
  obtain ⟨bytes, hbytes, hmap⟩ := readRange_spec h hopened hp
    (l.allOpen_holding fs _ _) (by omega : u + 1 ≤ h.geometry.size p)
  have hpart : ((h.pieceAddresses p).drop u).take 1 = [x] := by
    rw [Layout.Placed.pieceAddresses, ← h.addresses_part hend (by omega)]
    apply map_injective_iff.mpr (Option.some_injective _)
    rw [h.map_addresses (by omega)]
    simp [hx]
  have hstep : (holding l fs).step (.read p u 1) =
      .ok (holding l fs, .reply (.ok bytes)) :=
    (if_pos rfl).trans (congrArg (· >>= _) hbytes)
  rw [hpart, hf.reads none _ _ _ hrun p u 1 _ bytes data hp hstep hlast] at hmap
  have hhead := congrArg head? hmap
  rw [head?_map, head?_take, if_neg one_ne_zero, head?_drop] at hhead
  cases hd : data[u]? with
  | none => simp [hd] at hhead
  | some b => simpa [hd, eq_comm] using hhead

/-- Two positions with one address cannot both hold what was written there. -/
theorem not_faithful_of_shared {a b : ℕ} {x : Path × ℕ} (hab : a < b)
    (hb : b < l.totalLength) (ha : l.addressOf a = some x)
    (hb' : l.addressOf b = some x) : ¬ l.Faithful := by
  intro hf
  have htotal : h.geometry.totalLength = l.totalLength := rfl
  obtain ⟨p, hp, hpa, hpa'⟩ :=
    h.geometry.exists_piece (by omega : a < h.geometry.totalLength)
  obtain ⟨q, hq, hqb, hqb'⟩ := h.geometry.exists_piece
    (by omega : b < h.geometry.totalLength)
  obtain ⟨u, rfl⟩ := Nat.exists_eq_add_of_le hpa
  obtain ⟨v, rfl⟩ := Nat.exists_eq_add_of_le hqb
  have hu : u < h.geometry.size p := by omega
  have hv : v < h.geometry.size q := by omega
  obtain ⟨fs₁, hrun₁, hopened₁⟩ := Store.Runs.write h .start
    (opened_opened l none fun _ => none) hp
    (markedData (h.geometry.size p) u) (by simp [markedData])
  by_cases hpq : p = q
  · subst hpq
    have hzero := hf.byteAt_eq h hrun₁ hopened₁ hp hu ha (if_pos rfl)
    have hone := hf.byteAt_eq h hrun₁ hopened₁ hp hv hb' (if_pos rfl)
    rw [hzero] at hone
    simp [markedData, hu, hv, getElem_set] at hone
    omega
  · -- The later file lies in another piece, which is written with ones.
    obtain ⟨fs₂, hrun₂, hopened₂⟩ := hrun₁.write h hopened₁ hq
      (replicate (h.geometry.size q) 1) length_replicate
    have hzero := hf.byteAt_eq h hrun₂ hopened₂ hp hu ha
      ((if_neg (Ne.symm hpq)).trans (if_pos rfl))
    have hone := hf.byteAt_eq h hrun₂ hopened₂ hq hv hb' (if_pos rfl)
    rw [hzero] at hone
    simp [markedData, hu, hv] at hone

theorem distinctPaths_of_faithful (hf : l.Faithful) : l.DistinctPaths := by
  rw [Layout.DistinctPaths, pairwise_iff_getElem]
  intro i j hi hj hij hlen hlen' hpath
  have hlens : ∀ k (hk : k < l.files.length),
      l.lengths[k]? = some l.files[k].length := by
    intro k hk
    simp [lengths, hk]
  have hsum := h.lengths_sum
  have haddress : ∀ k (hk : k < l.files.length), 0 < l.files[k].length →
      l.addressOf (l.lengths.take k).sum = some (l.files[k].path, 0) := by
    intro k hk hpos
    have hlocate := locate_of_lt_length (i := 0) (o := 0) (hlens k hk) hpos
    rw [zero_add, add_zero, zero_add] at hlocate
    simp [addressOf, hlocate, address, hk]
  refine not_faithful_of_shared h (sum_take_lt hij (hlens i hi) hlen) ?_
    (haddress i hi hlen) ?_ hf
  · rw [← hsum]
    exact sum_take_lt_sum (hlens j hj) hlen'
  · rw [hpath]
    exact haddress j hj hlen'

end Shared

/-! ## Torrents -/

open Metainfo

/-- No two non-empty files of a torrent have the same path. -/
def DistinctFiles : TorrentFiles → Prop
  | .single _ => True
  | .multi entries => entries.Pairwise fun e e' =>
    0 < e.length → 0 < e'.length → e.path ≠ e'.path

theorem Layout.distinctPaths_iff {root : Path} {t : TorrentFile} {l : Layout}
    (ht : t.info.Accepted) (hl : fromTorrent root t = .ok l) :
    l.DistinctPaths ↔ DistinctFiles t.info.files := by
  simp only [fromTorrent, bind_eq_ok, pure_eq, ok.injEq] at hl
  obtain ⟨-, -, files, hfiles, total, -, rfl⟩ := hl
  unfold spans at hfiles
  split at hfiles
  next length hsingle =>
    simp only [bind_eq_ok, pure_eq, ok.injEq] at hfiles
    obtain ⟨path, -, rfl⟩ := hfiles
    simp [Layout.DistinctPaths, DistinctFiles, hsingle]
  next entries hmulti =>
    obtain ⟨-, hlens, hpaths, -⟩ := place_eq_ok hfiles
    have hpairs : files.map (fun f => (f.path, f.length)) = entries.map fun e =>
          (UnixPath.join (UnixPath.join root t.info.name) e.path,
            e.length) := by
      rw [← zip_map', hpaths, hlens, zip_map']
    have hrelative : ∀ e ∈ entries, isAbsolute e.path = false := by
      intro e he
      obtain ⟨segments, hsegments, hpath⟩ := ht.paths entries hmulti e he
      rw [hpath]
      exact not_isAbsolute_relative fun s hs => (hsegments s hs).2.plain
    have hleft : Layout.DistinctPaths
        { root, files, pieceLength := t.info.pieceLength,
          totalLength := total, numPieces := t.numPieces } ↔
        (files.map fun f => (f.path, f.length)).Pairwise
          fun f f' => 0 < f.2 → 0 < f'.2 → f.1 ≠ f'.1 := by
      rw [pairwise_map]
      rfl
    rw [hleft, hpairs, pairwise_map, hmulti]
    apply List.Pairwise.iff_of_mem
    intro e e' he he'
    dsimp only
    rw [ne_eq, ne_eq, join_inj (hrelative e he) (hrelative e' he')]

/-- The disk is a faithful store for exactly the torrents whose non-empty
files have distinct paths. -/
theorem Layout.faithful_iff (sha1Of : Bytes → Digest) (input : Bytes)
    (t : TorrentFile) (root : Path) (l : Layout)
    (ht : TorrentFile.fromBytes sha1Of input = .ok t)
    (hl : Layout.fromTorrent root t = .ok l) :
    l.Faithful ↔ DistinctFiles t.info.files := by
  have haccepted := TorrentFile.fromBytes_accepted sha1Of ht
  have hplaced := Layout.fromTorrent_placed haccepted hl
  rw [← Layout.distinctPaths_iff haccepted hl]
  exact ⟨distinctPaths_of_faithful hplaced, hplaced.faithful⟩

theorem Layout.faithful_iff_example : Layout.exampleLayout.Faithful ↔
      DistinctFiles exampleTorrent.info.files :=
  Layout.faithful_iff (fun _ => zeroDigest) exampleInput exampleTorrent
    (ascii "/dl") Layout.exampleLayout fromBytes_exampleInput
    fromTorrent_exampleTorrent

/-- Two files of three bytes, both at `x/a`. -/
def duplicateInput : Bytes :=
  ascii ("d4:infod5:filesld6:lengthi3e4:pathl1:aeed6:lengthi3e4:pathl1:a" ++
    "eee4:name1:x12:piece lengthi4e6:pieces40:") ++
    List.replicate 40 0 ++ ascii "ee"

/-- What piece 0 reads back as after both pieces were written. -/
def duplicateReadBack (l : Layout) : Outcome Error Bytes := do
  let (s, _) ← (Store.opened l none fun _ => none).step
    (.write 0 [1, 2, 3, 4])
  let (s, _) ← s.step (.write 1 [5, 6])
  let result ← readRange s.layout s.files s.fs 0 0 4
  match result with
  | .ok bytes => .ok bytes
  | .error e => .err e

theorem Layout.duplicate_paths_overwrite : (do
      let t ← TorrentFile.fromBytes (fun _ => zeroDigest) duplicateInput
      let l ← Layout.fromTorrent (ascii "/dl") t
      duplicateReadBack l) = .ok [4, 5, 6, 4] := by
  decide +kernel

end RustyTorrent.Storage
