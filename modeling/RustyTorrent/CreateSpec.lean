import RustyTorrent.Create
import RustyTorrent.Storage.Containment

/-!
# What creation collects and hashes

Whatever the sizes of the reads, `hash_pieces` hashes the concatenated
contents cut into pieces of the given length, the last one possibly shorter,
and the files collected from a directory are its regular files in some order.
-/

namespace RustyTorrent.Create

open UnixPath Metainfo BencodeValue List Outcome Nat

/-! ## Hashing -/

section Hash

variable {sha1Of : Bytes → Digest} {n : ℕ} {stream : Bytes}
  {st : HashState}

/-- The hashes of the given pieces, one after the other. -/
def hashAll (sha1Of : Bytes → Digest) (pieces : List Bytes) : Bytes :=
  pieces.flatMap fun p => (sha1Of p).1

theorem length_hashAll (sha1Of : Bytes → Digest) (pieces : List Bytes) :
    (hashAll sha1Of pieces).length = 20 * pieces.length := by
  induction pieces with
  | nil => rfl
  | cons p pieces ih =>
    have hp := (sha1Of p).2
    rw [hashAll] at ih ⊢
    rw [flatMap_cons, length_append, ih, hp, length_cons]
    omega

/-- The state after `stream` has been read: all of its full pieces are
hashed and the rest is in the buffer. -/
structure Hashed (sha1Of : Bytes → Digest) (n : ℕ) (stream : Bytes)
    (full : List Bytes) (st : HashState) : Prop where
  full_length : ∀ p ∈ full, p.length = n
  stream_eq : full.flatten ++ st.buf = stream
  buf_lt : st.buf.length < n
  pieces_eq : st.pieces = hashAll sha1Of full

variable {full : List Bytes}

theorem Hashed.fill (h : Hashed sha1Of n stream full st) (bytes : Bytes)
    (hle : st.buf.length + bytes.length ≤ n) :
    ∃ full', Hashed sha1Of n (stream ++ bytes) full'
      (st.fill sha1Of n bytes) := by
  unfold HashState.fill
  dsimp only
  split
  next hfull =>
    refine ⟨full ++ [st.buf ++ bytes], ?_, ?_, ?_, ?_⟩
    · intro p hp
      rcases mem_append.mp hp with hp | hp
      · exact h.full_length p hp
      · rw [mem_singleton.mp hp]
        exact hfull
    · simp [← h.stream_eq]
    · have := h.buf_lt
      simp only [length_nil]
      omega
    · simp [h.pieces_eq, hashAll]
  next hpart =>
    refine ⟨full, h.full_length, ?_, ?_, h.pieces_eq⟩
    · simp [← h.stream_eq]
    · rw [length_append] at hpart ⊢
      omega

theorem hashFile_hashed (readSize : ℕ → ℕ) (h : Hashed sha1Of n stream full st)
    {fuel : ℕ} (k : ℕ) (left : Bytes) (hfuel : left.length < fuel) :
    ∃ k' st' full', hashFile sha1Of readSize n fuel k st left =
        .ok (k', st') ∧ Hashed sha1Of n (stream ++ left) full' st' := by
  induction fuel generalizing k st stream left full with
  | zero => omega
  | succ fuel ih =>
    have hbuf := h.buf_lt
    rw [hashFile]
    split
    next hzero =>
      -- There is room in the buffer, so nothing read means end of file.
      have hleft : left = [] := by
        apply eq_nil_of_length_eq_zero
        unfold readCount at hzero
        omega
      subst hleft
      exact ⟨k + 1, st, full, rfl, by simpa using h⟩
    next hpos =>
      generalize hcount : readCount (readSize k) (n - st.buf.length)
        left.length = count at hpos ⊢
      have hle : count ≤ n - st.buf.length ∧ count ≤ left.length := by
        unfold readCount at hcount
        omega
      have htake : (left.take count).length = count := by
        rw [length_take]
        omega
      obtain ⟨full', hfill⟩ := h.fill (left.take count) (by omega)
      obtain ⟨k', st', full'', hrun, hend⟩ := ih hfill (k + 1)
        (left.drop count) (by rw [length_drop]; omega)
      refine ⟨k', st', full'', hrun, ?_⟩
      rwa [append_assoc, take_append_drop] at hend

/-- The bytes of all files, one after the other. -/
def streamOf (files : List InputFile) : Bytes :=
  files.flatMap InputFile.contents

theorem hashFiles_hashed (readSize : ℕ → ℕ) (h : Hashed sha1Of n stream full st)
    (k : ℕ) (files : List InputFile) :
    ∃ st' full', hashFiles sha1Of readSize n k st files = .ok st' ∧
      Hashed sha1Of n (stream ++ streamOf files) full' st' := by
  induction files generalizing k st stream full with
  | nil => exact ⟨st, full, rfl, by simpa [streamOf] using h⟩
  | cons f files ih =>
    obtain ⟨k', st', full', hfile, hst'⟩ :=
      hashFile_hashed readSize h k f.contents (lt_succ_self f.contents.length)
    obtain ⟨st'', full'', hfiles, hst''⟩ := ih hst' k'
    refine ⟨st'', full'', ?_, ?_⟩
    · simp only [hashFiles, hfile, ok_bind, hfiles]
    · simpa [streamOf] using hst''

/-- Pieces of the given length that make up the stream, the last one possibly
shorter. -/
structure CutInto (n : ℕ) (stream : Bytes) (pieces : List Bytes) : Prop where
  stream_eq : pieces.flatten = stream
  full_length : ∀ p ∈ pieces.dropLast, p.length = n
  count : pieces.length = Outcome.divCeil stream.length n

theorem length_flatten_of_forall (h : ∀ p ∈ full, p.length = n)
    : full.flatten.length = full.length * n := by
  induction full with
  | nil => simp
  | cons p full ih =>
    rw [flatten_cons, length_append, h p (by simp),
      ih fun q hq => h q (by simp [hq]), length_cons,
      add_mul, one_mul, add_comm]

theorem hashPieces_eq (sha1Of : Bytes → Digest) (readSize : ℕ → ℕ)
    {n : ℕ} (hpos : 0 < n) (hlt : n < 2 ^ 63) (files : List InputFile) :
    ∃ pieces, CutInto n (streamOf files) pieces ∧
      (∀ p ∈ pieces, 0 < p.length ∧ p.length ≤ n) ∧
      hashPieces sha1Of readSize files n = .ok (hashAll sha1Of pieces) := by
  have hstart : Hashed sha1Of n [] [] ⟨[], []⟩ :=
    ⟨by simp, rfl, hpos, rfl⟩
  obtain ⟨st, full, hrun, hst⟩ :=
    hashFiles_hashed readSize hstart 0 files
  have hlen := congrArg List.length hst.stream_eq
  rw [nil_append, length_append,
    length_flatten_of_forall hst.full_length] at hlen
  have hbuf := hst.buf_lt
  have hdiv : (streamOf files).length / n = full.length := by
    rw [← hlen, add_comm, add_mul_div_right _ _ hpos,
      div_eq_of_lt hbuf, zero_add]
  have hmod : (streamOf files).length % n = st.buf.length := by
    rw [← hlen, add_comm, add_mul_mod_self_right, mod_eq_of_lt hbuf]
  have hstream : full.flatten ++ st.buf = streamOf files := by
    simpa using hst.stream_eq
  have hfull : ∀ p ∈ full, 0 < p.length ∧ p.length ≤ n := by
    intro p hp
    rw [hst.full_length p hp]
    exact ⟨hpos, le_rfl⟩
  have hassert : (Outcome.assert (decide (n < 2 ^ 63)) :
      Outcome Error Unit) = .ok () := by
    rw [decide_eq_true hlt, assert_true]
  rw [hashPieces, hassert, ok_bind, hrun]
  by_cases hnil : st.buf = []
  · refine ⟨full, ⟨by simpa [hnil] using hstream, ?_, ?_⟩, hfull, ?_⟩
    · intro p hp
      exact hst.full_length p (mem_of_mem_dropLast hp)
    · rw [hnil, length_nil] at hmod
      simp [Outcome.divCeil, hdiv, hmod]
    · simp [hnil, hst.pieces_eq]
  · refine ⟨full ++ [st.buf], ⟨by simpa using hstream, ?_, ?_⟩, ?_, ?_⟩
    · rw [dropLast_concat]
      exact hst.full_length
    · have hne : st.buf.length ≠ 0 := by simpa using hnil
      simp [Outcome.divCeil, hdiv, hmod, hne]
    · intro p hp
      rcases mem_append.mp hp with hp | hp
      · exact hfull p hp
      · rw [mem_singleton.mp hp]
        exact ⟨length_pos_iff.mpr hnil, hbuf.le⟩
    · simp [hnil, hst.pieces_eq, hashAll]

end Hash

/-! ## Collecting -/

mutual

/-- The regular files below an entry of a directory, links not followed. -/
def regularFiles (parents : List Bytes) (name : Bytes) :
    Node → List InputFile
  | .file contents => [{ contents, relComponents := parents ++ [name] }]
  | .dir entries => regularFilesIn (parents ++ [name]) entries
  | .symlink => []
  | .other => []

/-- The regular files below all entries of a directory. -/
def regularFilesIn (parents : List Bytes) :
    List (Bytes × Node) → List InputFile
  | [] => []
  | (name, node) :: rest =>
    regularFiles parents name node ++ regularFilesIn parents rest

end

theorem visitSorted_perm (groups : List (Bytes × List InputFile)) :
    (visitSorted groups).Perm (groups.flatMap Prod.snd) :=
  (perm_insertionSort _ groups).flatMap_right _

mutual

theorem collectEntry_perm :
    ∀ (node : Node) (parents : List Bytes) (name : Bytes),
      (collectEntry parents name node).Perm (regularFiles parents name node)
  | .file contents, parents, name => by
    rw [collectEntry, regularFiles]
  | .dir entries, parents, name => by
    rw [collectEntry, regularFiles]
    exact (visitSorted_perm _).trans
      (collectGroups_perm entries (parents ++ [name]))
  | .symlink, parents, name => by rw [collectEntry, regularFiles]
  | .other, parents, name => by rw [collectEntry, regularFiles]

theorem collectGroups_perm :
    ∀ (entries : List (Bytes × Node)) (parents : List Bytes),
      ((collectGroups parents entries).flatMap Prod.snd).Perm
        (regularFilesIn parents entries)
  | [], parents => by
    rw [collectGroups, regularFilesIn]
    rfl
  | (name, node) :: rest, parents => by
    rw [collectGroups, regularFilesIn, flatMap_cons]
    exact (collectEntry_perm node parents name).append
      (collectGroups_perm rest parents)

end

theorem collectFiles_perm (entries : List (Bytes × Node)) :
    (collectFiles entries).Perm (regularFilesIn [] entries) :=
  (visitSorted_perm _).trans (collectGroups_perm entries [])

/-! ## Valid trees -/

mutual

/-- A tree on a Unix file system with readable names: every name is a plain
name in UTF-8, and no file is longer than a file offset can say. -/
def Node.Valid : Node → Prop
  | .file contents => contents.length < 2 ^ 63
  | .dir entries => EntriesValid entries
  | .symlink => True
  | .other => True

def EntriesValid : List (Bytes × Node) → Prop
  | [] => True
  | (name, node) :: rest =>
    (PlainName name ∧ Utf8.fromUtf8 name = .ok name) ∧ node.Valid ∧
      EntriesValid rest

end

/-- What holds of a file collected from a valid tree. -/
structure InputFile.Valid (f : InputFile) : Prop where
  ne_nil : f.relComponents ≠ []
  names : ∀ c ∈ f.relComponents,
    PlainName c ∧ Utf8.fromUtf8 c = .ok c
  length_lt : f.length < 2 ^ 63

mutual

theorem regularFiles_valid :
    ∀ (node : Node) (parents : List Bytes) (name : Bytes), node.Valid →
      (∀ c ∈ parents ++ [name], PlainName c ∧ Utf8.fromUtf8 c = .ok c) →
      ∀ f ∈ regularFiles parents name node, f.Valid
  | .file contents, parents, name, hnode, hnames, f, hf => by
    rw [Node.Valid] at hnode
    rw [regularFiles, mem_singleton] at hf
    subst hf
    exact ⟨by simp, hnames, hnode⟩
  | .dir entries, parents, name, hnode, hnames, f, hf => by
    rw [Node.Valid] at hnode
    rw [regularFiles] at hf
    exact regularFilesIn_valid entries _ hnode hnames f hf
  | .symlink, parents, name, _, _, f, hf => by simp [regularFiles] at hf
  | .other, parents, name, _, _, f, hf => by simp [regularFiles] at hf

theorem regularFilesIn_valid :
    ∀ (entries : List (Bytes × Node)) (parents : List Bytes),
      EntriesValid entries →
      (∀ c ∈ parents, PlainName c ∧ Utf8.fromUtf8 c = .ok c) →
      ∀ f ∈ regularFilesIn parents entries, f.Valid
  | [], parents, _, _, f, hf => by simp [regularFilesIn] at hf
  | (name, node) :: rest, parents, hentries, hparents, f, hf => by
    rw [EntriesValid] at hentries
    obtain ⟨hname, hnode, hrest⟩ := hentries
    rw [regularFilesIn] at hf
    rcases mem_append.mp hf with hf | hf
    · refine regularFiles_valid node parents name hnode ?_ f hf
      intro c hc
      rcases mem_append.mp hc with hc | hc
      · exact hparents c hc
      · rw [mem_singleton.mp hc]
        exact hname
    · exact regularFilesIn_valid rest parents hrest hparents f hf

end

end RustyTorrent.Create
