import RustyTorrent.Storage.Spool

/-!
# The spools are faithful stores

Both back ends refine the map from piece numbers to the bytes last written.
For the encrypted spool the connection is `EncryptedSpool.Holds`: behind an
unchanged header, the slot of every written piece is a nonce followed by the
padded piece encrypted for that slot.  A read depends on the file through its
slot alone (`readRange_eq`), and slots do not meet.
-/

namespace RustyTorrent.Storage

open Windows Decimal List Function Outcome Nat Dimensions EncryptedSpool

/-! ## Sizes and offsets -/

/-- Numbers that come from an accepted torrent, or from an empty one. -/
structure Dimensions.Fits (dims : Dimensions) : Prop where
  pieceLength_pos : 1 ≤ dims.pieceLength
  pieceLength_le : dims.pieceLength ≤ 2 ^ 30
  numPieces_eq :
    dims.numPieces = Outcome.divCeil dims.totalLength dims.pieceLength
  numPieces_lt : dims.numPieces < 2 ^ 32

namespace Dimensions

/-- The length of a piece. -/
def size (dims : Dimensions) (i : ℕ) : ℕ :=
  if i + 1 = dims.numPieces then
    if dims.totalLength % dims.pieceLength = 0 then dims.pieceLength
    else dims.totalLength % dims.pieceLength
  else dims.pieceLength

/-- The length of a slot. -/
def slot (dims : Dimensions) : ℕ := nonceLen + (dims.pieceLength + tagLen)

/-- Where a slot begins. -/
def place (dims : Dimensions) (i : ℕ) : ℕ := headerLen + i * dims.slot

variable {dims : Dimensions}

theorem size_le (hdims : dims.Fits) (i : ℕ) :
    dims.size i ≤ dims.pieceLength := by
  have hpos := hdims.pieceLength_pos
  have hmod := mod_lt dims.totalLength (by omega : dims.pieceLength > 0)
  rw [size]
  split_ifs with hlast hzero
  · exact le_refl _
  · exact le_of_lt hmod
  · exact le_refl _

theorem pieceSize_eq (hdims : dims.Fits) {i : ℕ} (hi : i < dims.numPieces) :
    dims.pieceSize i = .ok (dims.size i) := by
  have hnum := hdims.numPieces_lt
  rw [pieceSize, Geometry.checkedSize, checkedAdd_of_lt (by omega),
    ok_bind, checkedRem_of_pos hdims.pieceLength_pos,
    ok_bind, size]
  split_ifs <;> rfl

theorem slotOffset_eq (hdims : dims.Fits) {n : ℕ} (hn : n ≤ dims.numPieces) :
    slotOffset dims.pieceLength n = .ok (dims.place n) := by
  have hnum := hdims.numPieces_lt
  have hlen := hdims.pieceLength_le
  have hslot : nonceLen + dims.pieceLength + tagLen = dims.slot := by
    rw [slot, Nat.add_assoc]
  have hsize : slotSize dims.pieceLength = .ok dims.slot := by
    rw [slotSize, checkedAdd_of_lt (by rw [nonceLen]; omega),
      ok_bind, hslot.symm,
      checkedAdd_of_lt (by rw [nonceLen, tagLen]; omega)]
  have hslots : n * dims.slot ≤ 2 ^ 32 * (2 ^ 30 + 28) := by
    apply Nat.mul_le_mul (by omega)
    rw [slot, nonceLen, tagLen]
    omega
  have hhead : headerLen = 76 := rfl
  rw [slotOffset, hsize, ok_bind, checkedMul_of_lt (by omega),
    ok_bind, checkedAdd_of_lt (by omega)]
  rfl

end Dimensions

/-! ## Reading a slot -/

/-- A piece as it is encrypted: zeros up to the piece length. -/
def padded (dims : Dimensions) (data : Bytes) : Bytes :=
  data ++ List.replicate (dims.pieceLength - data.length) 0

theorem length_padded {dims : Dimensions} {data : Bytes}
    (h : data.length ≤ dims.pieceLength) :
    (padded dims data).length = dims.pieceLength := by
  rw [padded, length_append, length_replicate]
  omega

variable (crypt : Crypt)

namespace EncryptedSpool

/-- The bytes of the slot in which a piece has been written. -/
def filled (key : SpoolKey) (dims : Dimensions) (i : ℕ) (nonce : Nonce)
    (data : Bytes) : Bytes :=
  nonce.1 ++ crypt.encrypt key nonce.1 (padded dims data) (pieceAad i)

/-- What `read_range` makes of the bytes of a slot. -/
def readSlot (key : SpoolKey) (dims : Dimensions) (index begin length : ℕ)
    (slot : Bytes) : Outcome Error Bytes := do
  let plaintext ← lift (crypt.decryptWithAad key (slot.take nonceLen)
    (slot.drop nonceLen) (pieceAad index))
  let plaintext := plaintext.take (dims.size index)
  if begin = 0 ∧ begin + length = plaintext.length then return plaintext
  else Outcome.slice begin (begin + length) plaintext

/-- The error of a read past the end of a piece. -/
def pastEnd (dims : Dimensions) (index begin length : ℕ) : Error :=
  let actual := dims.size index
  .io .invalidInput
    (s!"spool read past piece end: piece {index} actual={actual} " ++
      s!"requested {begin}+{length}")

/-- A file of the length its numbers ask for. -/
def Sized (s : EncryptedSpool) : Prop :=
  s.file.length = s.dims.place s.dims.numPieces

variable {crypt} {s : EncryptedSpool} {i b l : ℕ}

theorem Sized.slot_le (h : s.Sized) (hi : i < s.dims.numPieces) :
    s.dims.place i + s.dims.slot ≤ s.file.length := by
  rw [h]
  exact Windows.slot_le headerLen s.dims.slot hi

theorem readExactAt_eq {file : Bytes} {off n : ℕ}
    (h : off + n ≤ file.length) : readExactAt file off n =
      .ok (window file off n) :=
  if_neg (not_lt.mpr h)

theorem readRange_eq (hdims : s.dims.Fits) (hsized : s.Sized)
    (hi : i < s.dims.numPieces) (hb : b < 2 ^ 32) (hl : l < 2 ^ 32) :
    s.readRange crypt i b l =
      if s.dims.size i < b + l then .err (pastEnd s.dims i b l)
      else readSlot crypt s.key s.dims i b l
        (window s.file (s.dims.place i) s.dims.slot) := by
  have hin := hsized.slot_le hi
  rw [slot] at hin
  have hnonce : s.dims.place i + nonceLen ≤ s.file.length := by omega
  have hct : s.dims.place i + nonceLen + (s.dims.pieceLength + tagLen) ≤
      s.file.length := by omega
  rw [readRange, pieceSize_eq hdims hi, ok_bind,
    checkedAdd_of_lt (by omega), ok_bind]
  by_cases hend : s.dims.size i < b + l
  · rw [if_pos hend, if_pos hend, pastEnd]
  · rw [if_neg hend, if_neg hend,
      slotOffset_eq hdims (le_of_lt hi), ok_bind,
      readExactAt_eq hnonce, lift, ok_bind, readExactAt_eq hct, lift,
      ok_bind, readSlot, slot, window_append_left,
      window_append_right]

variable {dims : Dimensions} {key : SpoolKey}

theorem readSlot_filled {d : Bytes} (nonce : Nonce)
    (hd : d.length = dims.size i) (hend : b + l ≤ dims.size i) :
    readSlot crypt key dims i b l (filled crypt key dims i nonce d) =
      .ok ((d.drop b).take l) := by
  have htake : (filled crypt key dims i nonce d).take nonceLen = nonce.1 :=
    take_left' nonce.2
  have hdrop : (filled crypt key dims i nonce d).drop nonceLen =
      crypt.encrypt key nonce.1 (padded dims d) (pieceAad i) :=
    drop_left' nonce.2
  rw [readSlot, htake, hdrop, Crypt.decryptWithAad, crypt.decrypt_encrypt,
    lift, ok_bind, ← hd, padded, take_left' rfl]
  by_cases hall : b = 0 ∧ b + l = d.length
  · have hl : l = d.length := by omega
    rw [if_pos hall, hall.1, hl, drop_zero, take_length]
    rfl
  · rw [if_neg hall, slice_of_le (by omega) (by omega),
      Nat.add_sub_cancel_left]

/-- Nothing that decrypts is shorter than a piece, so no slice is out of
range. -/
theorem readSlot_ne_panic {slot : Bytes} (hdims : dims.Fits)
    (hslot : slot.length = dims.slot) (hend : b + l ≤ dims.size i) :
    readSlot crypt key dims i b l slot ≠ .panic := by
  rw [readSlot, Crypt.decryptWithAad]
  cases hplain : crypt.decrypt key (slot.take nonceLen) (slot.drop nonceLen)
      (pieceAad i) with
  | none => exact nofun
  | some plaintext =>
    have hct := congrArg length (crypt.eq_encrypt_of_decrypt _ _ _ _ _ hplain)
    rw [length_drop, hslot, Dimensions.slot, crypt.length_encrypt] at hct
    have hsize := size_le hdims i
    have hlen : (plaintext.take (dims.size i)).length = dims.size i := by
      rw [length_take]
      omega
    simp only [lift, ok_bind]
    split_ifs with hall
    · exact nofun
    · rw [slice_of_le (by omega) (by omega)]
      exact nofun

/-! ## Writing a slot -/

theorem length_filled {nonce : Nonce} {data : Bytes}
    (h : data.length ≤ dims.pieceLength) :
    (filled crypt key dims i nonce data).length = dims.slot := by
  rw [filled, length_append, nonce.2, crypt.length_encrypt,
    length_padded h, slot]

theorem writePiece_eq (hdims : s.dims.Fits) (hsized : s.Sized)
    {data : Bytes} (nonce : Nonce) (hi : i < s.dims.numPieces)
    (hdata : data.length = s.dims.size i) :
    s.writePiece crypt i data nonce =
      .ok ({ s with
        file := put s.file (s.dims.place i)
          (filled crypt s.key s.dims i nonce data) }, .ok ()) := by
  have hle : data.length ≤ s.dims.pieceLength :=
    hdata ▸ size_le hdims i
  have hbuf : (extend data s.dims.pieceLength).take s.dims.pieceLength =
      padded s.dims data := by
    apply take_of_length_le
    exact le_of_eq (length_padded hle)
  obtain ⟨ct, hct⟩ : ∃ ct, crypt.encrypt s.key nonce.1 (padded s.dims data)
      (pieceAad i) = ct := ⟨_, rfl⟩
  have hctLen : ct.length = s.dims.pieceLength + tagLen := by
    rw [← hct, crypt.length_encrypt, length_padded hle]
  have hin := hsized.slot_le hi
  rw [slot, ← nonce.2, ← hctLen] at hin
  have hfirst : s.dims.place i + nonce.1.length ≤ s.file.length := by omega
  have hsecond : s.dims.place i + nonce.1.length + ct.length ≤
      (put s.file (s.dims.place i) nonce.1).length := by
    rw [length_put hfirst]
    omega
  have hwrites : writeAt (writeAt s.file (s.dims.place i) nonce.1)
      (s.dims.place i + nonceLen) ct = put s.file (s.dims.place i)
        (filled crypt s.key s.dims i nonce data) := by
    rw [filled, hct, writeAt_of_le hfirst, ← put_put_append hfirst,
      ← writeAt_of_le hsecond, nonce.2]
  simp only [writePiece, pieceSize_eq hdims hi, ok_bind,
    hdata, ne_eq, not_true_eq_false, if_false, hbuf, hct, hctLen, decide_true,
    assert_true, slotOffset_eq hdims (le_of_lt hi),
    hwrites, pure_eq]

/-! ## What the file holds -/

/-- The file and the key of a spool in which `pieces` have been written. -/
structure Holds (crypt : Crypt) (dims : Dimensions) (key : SpoolKey)
    (header : Bytes) (pieces : ℕ → Option Bytes) (s : EncryptedSpool) :
    Prop where
  dims_eq : s.dims = dims
  key_eq : s.key = key
  length_eq : s.file.length = dims.place dims.numPieces
  header_eq : s.file.take headerLen = header
  slots : ∀ i d, i < dims.numPieces → pieces i = some d →
    d.length = dims.size i ∧ ∃ nonce : Nonce,
      window s.file (dims.place i) dims.slot =
        filled crypt key dims i nonce d

section Held

variable {header : Bytes} {pieces : ℕ → Option Bytes}
  (h : Holds crypt dims key header pieces s)

include h

theorem Holds.sized : s.Sized := by
  rw [Sized, h.dims_eq, h.length_eq]

theorem Holds.file_ne : s.file.length ≠ 0 := by
  rw [h.length_eq, place]
  exact Nat.ne_of_gt (Nat.add_pos_left (by decide) _)

theorem Holds.write (hdims : dims.Fits) {data : Bytes} (nonce : Nonce)
    (hi : i < dims.numPieces) (hdata : data.length = dims.size i) :
    ∃ s', s.writePiece crypt i data nonce = .ok (s', .ok ()) ∧
      Holds crypt dims key header (Function.update pieces i (some data)) s' ∧
      ∀ j, j ≠ i → window s'.file (dims.place j) dims.slot =
        window s.file (dims.place j) dims.slot := by
  have hsized := h.sized
  obtain ⟨rfl, rfl, hlength, hheader, hslots⟩ := h
  have hlen : (filled crypt s.key s.dims i nonce data).length = s.dims.slot :=
    length_filled (hdata ▸ size_le hdims i)
  have hfits : s.dims.place i +
      (filled crypt s.key s.dims i nonce data).length ≤ s.file.length := by
    rw [hlen]
    exact hsized.slot_le hi
  have hother : ∀ j, j ≠ i → window (put s.file (s.dims.place i)
      (filled crypt s.key s.dims i nonce data)) (s.dims.place j) s.dims.slot =
        window s.file (s.dims.place j) s.dims.slot := by
    intro j hj
    apply window_put_of_disjoint hfits
    rw [hlen]
    exact slot_disjoint headerLen s.dims.slot (Ne.symm hj)
  refine ⟨_, writePiece_eq hdims hsized nonce hi hdata,
    ⟨rfl, rfl, ?_, ?_, ?_⟩, hother⟩
  · rw [length_put hfits, hlength]
  · have hhead := window_put_of_disjoint (a := 0) (n := headerLen) hfits
      (.inl (by rw [place]; omega))
    rwa [window, window, drop_zero, drop_zero, hheader] at hhead
  · intro j d hj hp
    by_cases hji : j = i
    · subst hji
      rw [update_self] at hp
      cases hp
      refine ⟨hdata, nonce, ?_⟩
      have hself := window_put_self hfits
      rwa [hlen] at hself
    · rw [update_of_ne hji] at hp
      obtain ⟨hd, nonce', hslot⟩ := hslots j d hj hp
      exact ⟨hd, nonce', (hother j hji).trans hslot⟩

variable (hdims : dims.Fits) (hi : i < dims.numPieces) (hb : b < 2 ^ 32)
  (hl : l < 2 ^ 32)

include hdims hi hb hl

theorem Holds.readRange_eq : s.readRange crypt i b l =
      if dims.size i < b + l then .err (pastEnd dims i b l)
      else readSlot crypt key dims i b l
        (window s.file (dims.place i) dims.slot) := by
  have hsized := h.sized
  obtain ⟨rfl, rfl, -, -, -⟩ := h
  exact readRange_eq hdims hsized hi hb hl

theorem Holds.read {d : Bytes} (hd : pieces i = some d)
    (hend : b + l ≤ dims.size i) :
    s.readRange crypt i b l = .ok ((d.drop b).take l) := by
  obtain ⟨hlen, nonce, hslot⟩ := h.slots i d hi hd
  rw [h.readRange_eq hdims hi hb hl, if_neg (not_lt.mpr hend), hslot,
    readSlot_filled nonce hlen hend]

theorem Holds.read_past (hend : dims.size i < b + l) :
    s.readRange crypt i b l = .err (pastEnd dims i b l) := by
  rw [h.readRange_eq hdims hi hb hl, if_pos hend]

theorem Holds.read_ne_panic : s.readRange crypt i b l ≠ .panic := by
  rw [h.readRange_eq hdims hi hb hl]
  split_ifs with hend
  · exact nofun
  · apply readSlot_ne_panic hdims _ (not_lt.mp hend)
    have hin := h.sized.slot_le (h.dims_eq ▸ hi)
    rw [h.dims_eq] at hin
    rw [window, length_take, length_drop]
    omega

theorem Holds.read_congr {pieces' : ℕ → Option Bytes} {s' : EncryptedSpool}
    (h' : Holds crypt dims key header pieces' s')
    (hslot : window s'.file (dims.place i) dims.slot =
      window s.file (dims.place i) dims.slot) :
    s'.readRange crypt i b l = s.readRange crypt i b l := by
  rw [h.readRange_eq hdims hi hb hl, h'.readRange_eq hdims hi hb hl, hslot]

end Held

/-! ## The header -/

/-- The header of a new spool. -/
def newHeader (crypt : Crypt) (dims : Dimensions) (key : SpoolKey)
    (salt : Salt) (nonce : Nonce) : Bytes :=
  headerBytes salt.1 dims.numPieces (dims.pieceLength % 2 ^ 32) nonce.1
    (crypt.encrypt key nonce.1 verifierPlaintext [])

theorem length_newHeader (dims : Dimensions) (key : SpoolKey) (salt : Salt)
    (nonce : Nonce) : (newHeader crypt dims key salt nonce).length =
      headerLen := by
  simp [newHeader, headerBytes, crypt.length_encrypt, salt.2, nonce.2,
    headerLen, magic, verifierPlaintext, ascii, nonceLen, saltLen,
    tagLen]

theorem readExactAt_part {file rest b : Bytes} {parts : List Bytes}
    (hfile : file = parts.flatten ++ rest) (k : ℕ) (hk : parts[k]? = some b) :
    readExactAt file (parts.take k).flatten.length b.length = .ok b := by
  obtain ⟨hlt, hget⟩ := List.getElem?_eq_some_iff.mp hk
  have hparts : parts = parts.take k ++ b :: parts.drop (k + 1) := by
    rw [← hget, ← drop_eq_getElem_cons hlt, take_append_drop]
  have hsplit : file = (parts.take k).flatten ++
      (b ++ ((parts.drop (k + 1)).flatten ++ rest)) := by
    rw [hfile, ← append_assoc b, ← append_assoc,
      ← flatten_cons, ← flatten_append, ← hparts]
  have hlen : (parts.take k).flatten.length + b.length ≤ file.length := by
    rw [hsplit, length_append, length_append]
    omega
  rw [readExactAt_eq hlen, window, hsplit, drop_left' rfl, take_left' rfl]

section

variable {salt : Salt}

theorem readHeader_newHeader (hdims : dims.Fits) {nonce : Nonce} {file : Bytes}
    (h : file.take headerLen = newHeader crypt dims key salt nonce) :
    readHeader file = .ok ⟨salt.1, dims.numPieces, dims.pieceLength, nonce.1,
      crypt.encrypt key nonce.1 verifierPlaintext []⟩ := by
  have hlen := hdims.pieceLength_le
  have hnum := hdims.numPieces_lt
  have hpiece : dims.pieceLength % 2 ^ 32 = dims.pieceLength :=
    mod_eq_of_lt (by omega)
  have hfile : file = [magic, [version], [0, 0, 0], salt.1,
      toBytesLe 4 dims.numPieces, toBytesLe 4 dims.pieceLength, nonce.1,
      crypt.encrypt key nonce.1 verifierPlaintext []].flatten ++
        file.drop headerLen := by
    have hsplit := take_append_drop headerLen file
    rw [h, newHeader, headerBytes, hpiece] at hsplit
    simpa using hsplit.symm
  have hct := crypt.length_encrypt key nonce.1 verifierPlaintext []
  have hmagic : magic.length = 4 := by decide
  have hsalt : salt.1.length = 16 := salt.2
  have hnonce : nonce.1.length = 12 := nonce.2
  have hverifier : verifierPlaintext.length = 16 := by decide
  rw [hverifier] at hct
  have r0 := readExactAt_part hfile 0 rfl
  have r1 := readExactAt_part hfile 1 rfl
  have r2 := readExactAt_part hfile 2 rfl
  have r3 := readExactAt_part hfile 3 rfl
  have r4 := readExactAt_part hfile 4 rfl
  have r5 := readExactAt_part hfile 5 rfl
  have r6 := readExactAt_part hfile 6 rfl
  have r7 := readExactAt_part hfile 7 rfl
  simp only [take_zero, take_succ_cons, flatten_nil,
    flatten_cons, length_append, length_nil, length_cons,
    hmagic, hsalt, hnonce, hct, length_toBytesLe, zero_add, add_zero,
    reduceAdd]
    at r0 r1 r2 r3 r4 r5 r6 r7
  have hword {n : ℕ} (hn : n < 2 ^ 32) : ofBytesLe (toBytesLe 4 n) = n :=
    (ofBytesLe_toBytesLe 4 n).trans (mod_eq_of_lt hn)
  have hnp := hword hnum
  have hpl := hword (by omega : dims.pieceLength < 2 ^ 32)
  simp only [readHeader, r0, r1, r2, r3, r4, r5, r6, r7, saltLen, nonceLen,
    Bind.bind, Except.bind, ne_eq, not_true_eq_false, if_false, hnp, hpl]
  rfl

theorem create_holds (hdims : dims.Fits) {passphrase : Bytes} (nonce : Nonce)
    (hkey : crypt.deriveKey passphrase salt.1 = .ok key) :
    ∃ s, create crypt passphrase dims salt nonce = .ok (s.file, .ok s) ∧
      Holds crypt dims key (newHeader crypt dims key salt nonce)
        (fun _ => none) s := by
  have hct : (crypt.encrypt key nonce.1 verifierPlaintext []).length =
      verifierPlaintext.length + tagLen := crypt.length_encrypt _ _ _ _
  obtain ⟨header, hheader⟩ : ∃ header,
      newHeader crypt dims key salt nonce = header := ⟨_, rfl⟩
  have hlen : header.length = headerLen :=
    hheader ▸ length_newHeader dims key salt nonce
  have hle : headerLen ≤ dims.place dims.numPieces := le_add_right _ _
  have hwrite : writeAt [] 0 header = header := by simp [writeAt, extend]
  have hextend : (extend header (dims.place dims.numPieces)).length =
      dims.place dims.numPieces := by
    rw [extend, length_append, length_replicate, hlen]
    omega
  rw [hheader]
  refine ⟨⟨extend header (dims.place dims.numPieces), key, dims⟩, ?_, rfl, rfl,
    hextend, take_left' hlen, (by simp)⟩
  rw [newHeader] at hheader
  simp only [create, hkey, hct, decide_true, assert_true, ok_bind,
    slotOffset_eq hdims (le_refl _), pure_eq, hheader, hwrite,
    take_of_length_le (le_of_eq hextend)]

theorem Holds.reopen {nonce : Nonce} {pieces : ℕ → Option Bytes}
    {passphrase : Bytes}
    (h : Holds crypt dims key (newHeader crypt dims key salt nonce) pieces s)
    (hdims : dims.Fits) (hkey : crypt.deriveKey passphrase salt.1 = .ok key) :
    reopen crypt s.file passphrase dims = .ok s := by
  have hread := readHeader_newHeader hdims h.header_eq
  obtain ⟨rfl, rfl, -, -, -⟩ := h
  simp only [reopen, hread, Bind.bind, Except.bind, ne_eq,
    not_true_eq_false, if_false, hkey, crypt.decrypt_encrypt]
  rfl

end

theorem reopen_refused {file passphrase : Bytes} (dims : Dimensions)
    {header : SpoolHeader} (hread : readHeader file = .ok header)
    (hkey : crypt.deriveKey passphrase header.salt = .ok key)
    (hnone : crypt.decrypt key header.verifierNonce header.verifierCt [] = none)
    :
    ∃ e, reopen crypt file passphrase dims = .error e := by
  simp only [reopen, hread, Bind.bind, Except.bind, hkey, hnone]
  split_ifs with hnum hlen <;> exact ⟨_, rfl⟩

end EncryptedSpool

/-! ## The in-memory spool -/

namespace MemSpool

/-- An in-memory spool in which `pieces` have been written. -/
structure Holds (dims : Dimensions) (pieces : ℕ → Option Bytes)
    (m : MemSpool) : Prop where
  dims_eq : m.dims = dims
  length_eq : m.pieces.length = dims.numPieces
  slots : ∀ i, i < dims.numPieces → m.pieces[i]? = some (pieces i)
  sizes : ∀ i d, i < dims.numPieces → pieces i = some d →
    d.length = dims.size i

/-- The error of a read past the end of a piece. -/
def pastEnd (dims : Dimensions) (index begin length : ℕ) : Error :=
  let actual := dims.size index
  .io .invalidInput
    (s!"memspool read past piece end: piece {index} actual={actual} " ++
      s!"requested {begin}+{length}")

variable {dims : Dimensions} {pieces : ℕ → Option Bytes} {m : MemSpool}

theorem new_holds : Holds dims (fun _ => none) (new dims) := by
  refine ⟨rfl, length_replicate, ?_, nofun⟩
  intro i hi
  simp [new, hi]

variable {i b l : ℕ} (h : Holds dims pieces m) (hdims : dims.Fits)
  (hi : i < dims.numPieces)

include h hdims hi

theorem Holds.write {data : Bytes} (hdata : data.length = dims.size i) :
    ∃ m', m.writePiece i data = .ok (m', .ok ()) ∧
      Holds dims (Function.update pieces i (some data)) m' ∧
      ∀ j, j ≠ i → m'.pieces[j]? = m.pieces[j]? := by
  obtain ⟨rfl, hlength, hslots, hsizes⟩ := h
  refine ⟨{ m with pieces := m.pieces.set i (some data) }, ?_,
    ⟨rfl, ?_, ?_, ?_⟩, ?_⟩
  · have hrange : ¬ m.pieces.length ≤ i := by omega
    simp only [writePiece, pieceSize_eq hdims hi, ok_bind,
      hdata, ne_eq, not_true_eq_false, if_false, hrange, pure_eq]
  · rw [length_set, hlength]
  · intro j hj
    by_cases hji : j = i
    · subst hji
      rw [update_self, getElem?_set_self (by omega)]
    · rw [update_of_ne hji, getElem?_set_ne (Ne.symm hji),
        hslots j hj]
  · intro j d hj hp
    by_cases hji : j = i
    · subst hji
      rw [update_self] at hp
      cases hp
      exact hdata
    · rw [update_of_ne hji] at hp
      exact hsizes j d hj hp
  · intro j hj
    exact getElem?_set_ne (Ne.symm hj)

variable (hb : b < 2 ^ 32) (hl : l < 2 ^ 32)

include hb hl

theorem Holds.readRange_eq :
    m.readRange i b l =
      if dims.size i < b + l then .err (pastEnd dims i b l)
      else
        match pieces i with
        | none => .err (.io .notFound s!"memspool piece {i} not yet written")
        | some buf => Outcome.slice b (b + l) buf := by
  have hslot := h.slots i hi
  obtain ⟨rfl, -, -, -⟩ := h
  rw [readRange, pieceSize_eq hdims hi, ok_bind,
    checkedAdd_of_lt (by omega), ok_bind, hslot]
  cases pieces i with
  | none | some => rfl

theorem Holds.read {d : Bytes} (hd : pieces i = some d)
    (hend : b + l ≤ dims.size i) :
    m.readRange i b l = .ok ((d.drop b).take l) := by
  have hlen := h.sizes i d hi hd
  rw [h.readRange_eq hdims hi hb hl, if_neg (Nat.not_lt.mpr hend), hd]
  dsimp only
  rw [slice_of_le (by omega) (by omega), Nat.add_sub_cancel_left]

theorem Holds.read_past (hend : dims.size i < b + l) :
    m.readRange i b l = .err (pastEnd dims i b l) := by
  rw [h.readRange_eq hdims hi hb hl, if_pos hend]

theorem Holds.read_ne_panic : m.readRange i b l ≠ .panic := by
  by_cases hend : dims.size i < b + l
  · rw [h.read_past hdims hi hb hl hend]
    exact nofun
  · cases hp : pieces i with
    | none =>
      rw [h.readRange_eq hdims hi hb hl, if_neg hend, hp]
      exact nofun
    | some d =>
      rw [h.read hdims hi hb hl hp (not_lt.mp hend)]
      exact nofun

end MemSpool

/-! ## Runs -/

/-- An operation on a spool.  A spool that is reopened is closed before; the
salt and the nonce are drawn but not used. -/
inductive SpoolOp where
  | write (index : ℕ) (data : Bytes) (nonce : Nonce)
  | read (index begin length : ℕ)
  | reopen (salt : Salt) (nonce : Nonce)

/-- Writes of the right size and reads, below the number of pieces. -/
def SpoolOp.Proper (dims : Dimensions) : SpoolOp → Prop
  | .write i data _ => i < dims.numPieces ∧ data.length = dims.size i
  | .read i b l => i < dims.numPieces ∧ b < 2 ^ 32 ∧ l < 2 ^ 32
  | .reopen _ _ => True

/-- One operation on the encrypted spool.  A refused reopening ends the run. -/
def EncryptedSpool.step (passphrase : Bytes) (s : EncryptedSpool) :
    SpoolOp → Outcome Error EncryptedSpool
  | .write i data nonce => do
    let r ← s.writePiece crypt i data nonce
    return r.1
  | .read i b l =>
    match s.readRange crypt i b l with
    | .panic => .panic
    | _ => .ok s
  | .reopen salt nonce => do
    let r ← openOrCreate crypt s.file passphrase s.dims salt nonce
    lift r.2

/-- One operation on the in-memory spool, which is never reopened. -/
def MemSpool.step (m : MemSpool) : SpoolOp → Outcome Error MemSpool
  | .write i data _ => do
    let r ← m.writePiece i data
    return r.1
  | .read i b l =>
    match m.readRange i b l with
    | .panic => .panic
    | _ => .ok m
  | .reopen _ _ => .ok m

/-- A list of operations, one after the other. -/
def runOps {σ : Type} (step : σ → SpoolOp → Outcome Error σ) :
    σ → List SpoolOp → Outcome Error σ
  | s, [] => .ok s
  | s, op :: ops => do
    let s ← step s op
    runOps step s ops

/-- What an operation leaves as the bytes last written. -/
def SpoolOp.record (pieces : ℕ → Option Bytes) :
    SpoolOp → ℕ → Option Bytes
  | .write i data _ => Function.update pieces i (some data)
  | _ => pieces

/-- The bytes last written to each index. -/
def lastSpooled (ops : List SpoolOp) : ℕ → Option Bytes :=
  ops.foldl SpoolOp.record fun _ => none

/-- Both spools answer every read as the map of written pieces says. -/
structure Answers (dims : Dimensions) (pieces : ℕ → Option Bytes)
    (s : EncryptedSpool) (m : MemSpool) : Prop where
  read : ∀ i b l d, i < dims.numPieces → b < 2 ^ 32 → l < 2 ^ 32 →
    pieces i = some d → b + l ≤ dims.size i →
      s.readRange crypt i b l = .ok ((d.drop b).take l) ∧
        m.readRange i b l = .ok ((d.drop b).take l)
  past : ∀ i b l, i < dims.numPieces → b < 2 ^ 32 → l < 2 ^ 32 →
    dims.size i < b + l →
      (∃ msg, s.readRange crypt i b l = .err (.io .invalidInput msg)) ∧
        ∃ msg, m.readRange i b l = .err (.io .invalidInput msg)

/-- A write changes neither the header nor what another index reads. -/
def Isolated (dims : Dimensions) (s : EncryptedSpool) (m : MemSpool) : Prop :=
  ∀ i data nonce, i < dims.numPieces → data.length = dims.size i →
    ∃ s' m', s.writePiece crypt i data nonce = .ok (s', .ok ()) ∧
      m.writePiece i data = .ok (m', .ok ()) ∧
      s'.file.take headerLen = s.file.take headerLen ∧
      ∀ j b l, j < dims.numPieces → j ≠ i → b < 2 ^ 32 → l < 2 ^ 32 →
        s'.readRange crypt j b l = s.readRange crypt j b l ∧
          m'.readRange j b l = m.readRange j b l

section Runs

variable {crypt} {dims : Dimensions} {key : SpoolKey} {salt : Salt}
  {nonce : Nonce} {passphrase : Bytes} {pieces : ℕ → Option Bytes}
  {s : EncryptedSpool} {m : MemSpool}

theorem unless_panic {σ : Type} {r : Outcome Error Bytes} (t : σ) :
    r ≠ .panic → (match r with
      | .panic => .panic
      | _ => .ok t : Outcome Error σ) = .ok t := by
  intro h
  cases r with
  | panic => exact absurd rfl h
  | ok | err => rfl

theorem EncryptedSpool.Holds.step {header : Bytes} {op : SpoolOp}
    (h : Holds crypt dims key header pieces s)
    (hheader : header = newHeader crypt dims key salt nonce)
    (hdims : dims.Fits) (hkey : crypt.deriveKey passphrase salt.1 = .ok key)
    (hop : op.Proper dims) :
    ∃ s', s.step crypt passphrase op = .ok s' ∧
      Holds crypt dims key header (op.record pieces) s' := by
  cases op with
  | write i data nonce =>
    obtain ⟨s', hwrite, hheld, -⟩ := h.write hdims nonce hop.1 hop.2
    exact ⟨s', by rw [EncryptedSpool.step, hwrite]; rfl, hheld⟩
  | read i b l =>
    have hne := h.read_ne_panic hdims hop.1 hop.2.1 hop.2.2
    exact ⟨s, unless_panic s hne, h⟩
  | reopen salt' nonce' =>
    refine ⟨s, ?_, h⟩
    subst hheader
    rw [EncryptedSpool.step, openOrCreate, if_neg h.file_ne, h.dims_eq,
      h.reopen hdims hkey]
    rfl

theorem MemSpool.Holds.step {op : SpoolOp} (h : Holds dims pieces m)
    (hdims : dims.Fits) (hop : op.Proper dims) :
    ∃ m', m.step op = .ok m' ∧ Holds dims (op.record pieces) m' := by
  cases op with
  | write i data nonce =>
    obtain ⟨m', hwrite, hheld, -⟩ := h.write hdims hop.1 hop.2
    exact ⟨m', by rw [MemSpool.step, hwrite]; rfl, hheld⟩
  | read i b l =>
    have hne := h.read_ne_panic hdims hop.1 hop.2.1 hop.2.2
    exact ⟨m, unless_panic m hne, h⟩
  | reopen salt' nonce' => exact ⟨m, rfl, h⟩

/-- A relation to the written pieces that every operation keeps is kept by a
run. -/
theorem runOps_holds {σ : Type} {step : σ → SpoolOp → Outcome Error σ}
    {H : (ℕ → Option Bytes) → σ → Prop}
    (hstep : ∀ pieces t op, op.Proper dims → H pieces t →
      ∃ t', step t op = .ok t' ∧ H (op.record pieces) t') {t : σ}
    {ops : List SpoolOp} (hops : ∀ op ∈ ops, op.Proper dims) (ht : H pieces t) :
    ∃ t', runOps step t ops = .ok t' ∧
      H (ops.foldl SpoolOp.record pieces) t' := by
  induction ops generalizing t pieces with
  | nil => exact ⟨t, rfl, ht⟩
  | cons op ops ih =>
    obtain ⟨t₁, hone, hheld⟩ := hstep pieces t op (hops op (by simp)) ht
    obtain ⟨t₂, hrun, hlast⟩ :=
      ih (fun o ho => hops o (by simp [ho])) hheld
    exact ⟨t₂, by rw [runOps, hone, ok_bind, hrun], hlast⟩

variable {header : Bytes}

theorem answers_of_holds (h : s.Holds crypt dims key header pieces)
    (hm : m.Holds dims pieces) (hdims : dims.Fits) :
    Answers crypt dims pieces s m where
  read _ _ _ _ hi hb hl hd hend :=
    ⟨h.read hdims hi hb hl hd hend, hm.read hdims hi hb hl hd hend⟩
  past _ _ _ hi hb hl hend :=
    ⟨⟨_, h.read_past hdims hi hb hl hend⟩,
      ⟨_, hm.read_past hdims hi hb hl hend⟩⟩

theorem isolated_of_holds (h : s.Holds crypt dims key header pieces)
    (hm : m.Holds dims pieces) (hdims : dims.Fits) :
    Isolated crypt dims s m := by
  intro i data nonce hi hdata
  obtain ⟨s', hwrite, hheld, hother⟩ := h.write hdims nonce hi hdata
  obtain ⟨m', hmwrite, hmheld, hmother⟩ := hm.write hdims hi hdata
  refine ⟨s', m', hwrite, hmwrite, ?_, ?_⟩
  · rw [hheld.header_eq, h.header_eq]
  · intro j b l hj hji hb hl
    refine ⟨h.read_congr hdims hj hb hl hheld (hother j hji), ?_⟩
    rw [hm.readRange_eq hdims hj hb hl, hmheld.readRange_eq hdims hj hb hl,
      update_of_ne hji]

end Runs

/-- Whatever is done with a new spool, both back ends answer as the map of the
pieces last written, a write touches its own index only, and a key for which
the verifier does not decrypt is refused without touching the file. -/
theorem spools_faithful (dims : Dimensions) (hdims : dims.Fits)
    (passphrase : Bytes) (salt : Salt) (nonce : Nonce) (key : SpoolKey)
    (hkey : crypt.deriveKey passphrase salt.1 = .ok key) :
    ∃ s₀, EncryptedSpool.openOrCreate crypt [] passphrase dims salt nonce =
        .ok (s₀.file, .ok s₀) ∧
      ∀ ops, (∀ op ∈ ops, SpoolOp.Proper dims op) →
        ∃ s m, runOps (EncryptedSpool.step crypt passphrase) s₀ ops = .ok s ∧
          runOps MemSpool.step (MemSpool.new dims) ops = .ok m ∧
          s.file.take headerLen = s₀.file.take headerLen ∧
          Answers crypt dims (lastSpooled ops) s m ∧
          Isolated crypt dims s m ∧
          ∀ passphrase' key' dims' salt' nonce',
            crypt.deriveKey passphrase' salt.1 = .ok key' →
            crypt.decrypt key' nonce.1
              (crypt.encrypt key nonce.1 verifierPlaintext []) [] = none →
            ∃ e, EncryptedSpool.openOrCreate crypt s.file passphrase' dims'
              salt' nonce' = .ok (s.file, .error e) := by
  obtain ⟨s₀, hcreate, hheld₀⟩ :=
    EncryptedSpool.create_holds hdims nonce hkey
  refine ⟨s₀, hcreate, fun ops hops => ?_⟩
  obtain ⟨s, hrun, hheld⟩ := runOps_holds
    (fun pieces t op hop ht => ht.step rfl hdims hkey hop) hops hheld₀
  obtain ⟨m, hmrun, hmheld⟩ := runOps_holds
    (fun pieces t op hop ht => MemSpool.Holds.step ht hdims hop) hops
    MemSpool.new_holds
  refine ⟨s, m, hrun, hmrun, hheld.header_eq.trans hheld₀.header_eq.symm,
    answers_of_holds hheld hmheld hdims, isolated_of_holds hheld hmheld hdims,
    ?_⟩
  intro passphrase' key' dims' salt' nonce' hkey' hnone
  have hread := EncryptedSpool.readHeader_newHeader hdims hheld.header_eq
  obtain ⟨e, he⟩ := EncryptedSpool.reopen_refused dims' hread hkey' hnone
  exact ⟨e, by rw [EncryptedSpool.openOrCreate, if_neg hheld.file_ne, he]⟩

theorem length_take_key (key : SpoolKey) :
    (key.1.take tagLen).length = tagLen := by
  rw [length_take, key.2]
  rfl

/-- A cipher that only appends half of the key, and keys made of one byte. -/
def toyCrypt : Crypt where
  encrypt key _ plaintext _ := plaintext ++ key.1.take tagLen
  decrypt key _ ciphertext _ :=
    if key.1.take tagLen <:+ ciphertext then
      some (ciphertext.take (ciphertext.length - tagLen))
    else none
  deriveKey passphrase _ :=
    .ok ⟨List.replicate keyLen (passphrase.headD 0), List.length_replicate⟩
  decrypt_encrypt key _ plaintext _ := by
    rw [if_pos (suffix_append _ _), length_append, length_take_key,
      Nat.add_sub_cancel, take_left' rfl]
  eq_encrypt_of_decrypt key _ ciphertext _ plaintext h := by
    split_ifs at h with hsuffix
    obtain ⟨start, rfl⟩ := hsuffix
    rw [length_append, length_take_key, Nat.add_sub_cancel, take_left' rfl]
      at h
    rw [Option.some.inj h]
  length_encrypt key _ plaintext _ := by
    rw [length_append, length_take_key]

/-- Two pieces of four bytes, the second one of two. -/
def toyDimensions : Dimensions := ⟨4, 2, 6⟩

theorem spools_faithful_toy :
    ∃ s₀, EncryptedSpool.openOrCreate toyCrypt [] [7] toyDimensions
        ⟨List.replicate 16 1, by decide⟩ ⟨List.replicate 12 2, by decide⟩ =
          .ok (s₀.file, .ok s₀) ∧
      ∃ s m, runOps (EncryptedSpool.step toyCrypt [7]) s₀
          [.write 1 [8, 9] ⟨List.replicate 12 3, by decide⟩] = .ok s ∧
        runOps MemSpool.step (MemSpool.new toyDimensions)
          [.write 1 [8, 9] ⟨List.replicate 12 3, by decide⟩] = .ok m ∧
        s.readRange toyCrypt 1 1 1 = .ok [9] ∧ m.readRange 1 1 1 = .ok [9] ∧
        ∃ e, EncryptedSpool.openOrCreate toyCrypt s.file [6] toyDimensions
          ⟨List.replicate 16 4, by decide⟩ ⟨List.replicate 12 5, by decide⟩ =
            .ok (s.file, .error e) := by
  obtain ⟨s₀, hcreate, hruns⟩ := spools_faithful toyCrypt toyDimensions
    ⟨by decide, by decide, by decide, by decide⟩ [7]
    ⟨List.replicate 16 1, by decide⟩ ⟨List.replicate 12 2, by decide⟩ _ rfl
  obtain ⟨s, m, hrun, hmrun, -, hanswers, -, hrefused⟩ := hruns
    [.write 1 [8, 9] ⟨List.replicate 12 3, by decide⟩]
    (by simp [SpoolOp.Proper, toyDimensions, Dimensions.size])
  obtain ⟨hread, hmread⟩ := hanswers.read 1 1 1 [8, 9] (by decide) (by decide)
    (by decide) rfl (by decide)
  exact ⟨s₀, hcreate, s, m, hrun, hmrun, hread, hmread,
    hrefused [6] _ _ _ _ rfl (by decide)⟩

end RustyTorrent.Storage
