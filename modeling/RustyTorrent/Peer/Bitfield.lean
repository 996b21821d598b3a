import RustyTorrent.Peer.Framing
import RustyTorrent.Peer.ReadLoop
import RustyTorrent.Piece.Availability

/-!
# Bitfields on the wire

`bitfield_to_bytes` sets one bit after the other in a table of zero bytes.
Whoever reads the bytes, most significant bit first, reads the bits they were
made of (`flatMap_bitfieldToBytes`), and tables of one length with the same
bits are equal (`bytes_ext`).
-/

namespace RustyTorrent.Peer

open List Nat

/-- The bit numbered `i`, most significant first. -/
def bitAt (bytes : Bytes) (i : ℕ) : Bool :=
  (bytes.getD (i / 8) 0).toNat.testBit (7 - i % 8)

theorem flatMap_bitsMsb0_getD (bytes : Bytes) (i : ℕ) :
    (bytes.flatMap bitsMsb0).getD i false = bitAt bytes i := by
  induction bytes generalizing i with
  | nil => simp [bitAt]
  | cons b bytes ih =>
    rw [flatMap_cons]
    have hlen : (bitsMsb0 b).length = 8 := rfl
    by_cases hi : i < 8
    · rw [getD_eq_getElem?_getD, getElem?_append_left (by omega), bitAt,
        div_eq_of_lt hi, mod_eq_of_lt hi]
      simp [bitsMsb0, hi]
    · rw [getD_eq_getElem?_getD, getElem?_append_right (by omega), hlen,
        ← getD_eq_getElem?_getD, ih, bitAt, bitAt]
      have hdiv : i / 8 = (i - 8) / 8 + 1 := by omega
      have hmod : i % 8 = (i - 8) % 8 := by omega
      rw [hdiv, hmod, getD_cons_succ]

theorem testBit_high (k p : ℕ) (hk : k < 8) (hp : p < 8) :
    (0x80 >>> UInt8.ofNat k : UInt8).toNat.testBit (7 - p) =
      decide (k = p) := by
  have hall : ∀ k p : Fin 8,
      (0x80 >>> UInt8.ofNat k : UInt8).toNat.testBit (7 - p) =
        decide (k = p) := by decide
  have := hall ⟨k, hk⟩ ⟨p, hp⟩
  simpa [Fin.ext_iff] using this

theorem bitAt_modify {bytes : Bytes} {k : ℕ} (hk : k < 8 * bytes.length)
    (i : ℕ) :
    bitAt (bytes.modify (k / 8) (· ||| (0x80 >>> UInt8.ofNat (k % 8)))) i =
      (bitAt bytes i || decide (k = i)) := by
  have hlt : k / 8 < bytes.length := by omega
  simp only [bitAt, getD_eq_getElem?_getD, getElem?_modify]
  by_cases hbyte : k / 8 = i / 8
  · rw [← hbyte, getElem?_eq_getElem hlt]
    simp only [Option.map_eq_map, Option.map_some, Option.getD_some, if_true,
      UInt8.toNat_or, testBit_or]
    rw [testBit_high _ _ (mod_lt _ (by decide)) (mod_lt _ (by decide))]
    have hiff : k % 8 = i % 8 ↔ k = i := by omega
    simp only [hiff]
  · have hne : k ≠ i := fun h => hbyte (by rw [h])
    simp [hbyte, hne]

variable (bf : List Bool)

theorem bitAt_setBits (k : ℕ) (bytes : Bytes)
    (h : k + bf.length ≤ 8 * bytes.length) (i : ℕ) :
    bitAt (setBits k bf bytes) i =
      (bitAt bytes i || (decide (k ≤ i) && bf.getD (i - k) false)) := by
  induction bf generalizing k bytes with
  | nil => simp [setBits]
  | cons bit bf ih =>
    rw [length_cons] at h
    have hmodify := bitAt_modify (show k < 8 * bytes.length by omega) i
    rw [setBits, ih]
    · rcases lt_trichotomy i k with hlt | rfl | hgt
      · have hne : k ≠ i := by omega
        have hle : ¬ k ≤ i := by omega
        have hle' : ¬ k + 1 ≤ i := by omega
        cases bit <;> simp [hmodify, hne, hle, hle']
      · cases bit <;> simp [hmodify]
      · have hne : k ≠ i := by omega
        have hle : k ≤ i := by omega
        have hle' : k + 1 ≤ i := by omega
        have hsub : i - k = i - (k + 1) + 1 := by omega
        cases bit <;> simp [hmodify, hne, hle, hle', hsub]
    · cases bit
      all_goals simpa using (by omega : k + 1 + bf.length ≤ 8 * bytes.length)

theorem bitAt_bitfieldToBytes (i : ℕ) :
    bitAt (bitfieldToBytes bf) i = bf.getD i false := by
  have hzero : bitAt (List.replicate ((bf.length + 7) / 8) 0) i = false := by
    rw [bitAt, getD_eq_getElem?_getD, getElem?_replicate]
    split <;> simp
  rw [bitfieldToBytes, bitAt_setBits, hzero]
  · simp
  · rw [length_replicate]
    omega

theorem flatMap_bitfieldToBytes (i : ℕ) :
    ((bitfieldToBytes bf).flatMap bitsMsb0).getD i false = bf.getD i false :=
  (flatMap_bitsMsb0_getD _ i).trans (bitAt_bitfieldToBytes bf i)

/-! ## Reading a bitfield of known length -/

def bitfieldFromBytes (bytes : Bytes) (numPieces : ℕ) :
    Except Error (List Bool) :=
  let expected := (numPieces + 7) / 8
  if bytes.length ≠ expected then
    .error (.network s!"bitfield {bytes.length} bytes, expected {expected}")
  else
    let out := (bytes.flatMap bitsMsb0).take numPieces
    let extra := expected * 8 - numPieces
    -- with spare bits there is a last byte
    let last := bytes.getD (expected - 1) 0
    if 0 < extra ∧ last &&& ((1 <<< UInt8.ofNat extra) - 1) ≠ 0 then
      .error (.network "bitfield spare bits not zero")
    else .ok out

theorem length_setBits (k : ℕ) (bytes : Bytes) :
    (setBits k bf bytes).length = bytes.length := by
  induction bf generalizing k bytes with
  | nil => rfl
  | cons bit bf ih =>
    rw [setBits, ih]
    split
    · exact length_modify ..
    · rfl

theorem length_bitfieldToBytes :
    (bitfieldToBytes bf).length = (bf.length + 7) / 8 := by
  rw [bitfieldToBytes, length_setBits, length_replicate]

theorem bytes_ext {a b : Bytes} (hlength : a.length = b.length)
    (h : ∀ i, bitAt a i = bitAt b i) : a = b := by
  refine ext_getElem hlength fun n ha hb => ?_
  apply UInt8.toNat_inj.mp
  apply Nat.eq_of_testBit_eq
  intro j
  by_cases hj : j < 8
  · have hbit := h (8 * n + (7 - j))
    have hdiv : (8 * n + (7 - j)) / 8 = n := by omega
    have hmod : 7 - (8 * n + (7 - j)) % 8 = j := by omega
    rw [bitAt, bitAt, hdiv, hmod] at hbit
    simpa [ha, hb] using hbit
  · have hlt (x : UInt8) : x.toNat.testBit j = false :=
      Nat.testBit_lt_two_pow (x.toNat_lt.trans_le
        (Nat.pow_le_pow_right (by decide) (Nat.le_of_not_lt hj)))
    rw [hlt, hlt]

theorem spare_eq_zero_iff (x : UInt8) {k : ℕ} (hk : k < 8) :
    x &&& ((1 <<< UInt8.ofNat k) - 1) = 0 ↔
      ∀ j < k, x.toNat.testBit j = false := by
  have hmask : ((1 <<< UInt8.ofNat k : UInt8) - 1).toNat = 2 ^ k - 1 := by
    interval_cases k <;> rfl
  rw [← UInt8.toNat_inj, UInt8.toNat_and, hmask, and_two_pow_sub_one_eq_mod]
  constructor
  · intro h j hj
    have hbit := testBit_mod_two_pow x.toNat k j
    rw [h] at hbit
    simpa [hj] using hbit.symm
  · intro h
    apply eq_of_testBit_eq
    intro j
    rw [testBit_mod_two_pow]
    by_cases hj : j < k
    · simp [h j hj]
    · simp [hj]

/-- The spare bits are behind the last piece in the last byte. -/
theorem spare_iff {bytes : Bytes} {n : ℕ}
    (hlength : bytes.length = (n + 7) / 8) :
    (0 < (n + 7) / 8 * 8 - n ∧ bytes.getD ((n + 7) / 8 - 1) 0 &&&
        ((1 <<< UInt8.ofNat ((n + 7) / 8 * 8 - n)) - 1) ≠ 0) ↔
      ¬ ∀ i, n ≤ i → bitAt bytes i = false := by
  rw [← not_iff_not, not_and_not_right, not_not]
  refine (imp_congr_right fun hextra =>
    spare_eq_zero_iff _ (by omega)).trans ⟨fun h i hi => ?_, fun h _ j hj => ?_⟩
  · rw [bitAt]
    by_cases hlt : i / 8 < bytes.length
    · have hbyte : i / 8 = (n + 7) / 8 - 1 := by omega
      rw [hbyte]
      exact h (by omega) _ (by omega)
    · simp [getElem?_eq_none (Nat.le_of_not_lt hlt)]
  · have hbit := h ((n + 7) / 8 * 8 - 1 - j) (by omega)
    rw [bitAt] at hbit
    have hdiv : ((n + 7) / 8 * 8 - 1 - j) / 8 = (n + 7) / 8 - 1 := by omega
    have hmod : 7 - ((n + 7) / 8 * 8 - 1 - j) % 8 = j := by omega
    rwa [hdiv, hmod] at hbit

theorem bitfieldFromBytes_eq_ok_iff {bytes : Bytes} {n : ℕ} {bf : List Bool} :
    bitfieldFromBytes bytes n = .ok bf ↔
      bytes.length = (n + 7) / 8 ∧ (∀ i, n ≤ i → bitAt bytes i = false) ∧
        (bytes.flatMap bitsMsb0).take n = bf := by
  rw [bitfieldFromBytes]
  by_cases hlength : bytes.length = (n + 7) / 8
  · simp only [hlength, ne_eq, not_true_eq_false, if_false, true_and]
    by_cases hspare : ∀ i, n ≤ i → bitAt bytes i = false
    · rw [if_neg (mt (spare_iff hlength).mp (not_not.mpr hspare)),
        and_iff_right hspare]
      exact ⟨Except.ok.inj, congrArg _⟩
    · rw [if_pos ((spare_iff hlength).mpr hspare)]
      exact iff_of_false nofun fun h => hspare h.1
  · rw [if_pos hlength]
    exact iff_of_false nofun fun h => hlength h.1

theorem length_flatMap_bitsMsb0 (bytes : Bytes) :
    (bytes.flatMap bitsMsb0).length = bytes.length * 8 := by
  simp [length_flatMap, bitsMsb0]

theorem take_bitfieldToBytes :
    ((bitfieldToBytes bf).flatMap bitsMsb0).take bf.length = bf := by
  have hbytes := length_bitfieldToBytes bf
  have hbits := length_flatMap_bitsMsb0 (bitfieldToBytes bf)
  refine ext_getElem (by rw [length_take]; omega) fun i hi hi' => ?_
  have hlt : i < ((bitfieldToBytes bf).flatMap bitsMsb0).length := by omega
  have hbit := flatMap_bitfieldToBytes bf i
  rw [getD_eq_getElem?_getD, getElem?_eq_getElem hlt] at hbit
  rw [getElem_take]
  simpa [hi'] using hbit

/-- What the receiver of a bitfield message notes about its sender, and which
byte strings are bitfields. -/
theorem bitfield_fidelity :
    (∀ (p : Piece.Picker) (addr : SocketAddr) (bf : List Bool), ∃ msg bits,
        Message.decode ((Message.bitfield (bitfieldToBytes bf)).encode.drop 4)
          = .ok msg ∧
        msgToEvent addr msg = some (.bitfield addr bits) ∧
        ∀ i < p.numPieces,
          (p.setPeerBitfield addr bits).peerHas addr i = bf.getD i false ∧
          (p.setPeerBitfield addr bits).availability[i]? =
            (p.discount addr)[i]?.map fun a =>
              if bf.getD i false then Piece.saturatingAdd 32 a 1 else a) ∧
    ∀ (n : ℕ) (bytes : Bytes), ((∃ bf, bitfieldFromBytes bytes n = .ok bf) ↔
        bytes.length = (n + 7) / 8 ∧ ∀ i, n ≤ i → bitAt bytes i = false) ∧
      (∀ bf, bitfieldFromBytes bytes n = .ok bf →
        bf.length = n ∧ bitfieldToBytes bf = bytes) ∧
      ∀ bf, bitfieldFromBytes (bitfieldToBytes bf) bf.length = .ok bf := by
  refine ⟨fun p addr bf => ?_, fun n bytes => ⟨?_, fun bf h => ?_,
    fun bf => ?_⟩⟩
  · refine ⟨.bitfield (bitfieldToBytes bf), _, ?_, rfl, fun i hi => ⟨?_, ?_⟩⟩
    · rw [Message.encode_eq, writeFrame, drop_left' (length_toBytesBe ..)]
      exact Message.decode_body _
    · rw [Piece.Picker.setPeerBitfield, Piece.Picker.peerHas,
        AList.lookup_insert]
      exact flatMap_bitfieldToBytes bf i
    · rw [Piece.Picker.setPeerBitfield, Piece.Picker.getElem?_count,
        flatMap_bitfieldToBytes]
  · simp only [bitfieldFromBytes_eq_ok_iff, exists_and_left, exists_eq',
      and_true]
  · obtain ⟨hlength, hspare, rfl⟩ := bitfieldFromBytes_eq_ok_iff.mp h
    have hn : ((bytes.flatMap bitsMsb0).take n).length = n := by
      rw [length_take, length_flatMap_bitsMsb0]
      omega
    refine ⟨hn, bytes_ext ?_ fun i => ?_⟩
    · rw [length_bitfieldToBytes, hn, hlength]
    · rw [bitAt_bitfieldToBytes, getD_eq_getElem?_getD, getElem?_take]
      split_ifs with hi
      · rw [← getD_eq_getElem?_getD, flatMap_bitsMsb0_getD]
      · exact (hspare i (Nat.le_of_not_lt hi)).symm
  · refine bitfieldFromBytes_eq_ok_iff.mpr ⟨length_bitfieldToBytes bf,
      fun i hi => ?_, take_bitfieldToBytes bf⟩
    rw [bitAt_bitfieldToBytes, getD_eq_getElem?_getD, getElem?_eq_none hi]
    rfl

end RustyTorrent.Peer
