import RustyTorrent.Metainfo.TorrentReader

/-!
# The slice that is hashed

`find_info_slice` walks the root dictionary with `skip_value`, starting the
nesting count again at every entry and taking a key only when it starts with a
digit, while the loader builds its map with `parse_dict`.  Both read the same
texts: `findInfoLoop_eq_ok` follows one round of the walk along the entries
the map builder found, so the slice is the text of the value the map holds.
-/

namespace RustyTorrent.Metainfo

open BencodeValue Outcome List

/-! ## Readers of the walk -/

variable {input front key k slice : Bytes} {fuel : ℕ}

theorem parseBytesInline_eq_ok {b : Bytes} : parseBytesInline input = .ok b ↔
      StringText b input ∧ DigitFirst input := by
  simp only [parseBytesInline, bind_eq_ok, Prod.exists,
    check_eq_ok, List.isEmpty_iff, parse_eq_ok]
  constructor
  · rintro ⟨v, rest, ⟨text, rfl, hv, -⟩, -, rfl, h⟩
    cases v with
    | bytes b' =>
      rw [ok.injEq] at h
      subst h
      rw [ReadFrom] at hv
      simpa using hv
    | _ => simp [bencodeErr] at h
  · intro h
    exact ⟨.bytes b, [], ⟨input, by simp, by rwa [ReadFrom],
      by simp [enclosure]⟩, (), rfl, rfl⟩

theorem slice_middle (front text back : Bytes) :
    (Outcome.slice front.length (front.length + text.length)
      (front ++ (text ++ back)) : Outcome Error Bytes) = .ok text := by
  rw [slice_of_le (by omega) (by simp)]
  simp

/-! ## The walk -/

theorem findInfoLoop_eq_ok {value tail : Bytes} {v : BencodeValue}
    (hinput : input = front ++ (key ++ (value ++ tail))) (hk : StringText k key)
    (hv : v.ReadFrom value) (henc : v.enclosure ≤ maxDepth) :
    findInfoLoop input (fuel + 1) front.length = .ok slice ↔ DigitFirst key ∧
      (front ++ (key ++ value)).length < 2 ^ 64 ∧
      if k = ascii "info" then slice = value
      else findInfoLoop input fuel (front ++ (key ++ value)).length =
        .ok slice := by
  have hvalue : input = (front ++ key) ++ (value ++ tail) := by
    rw [hinput, append_assoc]
  obtain ⟨c, t, hct, -, -, -, hc⟩ := hk.head_ne
  have hlt : front.length < input.length := by
    simp [hinput, hct]
  have hindex : (Outcome.index front.length input : Outcome Error UInt8) =
      .ok c := by
    rw [index_eq_ok, hinput, hct]
    simp
  have hfrom : ∀ {a b : Bytes}, input = a ++ b →
      (sliceFrom a.length input : Outcome Error Bytes) = .ok b := by
    rintro a b rfl
    simp [sliceFrom]
  have hkeySlice := slice_middle front key (value ++ tail)
  have hvalueSlice := slice_middle (front ++ key) value tail
  have hvalueFrom := hfrom hvalue
  rw [← hinput] at hkeySlice
  rw [← hvalue, length_append] at hvalueSlice
  rw [length_append] at hvalueFrom
  rw [findInfoLoop, if_pos hlt, hindex, ok_bind, if_neg hc, hfrom hinput,
    ok_bind]
  by_cases hdigit : DigitFirst key
  · have hkeyLen : skipValue (key ++ (value ++ tail)) = .ok key.length :=
      skipValue_iff.mpr ⟨.bytes k, key, _, rfl, by simp [ReadFrom, hk, hdigit],
        by simp [enclosure], rfl⟩
    have hvalueLen : skipValue (value ++ tail) = .ok value.length :=
      skipValue_iff.mpr ⟨v, value, tail, rfl, hv, henc, rfl⟩
    have hlength : (front ++ (key ++ value)).length =
        front.length + key.length + value.length := by
      simp only [length_append]
      omega
    simp only [hkeyLen, ok_bind, bind_eq_ok, checkedAdd_eq_ok, and_assoc,
      exists_and_left, exists_eq_left', hkeySlice, ok.injEq, hvalueFrom,
      parseBytesInline_eq_ok.mpr ⟨hk, hdigit⟩, hvalueLen, hvalueSlice,
      hlength, hdigit, true_and]
    rw [← and_assoc, and_iff_right_of_imp
      (Nat.lt_of_le_of_lt (Nat.le_add_right _ value.length))]
    refine and_congr_right fun _ => ?_
    split_ifs
    · rw [ok.injEq, eq_comm]
    · rfl
  · simp only [hdigit, false_and, iff_false, bind_eq_ok, skipValue_iff,
      checkedAdd_eq_ok, parseBytesInline_eq_ok]
    rintro ⟨keyLen, ⟨w, text, rest, heq, -, -, rfl⟩, start, ⟨-, rfl⟩,
      keyBytes, hslice, b, ⟨hb, htext⟩, -⟩
    -- The key read by the walk and the one in the map start at one place.
    have hread := slice_middle front text rest
    rw [← heq, ← hinput, hslice, ok.injEq] at hread
    subst hread
    obtain ⟨-, rfl, -⟩ := hb.unique hk heq.symm
    exact hdigit htext

theorem findInfoLoop_end {tail : Bytes} :
    findInfoLoop (front ++ asciiByte 'e' :: tail) fuel front.length ≠
      .ok slice := by
  cases fuel with
  | zero => simp [findInfoLoop]
  | succ fuel =>
    have hlt : front.length < (front ++ asciiByte 'e' :: tail).length := by
      simp
    rw [findInfoLoop, if_pos hlt, index_of_lt hlt, ok_bind]
    simp [bencodeErr]

theorem findInfoLoop_entries {body : Bytes} {map : List (Bytes × BencodeValue)}
    (hinput : input = front ++ (body ++ [asciiByte 'e']))
    (hmap : EntriesReadFrom map body)
    (henc : ∀ e ∈ map, e.2.enclosure ≤ maxDepth)
    (h : findInfoLoop input fuel front.length = .ok slice) :
    ∃ before v after pre key post, map = before ++ (ascii "info", v) :: after ∧
      body = pre ++ (key ++ (slice ++ post)) ∧
      EntriesReadFrom before pre ∧ StringText (ascii "info") key ∧
      v.ReadFrom slice ∧ EntriesReadFrom after post := by
  induction map generalizing front body fuel with
  | nil =>
    rw [EntriesReadFrom] at hmap
    subst hmap hinput
    exact absurd h findInfoLoop_end
  | cons e map ih =>
    obtain ⟨k, v⟩ := e
    rw [EntriesReadFrom] at hmap
    obtain ⟨key, value, rest, rfl, hk, hv, hrest⟩ := hmap
    cases fuel with
    | zero => simp [findInfoLoop] at h
    | succ fuel =>
      have hentry : input = front ++ (key ++ (value ++
          (rest ++ [asciiByte 'e']))) := by
        simp [hinput]
      have hround := (findInfoLoop_eq_ok hentry hk hv
        (henc (k, v) (by simp))).mp h
      obtain ⟨-, -, hround⟩ := hround
      by_cases hinfo : k = ascii "info"
      · rw [if_pos hinfo] at hround
        subst hround hinfo
        refine ⟨[], v, map, [], key, rest, rfl, by simp, ?_, hk, hv, hrest⟩
        rw [EntriesReadFrom]
      · rw [if_neg hinfo] at hround
        obtain ⟨before, w, after, pre, key', post, rfl, rfl, hbefore,
          hkey', hw, hafter⟩ := ih (by simp [hentry]) hrest
            (fun e he => henc e (by simp [he])) hround
        refine ⟨(k, v) :: before, w, after, key ++ (value ++ pre), key',
          post, rfl, by simp, ?_, hkey', hw, hafter⟩
        rw [EntriesReadFrom]
        exact ⟨key, value, pre, rfl, hk, hv, hbefore⟩

/-! ## The root dictionary -/

/-- The entry `(k, v)` of the root dictionary that `input` spells: its key is
spelled `key` after the entries of `front`, and its value `text`. -/
def RootEntry (input k : Bytes) (v : BencodeValue)
    (front key text back : Bytes) : Prop :=
  input = asciiByte 'd' ::
    (front ++ (key ++ (text ++ (back ++ [asciiByte 'e'])))) ∧
  StringText k key ∧ v.ReadFrom text ∧
  ∃ before after, SortedMap.Sorted (before ++ (k, v) :: after) ∧
    EntriesReadFrom before front ∧ EntriesReadFrom after back

theorem entriesReadFrom_unique {before before' : List (Bytes × BencodeValue)}
    {front' key' rest rest' : Bytes}
    (h : EntriesReadFrom before front) (h' : EntriesReadFrom before' front')
    (hk : StringText k key) (hk' : StringText k key')
    (hfree : ∀ e ∈ before, e.1 ≠ k) (hfree' : ∀ e ∈ before', e.1 ≠ k)
    (heq : front ++ (key ++ rest) = front' ++ (key' ++ rest')) :
    front = front' ∧ key = key' ∧ rest = rest' := by
  induction before generalizing before' front front' with
  | nil =>
    rw [EntriesReadFrom] at h
    subst h
    cases before' with
    | nil =>
      rw [EntriesReadFrom] at h'
      subst h'
      obtain ⟨-, rfl, rfl⟩ := hk.unique hk' heq
      exact ⟨rfl, rfl, rfl⟩
    | cons e before' =>
      rw [EntriesReadFrom] at h'
      obtain ⟨key₁, value₁, front₁, rfl, hkey₁, -, -⟩ := h'
      rw [append_assoc] at heq
      obtain ⟨hsame, -, -⟩ := hk.unique hkey₁ heq
      exact absurd hsame.symm (hfree' e (by simp))
  | cons e before ih =>
    rw [EntriesReadFrom] at h
    obtain ⟨key₁, value₁, front₁, rfl, hkey₁, hvalue₁, hfront₁⟩ := h
    cases before' with
    | nil =>
      rw [EntriesReadFrom] at h'
      subst h'
      rw [append_assoc] at heq
      obtain ⟨hsame, -, -⟩ := hkey₁.unique hk' heq
      exact absurd hsame (hfree e (by simp))
    | cons e' before' =>
      rw [EntriesReadFrom] at h'
      obtain ⟨key₂, value₂, front₂, rfl, hkey₂, hvalue₂, hfront₂⟩ := h'
      simp only [append_assoc] at heq
      obtain ⟨-, rfl, heq₁⟩ := hkey₁.unique hkey₂ heq
      obtain ⟨-, rfl, heq₂⟩ := hvalue₁.unique hvalue₂ heq₁
      obtain ⟨rfl, rfl, rfl⟩ := ih hfront₁ hfront₂
        (fun e he => hfree e (by simp [he]))
        (fun e he => hfree' e (by simp [he])) heq₂
      exact ⟨rfl, rfl, rfl⟩

theorem RootEntry.unique {text back front' key' text' back' : Bytes}
    {v v' : BencodeValue} (h : RootEntry input k v front key text back)
    (h' : RootEntry input k v' front' key' text' back') :
    v = v' ∧ front = front' ∧ key = key' ∧ text = text' := by
  obtain ⟨rfl, hk, hv, before, after, hsorted, hfront, -⟩ := h
  obtain ⟨heq, hk', hv', before', after', hsorted', hfront', -⟩ := h'
  rw [cons.injEq] at heq
  obtain ⟨rfl, rfl, hrest⟩ := entriesReadFrom_unique hfront hfront' hk hk'
    hsorted.ne_of_append_cons hsorted'.ne_of_append_cons heq.2
  obtain ⟨rfl, rfl, -⟩ := hv.unique hv' hrest
  exact ⟨rfl, rfl, rfl, rfl⟩

theorem enclosure_le_of_dict {dict : List (Bytes × BencodeValue)} {n : ℕ}
    (h : (BencodeValue.dict dict).enclosure ≤ n)
    {e : Bytes × BencodeValue} (he : e ∈ dict) : e.2.enclosure < n := by
  rw [enclosure] at h
  have := entriesEnclosure_le_iff.mp le_rfl _ he
  omega

theorem findInfoSlice_rootEntry {dict : List (Bytes × BencodeValue)}
    (hparse : parseAll input = .ok (.dict dict))
    (hslice : findInfoSlice input = .ok slice) :
    ∃ v front key back, SortedMap.get dict (ascii "info") = some v ∧
      v.enclosure < maxDepth ∧
      RootEntry input (ascii "info") v front key slice back := by
  obtain ⟨hread, henc⟩ := parseAll_iff.mp hparse
  rw [ReadFrom] at hread
  obtain ⟨hsorted, body, rfl, hmap⟩ := hread
  have hvalues : ∀ e ∈ dict, e.2.enclosure < maxDepth :=
    fun e he => enclosure_le_of_dict henc he
  rw [findInfoSlice, if_neg (by simp)] at hslice
  have hroot : asciiByte 'd' :: (body ++ [asciiByte 'e']) =
      [asciiByte 'd'] ++ (body ++ [asciiByte 'e']) := rfl
  obtain ⟨before, v, after, front, key, back, rfl, rfl, hbefore, hkey, hv,
    hafter⟩ := findInfoLoop_entries hroot hmap
      (fun e he => Nat.le_of_lt (hvalues e he)) hslice
  exact ⟨v, front, key, back, hsorted.get_append_cons,
    hvalues (ascii "info", v) (by simp), by simp, hkey, hv, before, after,
    hsorted, hbefore, hafter⟩

/-! ## What the hash covers -/

/-- The hash of a loaded torrent is taken over the text of the value under the
root key `info`, the value its info was read from; the root dictionary has no
other entry with that key, however the key is spelled. -/
theorem TorrentFile.fromBytes_hashes_info (sha1Of : Bytes → Digest)
    (input : Bytes) (t : TorrentFile)
    (h : TorrentFile.fromBytes sha1Of input = .ok t) :
    ∃ dict v front key slice back, parseAll input = .ok (.dict dict) ∧
      SortedMap.get dict (ascii "info") = some v ∧
      Info.fromValue v = .ok t.info ∧
      findInfoSlice input = .ok slice ∧ t.infoHash = sha1Of slice ∧
      parseAll slice = .ok v ∧
      RootEntry input (ascii "info") v front key slice back ∧
      ∀ v' front' key' text' back',
        RootEntry input (ascii "info") v' front' key' text' back' →
          v' = v ∧ front' = front ∧ key' = key ∧ text' = slice := by
  simp only [TorrentFile.fromBytes, TorrentFile.fromValue, computeInfoHash,
    bind_eq_ok, asDict_eq_ok, field_eq_ok, pure_eq,
    ok.injEq] at h
  obtain ⟨root, hparse, hash, ⟨slice, hslice, rfl⟩, dict, rfl, announce, -,
    announceList, -, v, hget, info, hinfo, rfl⟩ := h
  obtain ⟨w, front, key, back, hget', henc, hentry⟩ :=
    findInfoSlice_rootEntry hparse hslice
  obtain rfl : v = w := Option.some.inj (hget.symm.trans hget')
  refine ⟨dict, v, front, key, slice, back, hparse, hget, hinfo, hslice, rfl,
    parseAll_iff.mpr ⟨hentry.2.2.1, by omega⟩, hentry, ?_⟩
  intro v' front' key' text' back' hentry'
  exact hentry'.unique hentry

theorem fromBytes_hashes_info_example : ∃ dict v front key slice back,
      parseAll exampleInput = .ok (.dict dict) ∧
      SortedMap.get dict (ascii "info") = some v ∧
      Info.fromValue v = .ok exampleTorrent.info ∧
      findInfoSlice exampleInput = .ok slice ∧
      exampleTorrent.infoHash = zeroDigest ∧
      parseAll slice = .ok v ∧
      RootEntry exampleInput (ascii "info") v front key slice back ∧
      ∀ v' front' key' text' back',
        RootEntry exampleInput (ascii "info") v' front' key' text' back' →
          v' = v ∧ front' = front ∧ key' = key ∧ text' = slice :=
  TorrentFile.fromBytes_hashes_info (fun _ => zeroDigest) exampleInput
    exampleTorrent fromBytes_exampleInput

end RustyTorrent.Metainfo
