import RustyTorrent.Metainfo.BencodeReader

/-!
# The texts a value is read from

A value may be spelled in several ways, because a numeral may carry a plus
sign or leading zeros.  `BencodeValue.ReadFrom` says by recursion on the value
which byte strings spell it, without mentioning the nesting limit, and
`parseValueAt_eq_ok` says that the reader succeeds exactly on an input that
starts with such a text, provided the value is nested less deep than the
levels it has left.  What the reader does on part of an input, with other
bytes after it or with another number of levels, follows from that.
-/

namespace RustyTorrent.Metainfo

open Decimal Outcome List Nat SortedMap

/-! ## Leaves -/

/-- A length numeral, a colon, and that many bytes. -/
def StringText (val text : Bytes) : Prop :=
  ∃ pre, text = pre ++ asciiByte ':' :: val ∧ asciiByte ':' ∉ pre ∧
    Utf8.fromUtf8 pre = .ok pre ∧
    readUnsigned (2 ^ 64 - 1) pre = .ok val.length

/-- An integer between its delimiters. -/
def IntText (i : Int64) (text : Bytes) : Prop :=
  ∃ s n, text = asciiByte 'i' :: (s ++ [asciiByte 'e']) ∧
    asciiByte 'e' ∉ s ∧ IntSpelling s ∧ Utf8.fromUtf8 s = .ok s ∧
    readSigned (2 ^ 63) (2 ^ 63 - 1) s = .ok n ∧ i = Int64.ofInt n

/-- The first byte is a decimal digit. -/
def DigitFirst (text : Bytes) : Prop :=
  ∃ c t, text = c :: t ∧ asciiByte '0' ≤ c ∧ c ≤ asciiByte '9'

variable {val rest text : Bytes}

theorem parseString_iff {input : Bytes} : parseString input = .ok (val, rest) ↔
      ∃ text, input = text ++ rest ∧ StringText val text := by
  rw [parseString_eq_ok]
  constructor
  · rintro ⟨pre, rfl, h⟩
    exact ⟨pre ++ asciiByte ':' :: val, by simp, pre, rfl, h⟩
  · rintro ⟨text, rfl, pre, rfl, h⟩
    exact ⟨pre, by simp, h⟩

theorem parseInt_iff {input : Bytes} {v : BencodeValue} :
    parseInt input = .ok (v, rest) ↔
      ∃ text i, input = text ++ rest ∧ v = .int i ∧ IntText i text := by
  rw [parseInt_eq_ok]
  constructor
  · rintro ⟨s, n, rfl, hnot, hs, hutf, hn, rfl⟩
    exact ⟨asciiByte 'i' :: (s ++ [asciiByte 'e']), _, by simp, rfl, s, n,
      rfl, hnot, hs, hutf, hn, rfl⟩
  · rintro ⟨text, i, rfl, rfl, s, n, rfl, hnot, hs, hutf, hn, rfl⟩
    exact ⟨s, n, by simp, hnot, hs, hutf, hn, rfl⟩

/-- A numeral starts with a digit or a plus sign. -/
theorem readUnsigned_head {bound n : ℕ} {pre : Bytes}
    (h : readUnsigned bound pre = .ok n) :
    ∃ c t, pre = c :: t ∧ c ≠ asciiByte 'i' ∧ c ≠ asciiByte 'l' ∧
      c ≠ asciiByte 'd' ∧ c ≠ asciiByte 'e' := by
  obtain ⟨ds, hdigits, hne, -, rfl | rfl⟩ := readUnsigned_eq_ok h
  · obtain ⟨c, t, rfl⟩ := exists_cons_of_ne_nil hne
    have hc := hdigits c (by simp)
    refine ⟨c, t, rfl, ?_, ?_, ?_, ?_⟩
    all_goals
      rintro rfl
      revert hc
      decide
  · exact ⟨_, ds, rfl, by decide⟩

theorem StringText.head_ne (h : StringText val text) :
    ∃ c t, text = c :: t ∧ c ≠ asciiByte 'i' ∧ c ≠ asciiByte 'l' ∧
      c ≠ asciiByte 'd' ∧ c ≠ asciiByte 'e' := by
  obtain ⟨pre, rfl, -, -, hread⟩ := h
  obtain ⟨c, t, rfl, hc⟩ := readUnsigned_head hread
  exact ⟨c, _, rfl, hc⟩

theorem StringText.unique {val' text' rest' : Bytes} (h : StringText val text)
    (h' : StringText val' text') (heq : text ++ rest = text' ++ rest') :
    val = val' ∧ text = text' ∧ rest = rest' := by
  have hread : parseString (text ++ rest) = .ok (val, rest) :=
    parseString_iff.mpr ⟨text, rfl, h⟩
  have hread' : parseString (text' ++ rest') = .ok (val', rest') :=
    parseString_iff.mpr ⟨text', rfl, h'⟩
  rw [heq, hread'] at hread
  simp only [ok.injEq, Prod.mk.injEq] at hread
  obtain ⟨rfl, rfl⟩ := hread
  exact ⟨rfl, append_cancel_right heq, rfl⟩

/-! ## Values -/

namespace BencodeValue

mutual

/-- The text spells the value. -/
def ReadFrom : BencodeValue → Bytes → Prop
  | .int i, text => IntText i text
  | .bytes b, text => StringText b text ∧ DigitFirst text
  | .list items, text => ∃ body,
      text = asciiByte 'l' :: (body ++ [asciiByte 'e']) ∧
        ItemsReadFrom items body
  | .dict map, text => SortedMap.Sorted map ∧ ∃ body,
      text = asciiByte 'd' :: (body ++ [asciiByte 'e']) ∧
        EntriesReadFrom map body

/-- The text spells the items one after the other. -/
def ItemsReadFrom : List BencodeValue → Bytes → Prop
  | [], text => text = []
  | v :: vs, text => ∃ first rest, text = first ++ rest ∧
      ReadFrom v first ∧ ItemsReadFrom vs rest

/-- The text spells the entries one after the other.  The first byte of a key
is not restricted to a digit. -/
def EntriesReadFrom : List (Bytes × BencodeValue) → Bytes → Prop
  | [], text => text = []
  | (k, v) :: m, text => ∃ key value rest, text = key ++ (value ++ rest) ∧
      StringText k key ∧ ReadFrom v value ∧ EntriesReadFrom m rest

end

variable {items : List BencodeValue} {map : List (Bytes × BencodeValue)}

theorem ReadFrom.head {v : BencodeValue}
    (h : v.ReadFrom text) : ∃ c t, text = c :: t ∧ c ≠ asciiByte 'e' := by
  cases v with
  | int i =>
    rw [ReadFrom] at h
    obtain ⟨s, n, rfl, -⟩ := h
    exact ⟨_, _, rfl, by decide⟩
  | bytes b =>
    rw [ReadFrom] at h
    obtain ⟨c, t, rfl, -, -, -, hc⟩ := h.1.head_ne
    exact ⟨c, t, rfl, hc⟩
  | list items =>
    rw [ReadFrom] at h
    obtain ⟨body, rfl, -⟩ := h
    exact ⟨_, _, rfl, by decide⟩
  | dict map =>
    rw [ReadFrom] at h
    obtain ⟨-, body, rfl, -⟩ := h
    exact ⟨_, _, rfl, by decide⟩

theorem ItemsReadFrom.length_le
    (h : ItemsReadFrom items text) : items.length ≤ text.length := by
  induction items generalizing text with
  | nil => simp
  | cons v items ih =>
    rw [ItemsReadFrom] at h
    obtain ⟨first, rest, rfl, hv, hitems⟩ := h
    obtain ⟨c, t, rfl, -⟩ := hv.head
    have := ih hitems
    simp only [length_cons, length_append]
    omega

theorem EntriesReadFrom.length_le (h : EntriesReadFrom map text) :
    map.length ≤ text.length := by
  induction map generalizing text with
  | nil => simp
  | cons e map ih =>
    rw [EntriesReadFrom] at h
    obtain ⟨key, value, rest, rfl, hkey, -, hmap⟩ := h
    obtain ⟨c, t, rfl, -⟩ := hkey.head_ne
    have := ih hmap
    simp only [length_cons, length_append]
    omega

theorem entriesReadFrom_append {m m' : List (Bytes × BencodeValue)} :
    EntriesReadFrom (m ++ m') text ↔
      ∃ first rest, text = first ++ rest ∧ EntriesReadFrom m first ∧
        EntriesReadFrom m' rest := by
  induction m generalizing text with
  | nil =>
    simp only [nil_append, EntriesReadFrom]
    constructor
    · intro h
      exact ⟨[], text, rfl, rfl, h⟩
    · rintro ⟨first, rest, rfl, rfl, h⟩
      exact h
  | cons e m ih =>
    simp only [cons_append, EntriesReadFrom, ih]
    constructor
    · rintro ⟨key, value, -, rfl, hkey, hvalue, first, rest, rfl, h, h'⟩
      exact ⟨key ++ (value ++ first), rest, by simp,
        ⟨key, value, first, rfl, hkey, hvalue, h⟩, h'⟩
    · rintro ⟨-, rest, rfl, ⟨key, value, first, rfl, hkey, hvalue, h⟩, h'⟩
      exact ⟨key, value, first ++ rest, by simp, hkey, hvalue, first, rest,
        rfl, h, h'⟩

theorem itemsEnclosure_le_iff {n : ℕ} :
    itemsEnclosure items ≤ n ↔ ∀ v ∈ items, v.enclosure < n := by
  induction items with
  | nil => simp [itemsEnclosure]
  | cons v items ih =>
    rw [itemsEnclosure, max_le_iff, ih, forall_mem_cons, succ_le_iff]

theorem entriesEnclosure_le_iff {n : ℕ} :
    entriesEnclosure map ≤ n ↔ ∀ e ∈ map, e.2.enclosure < n := by
  induction map with
  | nil => simp [entriesEnclosure]
  | cons e map ih =>
    rw [entriesEnclosure, max_le_iff, ih, forall_mem_cons, succ_le_iff]

end BencodeValue

open BencodeValue

/-! ## What the loops accept -/

section Loops

variable {item : Bytes → Parse} {levels : ℕ}

/-- An item reader that succeeds only on texts of values nested less deep than
`levels`. -/
def SoundReader (item : Bytes → Parse) (levels : ℕ) : Prop :=
  ∀ input v rest, item input = .ok (v, rest) →
    ∃ text, input = text ++ rest ∧ v.ReadFrom text ∧ v.enclosure < levels

variable {fuel : ℕ}

section

variable {input : Bytes} {v : BencodeValue}

theorem parseListLoop_sound (hitem : SoundReader item levels)
    {acc : List BencodeValue}
    (h : parseListLoop item fuel input acc = .ok (v, rest)) :
    ∃ body items, input = body ++ asciiByte 'e' :: rest ∧
      v = .list (acc ++ items) ∧ ItemsReadFrom items body ∧
      itemsEnclosure items ≤ levels := by
  induction fuel generalizing input acc with
  | zero => simp [parseListLoop] at h
  | succ fuel ih =>
    cases input with
    | nil => simp [parseListLoop, bencodeErr] at h
    | cons c tail =>
      by_cases hc : c = asciiByte 'e'
      · simp only [parseListLoop, hc, if_true, ok.injEq, Prod.mk.injEq] at h
        obtain ⟨rfl, rfl⟩ := h
        refine ⟨[], [], by simp [hc], by simp, ?_, ?_⟩
        · rw [ItemsReadFrom]
        · rw [itemsEnclosure]
          exact zero_le _
      · simp only [parseListLoop, hc, if_false, bind_eq_ok] at h
        obtain ⟨⟨w, r⟩, hread, h⟩ := h
        obtain ⟨text, hinput, hw, hlevel⟩ := hitem _ _ _ hread
        obtain ⟨body, items, rfl, rfl, hitems, hle⟩ := ih h
        refine ⟨text ++ body, w :: items, ?_, by simp, ?_, ?_⟩
        · rw [hinput, append_assoc]
        · rw [ItemsReadFrom]
          exact ⟨text, body, rfl, hw, hitems⟩
        · rw [itemsEnclosure]
          omega

theorem parseDictLoop_sound (hitem : SoundReader item levels)
    {acc : List (Bytes × BencodeValue)} {prevKey : Option Bytes}
    (hsorted : SortedMap.Sorted acc)
    (hprev : prevKey = acc.getLast?.map Prod.fst)
    (h : parseDictLoop item fuel input acc prevKey = .ok (v, rest)) :
    ∃ body map, input = body ++ asciiByte 'e' :: rest ∧
      v = .dict (acc ++ map) ∧ SortedMap.Sorted (acc ++ map) ∧
      EntriesReadFrom map body ∧ entriesEnclosure map ≤ levels := by
  induction fuel generalizing input acc prevKey with
  | zero => simp [parseDictLoop] at h
  | succ fuel ih =>
    cases input with
    | nil => simp [parseDictLoop, bencodeErr] at h
    | cons c tail =>
      by_cases hc : c = asciiByte 'e'
      · simp only [parseDictLoop, hc, if_true, ok.injEq, Prod.mk.injEq] at h
        obtain ⟨rfl, rfl⟩ := h
        refine ⟨[], [], by simp [hc], by simp, by simpa using hsorted, ?_, ?_⟩
        · rw [EntriesReadFrom]
        · rw [entriesEnclosure]
          exact zero_le _
      · simp only [parseDictLoop, hc, if_false, bind_eq_ok, check_eq_ok] at h
        obtain ⟨⟨key, r⟩, hkey, -, horder, ⟨w, r'⟩, hread, h⟩ := h
        dsimp only at horder hread h
        -- The order check keeps the map sorted, so inserting appends.
        obtain ⟨hsorted', hbelow⟩ := hsorted.append_last (v := w) (by
          intro e he
          rw [hprev, he] at horder
          simpa using horder)
        rw [insert_of_forall_lt hbelow] at h
        obtain ⟨keyText, hinput, hkeyText⟩ := parseString_iff.mp hkey
        obtain ⟨text, rfl, hw, hlevel⟩ := hitem _ _ _ hread
        obtain ⟨body, map, rfl, rfl, hsorted'', hmap, hle⟩ :=
          ih hsorted' (by simp) h
        refine ⟨keyText ++ (text ++ body), (key, w) :: map, ?_, by simp,
          by simpa using hsorted'', ?_, ?_⟩
        · rw [hinput]
          simp
        · rw [EntriesReadFrom]
          exact ⟨keyText, text, body, rfl, hkeyText, hw, hmap⟩
        · rw [entriesEnclosure]
          omega

theorem SoundReader.length_lt (h : SoundReader item levels)
    (hread : item input = .ok (v, rest)) : rest.length < input.length := by
  obtain ⟨text, rfl, hv, -⟩ := h input v rest hread
  obtain ⟨c, t, rfl, -⟩ := hv.head
  simp only [length_append, length_cons]
  omega

end

theorem parseListLoop_ne_panic (hitem : SoundReader item levels)
    (hnever : ∀ input, item input ≠ .panic) {rest : Bytes}
    (hfuel : rest.length < fuel) (acc : List BencodeValue) :
    parseListLoop item fuel rest acc ≠ .panic := by
  induction fuel generalizing rest acc with
  | zero => omega
  | succ fuel ih =>
    cases rest with
    | nil => simp [parseListLoop, bencodeErr]
    | cons c tail =>
      simp only [parseListLoop]
      split_ifs
      · simp
      · refine bind_ne_panic (hnever _) ?_
        rintro ⟨v, r⟩ hread
        have hlt := hitem.length_lt hread
        dsimp only
        exact ih (by omega) _

theorem parseDictLoop_ne_panic (hitem : SoundReader item levels)
    (hnever : ∀ input, item input ≠ .panic) {rest : Bytes}
    (hfuel : rest.length < fuel) (acc : List (Bytes × BencodeValue))
    (prevKey : Option Bytes) :
    parseDictLoop item fuel rest acc prevKey ≠ .panic := by
  induction fuel generalizing rest acc prevKey with
  | zero => omega
  | succ fuel ih =>
    cases rest with
    | nil => simp [parseDictLoop, bencodeErr]
    | cons c tail =>
      simp only [parseDictLoop]
      split_ifs
      · simp
      · refine bind_ne_panic (parseString_ne_panic _) ?_
        rintro ⟨key, r⟩ hkey
        refine bind_ne_panic (check_ne_panic _ _) fun _ _ => ?_
        refine bind_ne_panic (hnever _) ?_
        rintro ⟨v, r'⟩ hread
        dsimp only at hread ⊢
        obtain ⟨keyText, heq, -⟩ := parseString_iff.mp hkey
        have hlen := congrArg length heq
        have hlt := hitem.length_lt hread
        rw [length_append] at hlen
        exact ih (by omega) _ _

theorem parseListLoop_complete {items : List BencodeValue} {body : Bytes}
    (h : ItemsReadFrom items body)
    (hitem : ∀ v ∈ items, ∀ text rest, v.ReadFrom text →
      item (text ++ rest) = .ok (v, rest)) (hfuel : items.length < fuel)
    (acc : List BencodeValue) (rest : Bytes) :
    parseListLoop item fuel (body ++ asciiByte 'e' :: rest) acc =
      .ok (.list (acc ++ items), rest) := by
  induction items generalizing fuel acc body with
  | nil =>
    rw [ItemsReadFrom] at h
    subst h
    obtain ⟨fuel, rfl⟩ := exists_eq_succ_of_ne_zero (by omega : fuel ≠ 0)
    simp [parseListLoop]
  | cons v items ih =>
    rw [ItemsReadFrom] at h
    obtain ⟨first, body, rfl, hv, hitems⟩ := h
    obtain ⟨fuel, rfl⟩ := exists_eq_succ_of_ne_zero (by omega : fuel ≠ 0)
    have hread := hitem v (by simp) first (body ++ asciiByte 'e' :: rest) hv
    obtain ⟨c, t, rfl, hc⟩ := hv.head
    rw [append_assoc]
    rw [cons_append] at hread ⊢
    simp only [parseListLoop, hc, if_false, hread, ok_bind]
    rw [ih hitems (fun w hw => hitem w (by simp [hw]))
      (by simpa using hfuel) (acc ++ [v])]
    simp

theorem parseDictLoop_complete {map : List (Bytes × BencodeValue)}
    {body : Bytes} (h : EntriesReadFrom map body)
    (hitem : ∀ e ∈ map, ∀ text rest, e.2.ReadFrom text →
      item (text ++ rest) = .ok (e.2, rest)) (hfuel : map.length < fuel)
    {acc : List (Bytes × BencodeValue)}
    (hsorted : SortedMap.Sorted (acc ++ map)) {prevKey : Option Bytes}
    (hprev : prevKey = acc.getLast?.map Prod.fst) (rest : Bytes) :
    parseDictLoop item fuel (body ++ asciiByte 'e' :: rest) acc prevKey =
      .ok (.dict (acc ++ map), rest) := by
  induction map generalizing fuel acc prevKey body with
  | nil =>
    rw [EntriesReadFrom] at h
    subst h
    obtain ⟨fuel, rfl⟩ := exists_eq_succ_of_ne_zero (by omega : fuel ≠ 0)
    simp [parseDictLoop]
  | cons e map ih =>
    obtain ⟨k, v⟩ := e
    rw [EntriesReadFrom] at h
    obtain ⟨key, value, body, rfl, hkeyText, hv, hmap⟩ := h
    obtain ⟨fuel, rfl⟩ := exists_eq_succ_of_ne_zero (by omega : fuel ≠ 0)
    have hbelow := hsorted.forall_lt_of_append_cons
    -- The key is above the last one read, so the order check passes.
    have hcheck : (prevKey.all fun pk => decide (pk < k)) = true := by
      subst hprev
      cases hlast : acc.getLast? with
      | none => simp
      | some e =>
        simpa using hbelow e (mem_of_getLast? hlast)
    have hkey : parseString (key ++ (value ++ (body ++
        asciiByte 'e' :: rest))) =
          .ok (k, value ++ (body ++ asciiByte 'e' :: rest)) :=
      parseString_iff.mpr ⟨key, rfl, hkeyText⟩
    have hread := hitem (k, v) (by simp) value
      (body ++ asciiByte 'e' :: rest) hv
    obtain ⟨c, t, rfl, -, -, -, hc⟩ := hkeyText.head_ne
    rw [append_assoc, append_assoc]
    rw [cons_append] at hkey ⊢
    simp only [parseDictLoop, hc, if_false, hkey, ok_bind, hcheck,
      Outcome.check, if_true, hread]
    rw [insert_of_forall_lt hbelow]
    rw [ih hmap (fun e he => hitem e (by simp [he]))
      (by simpa using hfuel) (by simpa using hsorted) (by simp)]
    simp

end Loops

/-! ## The recursive reader -/

variable (levels : ℕ)

theorem parseValueAt_list (tail : Bytes) :
    parseValueAt (levels + 1) (asciiByte 'l' :: tail) =
      parseListLoop (parseValueAt levels) (tail.length + 1) tail [] := by
  have hi : asciiByte 'l' ≠ asciiByte 'i' := by decide
  simp [parseValueAt, hi, parseList, Outcome.sliceFrom]

theorem parseValueAt_dict (tail : Bytes) :
    parseValueAt (levels + 1) (asciiByte 'd' :: tail) =
      parseDictLoop (parseValueAt levels) (tail.length + 1) tail [] none := by
  have hi : asciiByte 'd' ≠ asciiByte 'i' := by decide
  have hl : asciiByte 'd' ≠ asciiByte 'l' := by decide
  simp [parseValueAt, hi, hl, parseDict, Outcome.sliceFrom]

theorem parseValueAt_sound : SoundReader (parseValueAt levels) levels := by
  induction levels with
  | zero =>
    intro input v rest h
    simp [parseValueAt, bencodeErr] at h
  | succ levels ih =>
    intro input v rest h
    cases input with
    | nil => simp [parseValueAt, bencodeErr] at h
    | cons first tail =>
      by_cases hl : first = asciiByte 'l'
      · subst hl
        rw [parseValueAt_list] at h
        obtain ⟨body, items, rfl, rfl, hitems, hle⟩ :=
          parseListLoop_sound ih h
        refine ⟨asciiByte 'l' :: (body ++ [asciiByte 'e']), by simp, ?_, ?_⟩
        · rw [ReadFrom]
          exact ⟨body, rfl, hitems⟩
        · rw [enclosure, nil_append]
          omega
      by_cases hd : first = asciiByte 'd'
      · subst hd
        rw [parseValueAt_dict] at h
        obtain ⟨body, map, rfl, rfl, hsorted, hmap, hle⟩ :=
          parseDictLoop_sound ih sorted_nil rfl h
        refine ⟨asciiByte 'd' :: (body ++ [asciiByte 'e']), by simp, ?_, ?_⟩
        · rw [ReadFrom]
          exact ⟨hsorted, body, rfl, hmap⟩
        · rw [enclosure, nil_append]
          omega
      simp only [parseValueAt, hl, hd, if_false] at h
      split at h
      · obtain ⟨text, i, heq, rfl, htext⟩ := parseInt_iff.mp h
        refine ⟨text, heq, ?_, ?_⟩
        · rwa [ReadFrom]
        · rw [enclosure]
          omega
      split at h
      · next hdigit =>
          simp only [parseBytes, bind_eq_ok, pure_eq,
            ok.injEq, Prod.mk.injEq] at h
          obtain ⟨⟨val, r⟩, hval, rfl, rfl⟩ := h
          obtain ⟨text, heq, htext⟩ := parseString_iff.mp hval
          obtain ⟨c, t, rfl, -⟩ := htext.head_ne
          rw [cons_append, cons.injEq] at heq
          obtain ⟨rfl, rfl⟩ := heq
          refine ⟨first :: t, rfl, ?_, ?_⟩
          · rw [ReadFrom]
            exact ⟨htext, first, t, rfl, hdigit⟩
          · rw [enclosure]
            omega
      · simp [bencodeErr] at h

theorem parseValueAt_ne_panic (input : Bytes) :
    parseValueAt levels input ≠ .panic := by
  induction levels generalizing input with
  | zero => simp [parseValueAt, bencodeErr]
  | succ levels ih =>
    have hitem := parseValueAt_sound levels
    cases input with
    | nil => simp [parseValueAt, bencodeErr]
    | cons first tail =>
      by_cases hl : first = asciiByte 'l'
      · rw [hl, parseValueAt_list]
        exact parseListLoop_ne_panic hitem ih (lt_succ_self _) _
      by_cases hd : first = asciiByte 'd'
      · rw [hd, parseValueAt_dict]
        exact parseDictLoop_ne_panic hitem ih (lt_succ_self _) _ _
      simp only [parseValueAt, hl, hd, if_false]
      split_ifs with hi
      · exact parseInt_ne_panic (by rw [hi]; rfl)
      · simp [parseBytes, bind_eq_panic, parseString_ne_panic]
      · simp [bencodeErr]

/-- Whatever follows it, a text is read as its value at every level that
leaves room for the value's nesting. -/
theorem parseValueAt_complete :
    ∀ (v : BencodeValue) (text : Bytes), v.ReadFrom text →
      ∀ levels, v.enclosure < levels →
        ∀ rest, parseValueAt levels (text ++ rest) = .ok (v, rest)
  | _, _, _, 0, hlevels, _ => absurd hlevels (not_lt_zero _)
  | .int i, text, h, levels + 1, _, rest => by
    rw [ReadFrom] at h
    have hread : parseInt (text ++ rest) = .ok (.int i, rest) :=
      parseInt_iff.mpr ⟨text, i, rfl, rfl, h⟩
    obtain ⟨s, n, rfl, -⟩ := h
    rw [cons_append] at hread ⊢
    simpa only [parseValueAt, if_true] using hread
  | .bytes b, text, h, levels + 1, _, rest => by
    rw [ReadFrom] at h
    obtain ⟨hstring, c, t, rfl, hdigit⟩ := h
    have hread : parseString (c :: t ++ rest) = .ok (b, rest) :=
      parseString_iff.mpr ⟨_, rfl, hstring⟩
    obtain ⟨c', t', heq, hi, hl, hd, -⟩ := hstring.head_ne
    obtain ⟨rfl, rfl⟩ := cons.inj heq
    rw [cons_append] at hread ⊢
    simp only [parseValueAt, hi, hl, hd, hdigit, if_false, if_true,
      and_self, parseBytes, hread, ok_bind, pure_eq]
  | .list items, text, h, levels + 1, hlevels, rest => by
    rw [ReadFrom] at h
    obtain ⟨body, rfl, hitems⟩ := h
    rw [enclosure] at hlevels
    have hitem : ∀ w ∈ items, ∀ t r, w.ReadFrom t →
        parseValueAt levels (t ++ r) = .ok (w, r) := by
      intro w hw t r ht
      have henc := itemsEnclosure_le_iff.mp le_rfl w hw
      exact parseValueAt_complete w t ht levels (by omega) r
    have hfuel := hitems.length_le
    rw [cons_append, append_assoc, singleton_append,
      parseValueAt_list, parseListLoop_complete hitems hitem
        (by simp only [length_append, length_cons]; omega)]
    rfl
  | .dict map, text, h, levels + 1, hlevels, rest => by
    rw [ReadFrom] at h
    obtain ⟨hsorted, body, rfl, hmap⟩ := h
    rw [enclosure] at hlevels
    have hitem : ∀ e ∈ map, ∀ t r, e.2.ReadFrom t →
        parseValueAt levels (t ++ r) = .ok (e.2, r) := by
      intro e he t r ht
      have henc := entriesEnclosure_le_iff.mp le_rfl e he
      exact parseValueAt_complete e.2 t ht levels (by omega) r
    have hfuel := hmap.length_le
    rw [cons_append, append_assoc, singleton_append,
      parseValueAt_dict, parseDictLoop_complete hmap hitem
        (by simp only [length_append, length_cons]; omega)
        (by simpa using hsorted) (by simp)]
    rfl
termination_by v => sizeOf v
decreasing_by
  · have := List.sizeOf_lt_of_mem hw
    simp only [BencodeValue.list.sizeOf_spec]
    omega
  · have hmem := List.sizeOf_lt_of_mem he
    obtain ⟨k, w⟩ := e
    simp only [Prod.mk.sizeOf_spec, BencodeValue.dict.sizeOf_spec] at hmem ⊢
    omega

variable {input : Bytes} {v : BencodeValue}

/-- The reader succeeds exactly on the texts of values nested less deep than
the levels it may enter. -/
theorem parseValueAt_eq_ok {levels : ℕ} :
    parseValueAt levels input = .ok (v, rest) ↔
      ∃ text, input = text ++ rest ∧ v.ReadFrom text ∧
        v.enclosure < levels := by
  constructor
  · exact parseValueAt_sound levels input v rest
  · rintro ⟨text, rfl, hv, hlevels⟩
    exact parseValueAt_complete v text hv levels hlevels rest

theorem BencodeValue.ReadFrom.unique {v' : BencodeValue}
    {text text' rest' : Bytes} (h : v.ReadFrom text)
    (h' : v'.ReadFrom text') (heq : text ++ rest = text' ++ rest') :
    v = v' ∧ text = text' ∧ rest = rest' := by
  have hread := parseValueAt_complete v text h
    (v.enclosure + v'.enclosure + 1) (by omega) rest
  have hread' := parseValueAt_complete v' text' h'
    (v.enclosure + v'.enclosure + 1) (by omega) rest'
  rw [heq, hread'] at hread
  simp only [ok.injEq, Prod.mk.injEq] at hread
  obtain ⟨rfl, rfl⟩ := hread
  exact ⟨rfl, append_cancel_right heq, rfl⟩

theorem parse_eq_ok : parse input = .ok (v, rest) ↔
      ∃ text, input = text ++ rest ∧ v.ReadFrom text ∧
        v.enclosure ≤ maxDepth := by
  simp only [← Nat.lt_succ_iff]
  exact parseValueAt_eq_ok

theorem parse_ne_panic (input : Bytes) : parse input ≠ .panic :=
  parseValueAt_ne_panic (maxDepth + 1) input

theorem parse_consumes (h : parse input = .ok (v, rest)) :
    ∃ pre, pre ≠ [] ∧ input = pre ++ rest := by
  obtain ⟨text, rfl, hv, -⟩ := parse_eq_ok.mp h
  obtain ⟨c, t, rfl, -⟩ := hv.head
  exact ⟨c :: t, cons_ne_nil c t, rfl⟩

theorem parseAll_eq_ok :
    parseAll input = .ok v ↔ parse input = .ok (v, []) := by
  constructor
  · intro h
    simp only [parseAll, bind_eq_ok, check_eq_ok,
      List.isEmpty_iff, pure_eq, ok.injEq] at h
    obtain ⟨⟨w, rest⟩, hparse, -, hrest, rfl⟩ := h
    dsimp only at hrest
    rw [hparse, hrest]
  · intro h
    simp [parseAll, h, Outcome.check]

theorem parseAll_ne_panic (input : Bytes) : parseAll input ≠ .panic := by
  simp [parseAll, bind_eq_panic, parse_ne_panic]

theorem parseAll_iff :
    parseAll input = .ok v ↔ v.ReadFrom input ∧ v.enclosure ≤ maxDepth := by
  rw [parseAll_eq_ok, parse_eq_ok]
  constructor
  · rintro ⟨text, rfl, h⟩
    rwa [append_nil]
  · intro h
    exact ⟨input, by simp, h⟩

end RustyTorrent.Metainfo
