import RustyTorrent.Metainfo.BencodeText

/-!
# Reading back what was written

Every value that the source type can hold is spelled by its encoding, so a
value nested at most `maxDepth` containers deep is read back from it, whatever
follows.
-/

namespace RustyTorrent.Metainfo

open Decimal BencodeValue List

/-! ## Leaves -/

variable {depth : ℕ} (b : Bytes)

theorem stringToBytes_head :
    ∃ c t, stringToBytes b = c :: t ∧ 48 ≤ c.toNat ∧ c.toNat ≤ 57 := by
  obtain ⟨c, t, hct⟩ := exists_cons_of_ne_nil (decimal_ne_nil b.length)
  have hdigit := isDigits_decimal b.length c (by simp [hct])
  exact ⟨c, t ++ asciiByte ':' :: b, by simp [stringToBytes, hct], hdigit⟩

theorem digitFirst_stringToBytes : DigitFirst (stringToBytes b) := by
  obtain ⟨c, t, hct, hlow, hhigh⟩ := stringToBytes_head b
  exact ⟨c, t, hct, UInt8.le_iff_toNat_le.mpr hlow,
    UInt8.le_iff_toNat_le.mpr hhigh⟩

theorem stringText_stringToBytes {b : Bytes} (hb : b.length < 2 ^ 63) :
    StringText b (stringToBytes b) := by
  have hdigits := isDigits_decimal b.length
  refine ⟨decimal b.length, rfl, ?_, ?_, ?_⟩
  · intro h
    have := hdigits _ h
    revert this
    decide
  · apply Utf8.fromUtf8_ascii
    intro c hc
    have := hdigits c hc
    omega
  · exact readUnsigned_decimal (by omega)

theorem intSpelling_decimalInt (i : ℤ) : IntSpelling (decimalInt i) := by
  have hplain := decimal_plain i.natAbs
  have hdigits := isDigits_decimal i.natAbs
  obtain ⟨c, t, hct⟩ := exists_cons_of_ne_nil (decimal_ne_nil i.natAbs)
  have hzero : ascii "0" = [asciiByte '0'] := by decide
  have hminusZero : ascii "-0" = [asciiByte '-', asciiByte '0'] := by decide
  by_cases hneg : i < 0
  · have hne : i.natAbs ≠ 0 := by omega
    have hc : c ≠ asciiByte '0' := by
      rintro rfl
      -- A lone zero would denote zero, and a longer one is not plain.
      rcases hplain.2 with hlen | hhead
      · rw [hct, length_cons] at hlen
        have ht : t = [] := eq_nil_of_length_eq_zero (by omega)
        have hval := digitsValue_decimal i.natAbs
        rw [hct, ht] at hval
        exact hne (hval.symm.trans (by decide))
      · exact hhead (by rw [hct]; rfl)
    have hne0 : asciiByte '0' ≠ asciiByte '-' := by decide
    simp [IntSpelling, decimalInt, hneg, hct, startsWith, hzero, hminusZero,
      hc, Ne.symm hc, hne0]
  · have hminus : c ≠ asciiByte '-' := by
      rintro rfl
      have := hdigits (asciiByte '-') (by simp [hct])
      revert this
      decide
    refine ⟨by simp [decimalInt, hneg, hct], ?_, ?_⟩
    · simp [decimalInt, hneg, hct, hminusZero, hminus]
    · simp only [decimalInt, hneg, if_false, startsWith, hzero, hminusZero]
      rintro ⟨hlen, hstart⟩
      rcases hplain.2 with hshort | hhead
      · omega
      · rw [hct] at hstart hhead
        simp only [head?_cons, ne_eq, Option.some.injEq] at hhead
        simp [Ne.symm hhead, Ne.symm hminus] at hstart

theorem decimalInt_ascii {i : ℤ} {c : UInt8} (hc : c ∈ decimalInt i) :
    c = asciiByte '-' ∨ (48 ≤ c.toNat ∧ c.toNat ≤ 57) := by
  have hdigits := isDigits_decimal i.natAbs
  unfold decimalInt at hc
  split at hc
  · rcases mem_cons.mp hc with hc | hc
    · exact Or.inl hc
    · exact Or.inr (hdigits c hc)
  · exact Or.inr (hdigits c hc)

theorem intText_toBytes (i : Int64) :
    IntText i (BencodeValue.toBytes (.int i)) := by
  refine ⟨decimalInt i.toInt, i.toInt, by rw [toBytes], ?_,
    intSpelling_decimalInt _, ?_, ?_, by rw [Int64.ofInt_toInt]⟩
  · intro h
    rcases decimalInt_ascii h with h | h
    all_goals
      revert h
      decide
  · apply Utf8.fromUtf8_ascii
    intro c hc
    rcases decimalInt_ascii hc with rfl | hc
    · decide
    · omega
  · apply readSigned_decimalInt
    · exact Int64.le_toInt i
    · have := Int64.toInt_lt i
      omega

/-! ## Values -/

mutual

theorem readFrom_toBytes :
    ∀ v : BencodeValue, v.WellFormed → v.ReadFrom v.toBytes
  | .int i, _ => by
    rw [ReadFrom]
    exact intText_toBytes i
  | .bytes b, h => by
    rw [WellFormed] at h
    rw [ReadFrom, toBytes]
    exact ⟨stringText_stringToBytes h, digitFirst_stringToBytes b⟩
  | .list items, h => by
    rw [WellFormed] at h
    rw [ReadFrom, toBytes]
    exact ⟨_, rfl, itemsReadFrom_itemsToBytes items h⟩
  | .dict map, h => by
    rw [WellFormed] at h
    rw [ReadFrom, toBytes]
    exact ⟨h.1, _, rfl, entriesReadFrom_entriesToBytes map h.2⟩

theorem itemsReadFrom_itemsToBytes :
    ∀ items : List BencodeValue, ItemsWellFormed items →
      ItemsReadFrom items (itemsToBytes items)
  | [], _ => by rw [ItemsReadFrom, itemsToBytes]
  | v :: vs, h => by
    rw [ItemsWellFormed] at h
    rw [ItemsReadFrom, itemsToBytes]
    exact ⟨_, _, rfl, readFrom_toBytes v h.1, itemsReadFrom_itemsToBytes vs h.2⟩

theorem entriesReadFrom_entriesToBytes :
    ∀ map : List (Bytes × BencodeValue), EntriesWellFormed map →
      EntriesReadFrom map (entriesToBytes map)
  | [], _ => by rw [EntriesReadFrom, entriesToBytes]
  | (k, v) :: m, h => by
    rw [EntriesWellFormed] at h
    rw [EntriesReadFrom, entriesToBytes]
    exact ⟨_, _, _, rfl, stringText_stringToBytes h.1,
      readFrom_toBytes v h.2.1, entriesReadFrom_entriesToBytes m h.2.2⟩

end

/-! ## Values that were written -/

namespace BencodeValue

mutual

/-- Every dictionary in the value is in key order. -/
def Ordered : BencodeValue → Prop
  | .int _ => True
  | .bytes _ => True
  | .list items => ItemsOrdered items
  | .dict map => SortedMap.Sorted map ∧ EntriesOrdered map

def ItemsOrdered : List BencodeValue → Prop
  | [] => True
  | v :: vs => Ordered v ∧ ItemsOrdered vs

def EntriesOrdered : List (Bytes × BencodeValue) → Prop
  | [] => True
  | (_, v) :: m => Ordered v ∧ EntriesOrdered m

end

end BencodeValue

theorem length_le_stringToBytes : b.length ≤ (stringToBytes b).length := by
  rw [stringToBytes, length_append, length_cons]
  omega

mutual

theorem wellFormed_of_length :
    ∀ v : BencodeValue, v.Ordered → v.toBytes.length < 2 ^ 63 → v.WellFormed
  | .int i, _, _ => by
    rw [WellFormed]
    trivial
  | .bytes b, _, hlen => by
    rw [toBytes] at hlen
    rw [WellFormed]
    exact Nat.lt_of_le_of_lt (length_le_stringToBytes b) hlen
  | .list items, h, hlen => by
    rw [Ordered] at h
    rw [toBytes, length_cons, length_append] at hlen
    rw [WellFormed]
    exact itemsWellFormed_of_length items h (by omega)
  | .dict map, h, hlen => by
    rw [Ordered] at h
    rw [toBytes, length_cons, length_append] at hlen
    rw [WellFormed]
    exact ⟨h.1, entriesWellFormed_of_length map h.2 (by omega)⟩

theorem itemsWellFormed_of_length :
    ∀ items : List BencodeValue, ItemsOrdered items →
      (itemsToBytes items).length < 2 ^ 63 → ItemsWellFormed items
  | [], _, _ => by
    rw [ItemsWellFormed]
    trivial
  | v :: vs, h, hlen => by
    rw [ItemsOrdered] at h
    rw [itemsToBytes, length_append] at hlen
    rw [ItemsWellFormed]
    exact ⟨wellFormed_of_length v h.1 (by omega),
      itemsWellFormed_of_length vs h.2 (by omega)⟩

theorem entriesWellFormed_of_length :
    ∀ map : List (Bytes × BencodeValue), EntriesOrdered map →
      (entriesToBytes map).length < 2 ^ 63 → EntriesWellFormed map
  | [], _, _ => by
    rw [EntriesWellFormed]
    trivial
  | (k, v) :: m, h, hlen => by
    rw [EntriesOrdered] at h
    rw [entriesToBytes, length_append, length_append] at hlen
    rw [EntriesWellFormed]
    have hk := length_le_stringToBytes k
    exact ⟨by omega, wellFormed_of_length v h.1 (by omega),
      entriesWellFormed_of_length m h.2 (by omega)⟩

end

theorem entriesToBytes_append (m m' : List (Bytes × BencodeValue)) :
    entriesToBytes (m ++ m') = entriesToBytes m ++ entriesToBytes m' := by
  induction m with
  | nil => rw [entriesToBytes, nil_append, nil_append]
  | cons e m ih =>
    rw [cons_append, entriesToBytes, entriesToBytes, ih]
    simp only [append_assoc]

theorem itemsOrdered_of_forall {items : List BencodeValue}
    (h : ∀ v ∈ items, v.Ordered) : ItemsOrdered items := by
  induction items with
  | nil =>
    rw [ItemsOrdered]
    trivial
  | cons v items ih =>
    rw [ItemsOrdered]
    exact ⟨h v (by simp), ih fun w hw => h w (by simp [hw])⟩

theorem entriesOrdered_of_forall {map : List (Bytes × BencodeValue)}
    (h : ∀ e ∈ map, e.2.Ordered) : EntriesOrdered map := by
  induction map with
  | nil =>
    rw [EntriesOrdered]
    trivial
  | cons e map ih =>
    rw [EntriesOrdered]
    exact ⟨h e (by simp), ih fun e' he' => h e' (by simp [he'])⟩

/-- Values in key order with at most `depth` containers around any part. -/
def Nested (depth : ℕ) (v : BencodeValue) : Prop :=
  v.Ordered ∧ v.enclosure ≤ depth

@[simp] theorem nested_bytes (depth : ℕ) (b : Bytes) :
    Nested depth (.bytes b) := by
  simp [Nested, Ordered, enclosure]

@[simp] theorem nested_int (depth : ℕ) (i : Int64) : Nested depth (.int i) := by
  simp [Nested, Ordered, enclosure]

theorem Nested.mono {depth' : ℕ} {v : BencodeValue} (h : Nested depth v)
    (hle : depth ≤ depth') : Nested depth' v :=
  ⟨h.1, h.2.trans hle⟩

theorem nested_list {items : List BencodeValue}
    (h : ∀ v ∈ items, Nested depth v) : Nested (depth + 1) (.list items) := by
  rw [Nested, Ordered, enclosure]
  exact ⟨itemsOrdered_of_forall fun v hv => (h v hv).1,
    itemsEnclosure_le_iff.mpr fun v hv => Nat.lt_succ_of_le (h v hv).2⟩

theorem nested_dict {map : List (Bytes × BencodeValue)}
    (hsorted : SortedMap.Sorted map) (h : ∀ e ∈ map, Nested depth e.2) :
    Nested (depth + 1) (.dict map) := by
  rw [Nested, Ordered, enclosure]
  exact ⟨⟨hsorted, entriesOrdered_of_forall fun e he => (h e he).1⟩,
    entriesEnclosure_le_iff.mpr fun e he => Nat.lt_succ_of_le (h e he).2⟩

/-! ## The round trip -/

theorem parseAll_toBytes {v : BencodeValue} (h : Nested maxDepth v)
    (hlen : v.toBytes.length < 2 ^ 63) : parseAll v.toBytes = .ok v :=
  parseAll_iff.mpr ⟨readFrom_toBytes v (wellFormed_of_length v h.1 hlen), h.2⟩

/-- Reading inverts writing on every value nested at most `maxDepth`
containers deep, and on arbitrary input it never unwinds and leaves exactly
what follows the non-empty part it read. -/
theorem parse_roundTrip :
    (∀ v : BencodeValue, v.WellFormed → v.enclosure ≤ maxDepth →
      ∀ rest, parse (v.toBytes ++ rest) = .ok (v, rest)) ∧
    ∀ input, parse input ≠ .panic ∧ ∀ v rest, parse input = .ok (v, rest) →
        ∃ pre, pre ≠ [] ∧ input = pre ++ rest := by
  refine ⟨?_, fun input => ⟨parse_ne_panic input, ?_⟩⟩
  · intro v hv henc rest
    exact parse_eq_ok.mpr ⟨_, rfl, readFrom_toBytes v hv, henc⟩
  · intro v rest h
    exact parse_consumes h

theorem parse_roundTrip_dict : (∀ rest, parse (BencodeValue.toBytes
        (.dict [(ascii "a", .list [.int (-7)]), (ascii "b", .bytes [101])])
          ++ rest) =
      .ok (.dict [(ascii "a", .list [.int (-7)]), (ascii "b", .bytes [101])],
        rest)) ∧
      parse (ascii "le!") ≠ .panic := by
  refine ⟨parse_roundTrip.1 _ ?_ ?_, (parse_roundTrip.2 (ascii "le!")).1⟩
  · simp only [WellFormed, EntriesWellFormed, ItemsWellFormed,
      SortedMap.Sorted, map_cons, map_nil]
    decide
  · decide

end RustyTorrent.Metainfo
