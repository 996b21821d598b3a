import RustyTorrent.Metainfo.BencodeRoundTrip

/-!
# Which spellings of a value the reader accepts

The reader hands numerals to the standard library, which also takes a plus
sign and leading zeros.  `numerals` lists the numerals of an input: the body
of every integer and the length prefix of every byte string and dictionary
key.  An accepted input is the encoding of its value exactly when all of them
are spelled the way the writer prints them.

The canonical encoding is never longer than an accepted spelling, and equally
long only when it is that spelling.  This is what makes the statement
compositional: equality of concatenations splits into equality of the parts.
-/

namespace RustyTorrent.Metainfo

open Decimal BencodeValue List

/-- A numeral of an input together with the place where it stands. -/
inductive Numeral where
  /-- The body of an integer. -/
  | integer (s : Bytes)
  /-- The length prefix of a byte string or of a dictionary key. -/
  | length (s : Bytes)
  deriving DecidableEq, Repr

/-- Spelled as the writer prints it: no plus sign, and no superfluous leading
zero in a length. -/
def Numeral.Plain : Numeral → Prop
  | .integer s => s.head? ≠ some (asciiByte '+')
  | .length s => PlainNat s

/-- The value of a length numeral, zero when it is not one. -/
def lengthValue (s : Bytes) : ℕ :=
  match readUnsigned (2 ^ 64 - 1) s with
  | .ok n => n
  | .error _ => 0

/-- The part of the input before the first occurrence of `c`. -/
def untilByte (c : UInt8) (input : Bytes) : Bytes :=
  input.takeWhile (· ≠ c)

/-- The numerals of an input, token by token.  Container brackets carry no
numeral, and the contents of byte strings are skipped. -/
def numerals (input : Bytes) : List Numeral :=
  match input with
  | [] => []
  | c :: rest =>
    if c = asciiByte 'i' then
      .integer (untilByte (asciiByte 'e') rest) ::
        numerals
          (rest.drop ((untilByte (asciiByte 'e') rest).length + 1))
    else if c = asciiByte 'l' ∨ c = asciiByte 'd' ∨ c = asciiByte 'e' then
      numerals rest
    else
      .length (untilByte (asciiByte ':') (c :: rest)) ::
        numerals (rest.drop
          ((untilByte (asciiByte ':') (c :: rest)).length +
            lengthValue (untilByte (asciiByte ':') (c :: rest))))
termination_by input.length
decreasing_by
  all_goals simp only [List.length_cons, List.length_drop]
  all_goals omega

/-- `canon` is the canonical form of the spelling `text`, whose numerals are
`ns`. -/
structure Respells (canon text : Bytes) (ns : List Numeral) : Prop where
  length_le : canon.length ≤ text.length
  eq_iff : canon = text ↔ ∀ n ∈ ns, n.Plain

theorem Respells.refl (text : Bytes) : Respells text text [] :=
  ⟨Nat.le_refl _, by simp⟩

theorem Respells.append {canon₁ canon₂ text₁ text₂ : Bytes}
    {ns₁ ns₂ : List Numeral} (h₁ : Respells canon₁ text₁ ns₁)
    (h₂ : Respells canon₂ text₂ ns₂) :
    Respells (canon₁ ++ canon₂) (text₁ ++ text₂) (ns₁ ++ ns₂) := by
  have hlen₁ := h₁.length_le
  have hlen₂ := h₂.length_le
  refine ⟨by simp only [length_append]; omega, ?_⟩
  constructor
  · intro heq
    have htotal := congrArg List.length heq
    simp only [length_append] at htotal
    obtain ⟨heq₁, heq₂⟩ := append_inj heq (by omega)
    intro n hn
    rcases mem_append.mp hn with hn | hn
    · exact h₁.eq_iff.mp heq₁ n hn
    · exact h₂.eq_iff.mp heq₂ n hn
  · intro hplain
    rw [h₁.eq_iff.mpr fun n hn => hplain n (by simp [hn]),
      h₂.eq_iff.mpr fun n hn => hplain n (by simp [hn])]

/-! ## Numerals -/

theorem respells_length {bound n : ℕ} {s : Bytes}
    (h : readUnsigned bound s = .ok n) :
    Respells (decimal n) s [.length s] := by
  refine ⟨?_, ?_⟩
  · obtain ⟨ds, hdigits, hne, rfl, hs⟩ := readUnsigned_eq_ok h
    have hle := decimal_length_le hdigits hne
    rcases hs with rfl | rfl
    · exact hle
    · rw [length_cons]
      omega
  · rw [readUnsigned_eq_decimal h]
    simp [Numeral.Plain]

/-- The integer reader already refuses every leading zero, so only a plus
sign distinguishes an accepted spelling from the printed one. -/
theorem respells_integer {low high : ℕ} {n : ℤ} {s : Bytes}
    (hs : IntSpelling s) (h : readSigned low high s = .ok n) :
    Respells (decimalInt n) s [.integer s] := by
  obtain ⟨-, ds, hdigits, hne, hcases⟩ := readSigned_eq_ok h
  obtain ⟨-, hzero, hlead⟩ := hs
  have hplain : Numeral.Plain (.integer s) ↔
      s.head? ≠ some (asciiByte '+') := Iff.rfl
  have hle := decimal_length_le hdigits hne
  rcases hcases with ⟨rfl, rfl⟩ | ⟨rfl, rfl⟩ | ⟨rfl, rfl⟩
  · have hhead := hdigits.head?_ne asciiByte_plus_not_digit
    have hdecimal : s = decimal (digitsValue 0 s) := by
      apply eq_decimal_of_isDigits hdigits hne
      by_cases hlen : s.length ≤ 1
      · exact Or.inl hlen
      · right
        intro h0
        apply hlead
        refine ⟨by omega, Or.inl ?_⟩
        obtain ⟨t, rfl⟩ := head?_eq_some_iff.mp h0
        simp [startsWith, ascii]
    have hcanon : decimalInt (digitsValue 0 s : ℤ) = s := by
      have hsign : ¬ ((digitsValue 0 s : ℤ) < 0) := by omega
      rw [decimalInt, if_neg hsign, Int.natAbs_natCast]
      exact hdecimal.symm
    refine ⟨by rw [hcanon], ?_⟩
    simp [hcanon, hplain, hhead]
  · have hsign : ¬ ((digitsValue 0 ds : ℤ) < 0) := by omega
    rw [decimalInt, if_neg hsign, Int.natAbs_natCast]
    refine ⟨by rw [length_cons]; omega, ?_⟩
    -- The printed form is shorter than a spelling with a plus sign.
    constructor
    · intro heq
      have hlen := congrArg List.length heq
      rw [length_cons] at hlen
      omega
    · intro hall
      exact absurd rfl (hplain.mp (hall _ (by simp)))
  · have hhead : ds.head? ≠ some (asciiByte '0') := by
      intro h0
      apply hlead
      obtain ⟨t, rfl⟩ := head?_eq_some_iff.mp h0
      refine ⟨by simp, Or.inr ?_⟩
      simp [startsWith, ascii]
    have hdecimal := eq_decimal_of_isDigits hdigits hne (Or.inr hhead)
    have hvalue : digitsValue 0 ds ≠ 0 := by
      intro hval
      rw [hval] at hdecimal
      exact hhead (by rw [hdecimal]; decide)
    have hcanon : decimalInt (-(digitsValue 0 ds : ℤ)) =
        asciiByte '-' :: ds := by
      have hsign : -(digitsValue 0 ds : ℤ) < 0 := by omega
      rw [decimalInt, if_pos hsign, Int.natAbs_neg, Int.natAbs_natCast,
        ← hdecimal]
    have hminus : asciiByte '-' ≠ asciiByte '+' := by decide
    refine ⟨by rw [hcanon], ?_⟩
    simp [hcanon, hplain, hminus]

/-! ## Scanning accepted text -/

/-- `text` is a spelling of `canon` that the scanner reads on its own, whatever
follows it. -/
def Spells (canon text : Bytes) : Prop :=
  ∃ ns, (∀ rest, numerals (text ++ rest) = ns ++ numerals rest) ∧
    Respells canon text ns

theorem Spells.append {canon₁ canon₂ text₁ text₂ : Bytes}
    (h₁ : Spells canon₁ text₁) (h₂ : Spells canon₂ text₂) :
    Spells (canon₁ ++ canon₂) (text₁ ++ text₂) := by
  obtain ⟨ns₁, hscan₁, hre₁⟩ := h₁
  obtain ⟨ns₂, hscan₂, hre₂⟩ := h₂
  refine ⟨ns₁ ++ ns₂, ?_, hre₁.append hre₂⟩
  intro rest
  rw [append_assoc, hscan₁, hscan₂, append_assoc]

variable {c : UInt8}

theorem spells_bracket
    (hc : c = asciiByte 'l' ∨ c = asciiByte 'd' ∨ c = asciiByte 'e') :
    Spells [c] [c] := by
  have hi : c ≠ asciiByte 'i' := by
    rintro rfl
    revert hc
    decide
  refine ⟨[], ?_, Respells.refl _⟩
  intro rest
  rw [singleton_append, numerals, if_neg hi, if_pos hc, nil_append]

theorem untilByte_append {pre : Bytes} (h : c ∉ pre) (post : Bytes)
    : untilByte c (pre ++ c :: post) = pre := by
  rw [untilByte, takeWhile_append_of_pos]
  · simp
  · intro d hd
    simp only [ne_eq, decide_not, Bool.not_eq_eq_eq_not, Bool.not_true,
      decide_eq_false_iff_not]
    rintro rfl
    exact h hd

theorem spells_string {val text : Bytes} (h : StringText val text) :
    Spells (stringToBytes val) text := by
  obtain ⟨pre, rfl, hnot, -, hread⟩ := h
  refine ⟨[.length pre], ?_, ?_⟩
  · intro r
    obtain ⟨c, t, rfl, hi, hl, hd, he⟩ := readUnsigned_head hread
    have hbracket : ¬ (c = asciiByte 'l' ∨ c = asciiByte 'd' ∨
        c = asciiByte 'e') := by
      simp [hl, hd, he]
    have huntil := untilByte_append hnot (val ++ r)
    have hdrop : (t ++ asciiByte ':' :: (val ++ r)).drop
        ((c :: t).length + val.length) = r := by
      rw [show (c :: t).length + val.length =
        t.length + (val.length + 1) by simp; omega]
      simp
    simp only [cons_append, append_assoc] at huntil ⊢
    rw [numerals, if_neg hi, if_neg hbracket, huntil, lengthValue, hread, hdrop]
    rfl
  · have hlen := respells_length hread
    have htail := Respells.refl (asciiByte ':' :: val)
    simpa [stringToBytes] using hlen.append htail

theorem spells_int {i : Int64} {text : Bytes} (h : IntText i text) :
    Spells (BencodeValue.toBytes (.int i)) text := by
  obtain ⟨s, n, rfl, hnot, hs, -, hread, rfl⟩ := h
  refine ⟨[.integer s], ?_, ?_⟩
  · intro r
    have huntil := untilByte_append hnot r
    simp only [cons_append, append_assoc, nil_append]
    rw [numerals, if_pos rfl, huntil]
    simp
  · obtain ⟨⟨hlow, hhigh⟩, -⟩ := readSigned_eq_ok hread
    have hvalue : (Int64.ofInt n).toInt = n :=
      Int64.toInt_ofInt_of_le (by omega) (by omega)
    have hbody := ((Respells.refl [asciiByte 'i']).append
      (respells_integer hs hread)).append (Respells.refl [asciiByte 'e'])
    simpa [toBytes, hvalue] using hbody

theorem spells_nil : Spells [] [] := by
  refine ⟨[], ?_, Respells.refl []⟩
  intro rest
  simp

theorem Spells.bracket {canon text : Bytes} (h : Spells canon text)
    (hc : c = asciiByte 'l' ∨ c = asciiByte 'd') :
    Spells (c :: (canon ++ [asciiByte 'e']))
      (c :: (text ++ [asciiByte 'e'])) := by
  have hopen : Spells [c] [c] := by
    apply spells_bracket
    rcases hc with hc | hc
    · exact Or.inl hc
    · exact Or.inr (Or.inl hc)
  have hclose : Spells [asciiByte 'e'] [asciiByte 'e'] :=
    spells_bracket (Or.inr (Or.inr rfl))
  exact hopen.append (h.append hclose)

mutual

theorem spells_value : ∀ (v : BencodeValue) (text : Bytes), v.ReadFrom text →
      Spells v.toBytes text
  | .int i, text, h => by
    rw [ReadFrom] at h
    exact spells_int h
  | .bytes b, text, h => by
    rw [ReadFrom] at h
    rw [toBytes]
    exact spells_string h.1
  | .list items, text, h => by
    rw [ReadFrom] at h
    obtain ⟨body, rfl, hitems⟩ := h
    rw [toBytes]
    exact (spells_items items body hitems).bracket (Or.inl rfl)
  | .dict map, text, h => by
    rw [ReadFrom] at h
    obtain ⟨-, body, rfl, hmap⟩ := h
    rw [toBytes]
    exact (spells_entries map body hmap).bracket (Or.inr rfl)

theorem spells_items :
    ∀ (items : List BencodeValue) (text : Bytes), ItemsReadFrom items text →
      Spells (itemsToBytes items) text
  | [], text, h => by
    rw [ItemsReadFrom] at h
    subst h
    rw [itemsToBytes]
    exact spells_nil
  | v :: vs, text, h => by
    rw [ItemsReadFrom] at h
    obtain ⟨first, rest, rfl, hv, hvs⟩ := h
    rw [itemsToBytes]
    exact (spells_value v first hv).append (spells_items vs rest hvs)

theorem spells_entries : ∀ (map : List (Bytes × BencodeValue)) (text : Bytes),
      EntriesReadFrom map text → Spells (entriesToBytes map) text
  | [], text, h => by
    rw [EntriesReadFrom] at h
    subst h
    rw [entriesToBytes]
    exact spells_nil
  | (k, v) :: m, text, h => by
    rw [EntriesReadFrom] at h
    obtain ⟨key, value, rest, rfl, hkey, hv, hm⟩ := h
    rw [entriesToBytes]
    exact (spells_string hkey).append
      ((spells_value v value hv).append (spells_entries m rest hm))

end

theorem parseAll_respells {x : Bytes} {v : BencodeValue}
    (h : parseAll x = .ok v) : Respells v.toBytes x (numerals x) := by
  obtain ⟨ns, hscan, hre⟩ := spells_value v x (parseAll_iff.mp h).1
  have hscan := hscan []
  rw [append_nil] at hscan
  rw [hscan, numerals, append_nil]
  exact hre

/-- An accepted input is the encoding of the value read from it exactly when
every numeral in it is plain; and of the inputs read as one value at most one
is plain throughout. -/
theorem parseAll_canonical_iff (x : Bytes) (v : BencodeValue)
    (h : parseAll x = .ok v) :
    (v.toBytes = x ↔ ∀ n ∈ numerals x, n.Plain) ∧ ∀ y, parseAll y = .ok v →
        (∀ n ∈ numerals x, n.Plain) → (∀ n ∈ numerals y, n.Plain) → x = y := by
  refine ⟨(parseAll_respells h).eq_iff, ?_⟩
  intro y hy hx' hy'
  rw [← (parseAll_respells h).eq_iff.mpr hx',
    ← (parseAll_respells hy).eq_iff.mpr hy']

theorem parseAll_canonical_iff_five : parseAll (ascii "i5e") = .ok (.int 5) ∧
      (BencodeValue.toBytes (.int 5) = ascii "i5e" ↔
        ∀ n ∈ numerals (ascii "i5e"), n.Plain) := by
  have hread : parseAll (ascii "i5e") = .ok (.int 5) := rfl
  exact ⟨hread, (parseAll_canonical_iff _ _ hread).1⟩

/-- A plus sign in an integer and a leading zero in a length are accepted. -/
theorem parseAll_not_canonical : parseAll (ascii "i+5e") = .ok (.int 5) ∧
      BencodeValue.toBytes (.int 5) ≠ ascii "i+5e" ∧
      parseAll (ascii "i5e") = .ok (.int 5) ∧
      parseAll (ascii "05:hello") = .ok (.bytes (ascii "hello")) ∧
      BencodeValue.toBytes (.bytes (ascii "hello")) ≠ ascii "05:hello" := by
  refine ⟨rfl, by decide, rfl, ?_, by decide⟩
  have hstring : parseString (ascii "05:hello") = .ok (ascii "hello", []) :=
    parseString_eq_ok.mpr ⟨ascii "05", by decide, by decide, rfl, rfl⟩
  have hvalue : parse (ascii "05:hello") = parseBytes (ascii "05:hello") :=
    rfl
  rw [parseAll_eq_ok, hvalue, parseBytes, hstring]
  rfl

end RustyTorrent.Metainfo
