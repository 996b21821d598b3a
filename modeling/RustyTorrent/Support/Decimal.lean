import Mathlib.Data.Nat.Digits.Lemmas

/-!
# Decimal numerals over bytes

Printing and reading decimal integers the way the Rust standard library does.
`decimal` is `to_string`; `readUnsigned` and `readSigned` are the two
instances of `from_str_radix(10)`: they accept an optional plus sign and any
number of leading zeros, so several spellings denote one number.  `PlainNat`
singles out the spelling that `decimal` prints, and `readUnsigned_eq_decimal`
says that it is the only accepted spelling of that form.
-/

namespace RustyTorrent

open List Nat

/-- The byte of an ASCII character. -/
def asciiByte (c : Char) : UInt8 := c.toUInt8

/-- The bytes of an ASCII string literal. -/
def ascii (s : String) : List UInt8 := s.toList.map asciiByte

namespace Decimal

/-- Why a numeral was refused (`IntErrorKind`). -/
inductive IntErrorKind where
  | empty
  | invalidDigit
  | posOverflow
  | negOverflow
  deriving DecidableEq, Repr

/-- The text of a `ParseIntError`. -/
def IntErrorKind.text : IntErrorKind → String
  | .empty => "cannot parse integer from empty string"
  | .invalidDigit => "invalid digit found in string"
  | .posOverflow => "number too large to fit in target type"
  | .negOverflow => "number too small to fit in target type"

/-- The digit byte of a number below ten. -/
def digitByte (d : ℕ) : UInt8 := UInt8.ofNat (48 + d)

/-- `to_string` of a natural number. -/
def decimal (n : ℕ) : List UInt8 :=
  if n = 0 then [digitByte 0] else (Nat.digits 10 n).reverse.map digitByte

/-- `to_string` of an integer. -/
def decimalInt (i : ℤ) : List UInt8 :=
  if i < 0 then asciiByte '-' :: decimal i.natAbs else decimal i.natAbs

/-- The value of a digit byte. -/
def digitValue (c : UInt8) : Option ℕ :=
  if 48 ≤ c.toNat ∧ c.toNat ≤ 57 then some (c.toNat - 48) else none

/-- The checked accumulation loop of `from_str_radix`: each step first demands
a digit and then that the accumulated magnitude stays within `bound`. -/
def readDigits (bound : ℕ) (overflow : IntErrorKind) (acc : ℕ) :
    List UInt8 → Except IntErrorKind ℕ
  | [] => .ok acc
  | c :: rest =>
    match digitValue c with
    | none => .error .invalidDigit
    | some d =>
      if acc * 10 + d ≤ bound
      then readDigits bound overflow (acc * 10 + d) rest
      else .error overflow

/-- `from_str` of an unsigned type with largest value `bound`.  A minus sign
is not stripped, so it ends as an invalid digit. -/
def readUnsigned (bound : ℕ) (s : List UInt8) : Except IntErrorKind ℕ :=
  if s = [] then .error .empty
  else if s = [asciiByte '+'] ∨ s = [asciiByte '-'] then
    .error .invalidDigit
  else if s.head? = some (asciiByte '+') then
    readDigits bound .posOverflow 0 s.tail
  else readDigits bound .posOverflow 0 s

/-- `from_str` of a signed type with values from `-low` to `high`. -/
def readSigned (low high : ℕ) (s : List UInt8) : Except IntErrorKind ℤ :=
  if s = [] then .error .empty
  else if s = [asciiByte '+'] ∨ s = [asciiByte '-'] then
    .error .invalidDigit
  else if s.head? = some (asciiByte '+') then
    (readDigits high .posOverflow 0 s.tail).map fun n : ℕ => (n : ℤ)
  else if s.head? = some (asciiByte '-') then
    (readDigits low .negOverflow 0 s.tail).map fun n : ℕ => -(n : ℤ)
  else (readDigits high .posOverflow 0 s).map fun n : ℕ => (n : ℤ)

/-- A spelling without a plus sign and without a superfluous leading zero. -/
def PlainNat (s : List UInt8) : Prop :=
  s.head? ≠ some (asciiByte '+') ∧
    (s.length ≤ 1 ∨ s.head? ≠ some (asciiByte '0'))

instance (s : List UInt8) : Decidable (PlainNat s) :=
  inferInstanceAs (Decidable (_ ∧ _))

/-! ## Digit strings -/

/-- A string of digit bytes. -/
def IsDigits (s : List UInt8) : Prop :=
  ∀ c ∈ s, 48 ≤ c.toNat ∧ c.toNat ≤ 57

/-- The number spelled by a digit string after `acc`. -/
def digitsValue (acc : ℕ) (s : List UInt8) : ℕ :=
  s.foldl (fun a c => a * 10 + (c.toNat - 48)) acc

theorem le_digitsValue (acc : ℕ) (s : List UInt8) :
    acc ≤ digitsValue acc s := by
  induction s generalizing acc with
  | nil => exact le_refl _
  | cons c s ih =>
    have h := ih (acc * 10 + (c.toNat - 48))
    simp only [digitsValue, foldl_cons] at h ⊢
    omega

variable {bound : ℕ} {s : List UInt8} {c : UInt8}

theorem readDigits_eq_ok {overflow : IntErrorKind}
    {acc n : ℕ} (hacc : acc ≤ bound) :
    readDigits bound overflow acc s = .ok n ↔
      IsDigits s ∧ digitsValue acc s = n ∧ n ≤ bound := by
  induction s generalizing acc with
  | nil =>
    simp only [readDigits, Except.ok.injEq, IsDigits, digitsValue,
      foldl_nil, not_mem_nil, false_implies, implies_true,
      true_and]
    constructor
    · rintro rfl
      exact ⟨rfl, hacc⟩
    · exact fun h => h.1
  | cons c s ih =>
    by_cases hc : 48 ≤ c.toNat ∧ c.toNat ≤ 57
    · simp only [readDigits, digitValue, if_pos hc]
      by_cases hb : acc * 10 + (c.toNat - 48) ≤ bound
      · rw [if_pos hb, ih hb]
        simp [IsDigits, digitsValue, hc]
      · rw [if_neg hb]
        constructor
        · intro h
          cases h
        · rintro ⟨-, hval, hle⟩
          have hstep :=
            le_digitsValue (acc * 10 + (c.toNat - 48)) s
          simp only [digitsValue, foldl_cons] at hval hstep
          omega
    · simp only [readDigits, digitValue, if_neg hc]
      constructor
      · intro h
        cases h
      · rintro ⟨hdigits, -⟩
        exact absurd (hdigits c (by simp)) hc

theorem exceptMap_eq_ok {ε α β : Type*} {f : α → β} {r : Except ε α}
    {b : β} : r.map f = .ok b ↔ ∃ a, r = .ok a ∧ f a = b := by
  cases r with
  | ok | error => simp [Except.map]

theorem toNat_digitByte {d : ℕ} (hd : d < 10) :
    (digitByte d).toNat = 48 + d := by
  simp only [digitByte, UInt8.toNat_ofNat']
  omega

theorem digitByte_toNat (hc : 48 ≤ c.toNat ∧ c.toNat ≤ 57) :
    digitByte (c.toNat - 48) = c := by
  apply UInt8.toNat_inj.mp
  rw [toNat_digitByte (by omega)]
  omega

theorem isDigits_map_digitByte {ds : List ℕ} (hds : ∀ d ∈ ds, d < 10) :
    IsDigits (ds.map digitByte) := by
  intro c hc
  obtain ⟨d, hd, rfl⟩ := mem_map.mp hc
  have hlt := hds d hd
  rw [toNat_digitByte hlt]
  omega

/-- Most-significant-first digits have the value Mathlib's `ofDigits` gives
to the reversed list. -/
theorem digitsValue_map_digitByte {ds : List ℕ} (hds : ∀ d ∈ ds, d < 10)
    (acc : ℕ) :
    digitsValue acc (ds.map digitByte) =
      acc * 10 ^ ds.length + ofDigits 10 ds.reverse := by
  induction ds generalizing acc with
  | nil => simp [digitsValue]
  | cons d ds ih =>
    have hd : d < 10 := hds d (by simp)
    have hrest := ih (fun e he => hds e (by simp [he])) (acc * 10 + d)
    have hcons : digitsValue acc ((d :: ds).map digitByte) =
        digitsValue (acc * 10 + d) (ds.map digitByte) := by
      simp [digitsValue, toNat_digitByte hd]
    rw [hcons, hrest]
    simp only [reverse_cons, ofDigits_append, length_cons,
      length_reverse, ofDigits_singleton, pow_succ]
    ring

variable (n : ℕ)

theorem decimal_digits :
    ∃ ds : List ℕ, decimal n = ds.map digitByte ∧ ds ≠ [] ∧
      (∀ d ∈ ds, d < 10) ∧ ofDigits 10 ds.reverse = n := by
  by_cases hn : n = 0
  · subst hn
    exact ⟨[0], by simp [decimal], by simp, by simp, by simp⟩
  · refine ⟨(digits 10 n).reverse, by simp [decimal, hn], ?_, ?_, ?_⟩
    · simpa using digits_ne_nil_iff_ne_zero.mpr hn
    · intro d hd
      exact digits_lt_base (by norm_num) (mem_reverse.mp hd)
    · rw [reverse_reverse, ofDigits_digits]

theorem decimal_ne_nil : decimal n ≠ [] := by
  obtain ⟨ds, hds, hne, -⟩ := decimal_digits n
  simpa [hds] using hne

theorem isDigits_decimal : IsDigits (decimal n) := by
  obtain ⟨ds, hds, -, hlt, -⟩ := decimal_digits n
  rw [hds]
  exact isDigits_map_digitByte hlt

theorem digitsValue_decimal : digitsValue 0 (decimal n) = n := by
  obtain ⟨ds, hds, -, hlt, hval⟩ := decimal_digits n
  rw [hds, digitsValue_map_digitByte hlt, hval]
  simp

/-- A digit string without a superfluous leading zero is the printed form of
its value. -/
theorem eq_decimal_of_isDigits (hs : IsDigits s) (hne : s ≠ [])
    (hlead : s.length ≤ 1 ∨ s.head? ≠ some (asciiByte '0')) :
    s = decimal (digitsValue 0 s) := by
  obtain ⟨ds, hds, hlt⟩ :
      ∃ ds : List ℕ, s = ds.map digitByte ∧ ∀ d ∈ ds, d < 10 := by
    refine ⟨s.map fun c => c.toNat - 48, ?_, ?_⟩
    · rw [map_map]
      conv_lhs => rw [← map_id s]
      apply map_congr_left
      intro c hc
      exact (digitByte_toNat (hs c hc)).symm
    · intro d hd
      obtain ⟨c, hc, rfl⟩ := mem_map.mp hd
      have := hs c hc
      omega
  subst hds
  have hdne : ds ≠ [] := by simpa using hne
  rw [digitsValue_map_digitByte hlt, zero_mul, zero_add]
  by_cases hzero : ds.head hdne = 0
  · -- A leading zero is only allowed when the string is just `0`.
    have hsingle : ds = [0] := by
      cases ds with
      | nil => exact absurd rfl hdne
      | cons d ds =>
        simp only [head_cons] at hzero
        subst hzero
        rcases hlead with hlen | hhead
        · simpa using hlen
        · exact absurd (by simp [digitByte, asciiByte]; rfl) hhead
    subst hsingle
    simp [decimal]
  · have hdigits : digits 10 (ofDigits 10 ds.reverse) =
        ds.reverse := by
      apply digits_ofDigits 10 (by norm_num)
      · intro d hd
        exact hlt d (mem_reverse.mp hd)
      · intro h
        rw [getLast_reverse]
        exact hzero
    have hvalue : ofDigits 10 ds.reverse ≠ 0 := by
      intro h
      rw [h, digits_zero] at hdigits
      exact hdne (reverse_eq_nil_iff.mp hdigits.symm)
    rw [decimal, if_neg hvalue, hdigits, reverse_reverse]

/-! ## Printing, then reading -/

theorem IsDigits.head?_ne (hs : IsDigits s)
    (hc : ¬ (48 ≤ c.toNat ∧ c.toNat ≤ 57)) : s.head? ≠ some c := by
  intro h
  exact hc (hs c (mem_of_mem_head? h))

theorem IsDigits.ne_singleton (hs : IsDigits s)
    (hc : ¬ (48 ≤ c.toNat ∧ c.toNat ≤ 57)) : s ≠ [c] := by
  rintro rfl
  exact hs.head?_ne hc rfl

theorem asciiByte_plus_not_digit :
    ¬ (48 ≤ (asciiByte '+').toNat ∧ (asciiByte '+').toNat ≤ 57) := by
  decide

theorem asciiByte_minus_not_digit :
    ¬ (48 ≤ (asciiByte '-').toNat ∧ (asciiByte '-').toNat ≤ 57) := by
  decide

theorem readUnsigned_of_isDigits (hs : IsDigits s) (hne : s ≠ []) :
    readUnsigned bound s = readDigits bound .posOverflow 0 s := by
  have hplus := hs.ne_singleton asciiByte_plus_not_digit
  have hminus := hs.ne_singleton asciiByte_minus_not_digit
  have hhead := hs.head?_ne asciiByte_plus_not_digit
  simp [readUnsigned, hne, hplus, hminus, hhead]

theorem readUnsigned_decimal {n : ℕ} (hn : n ≤ bound) :
    readUnsigned bound (decimal n) = .ok n := by
  rw [readUnsigned_of_isDigits (isDigits_decimal n) (decimal_ne_nil n),
    readDigits_eq_ok (zero_le _)]
  exact ⟨isDigits_decimal n, digitsValue_decimal n, hn⟩

theorem readSigned_decimalInt {low high : ℕ} {i : ℤ} (hlow : -(low : ℤ) ≤ i)
    (hhigh : i ≤ high) : readSigned low high (decimalInt i) = .ok i := by
  have hdigits := isDigits_decimal i.natAbs
  by_cases hneg : i < 0
  · have hread : readDigits low .negOverflow 0 (decimal i.natAbs) =
        .ok i.natAbs := by
      rw [readDigits_eq_ok (zero_le _)]
      exact ⟨hdigits, digitsValue_decimal _, by omega⟩
    have hsign : asciiByte '-' ≠ asciiByte '+' := by decide
    simp only [readSigned, decimalInt, if_pos hneg, reduceCtorEq,
      if_false, cons.injEq, decimal_ne_nil, and_false, or_self,
      head?_cons, Option.some.injEq, hsign, if_true,
      tail_cons, hread, Except.map]
    exact congrArg Except.ok (by omega)
  · have hread : readDigits high .posOverflow 0 (decimal i.natAbs) =
        .ok i.natAbs := by
      rw [readDigits_eq_ok (zero_le _)]
      exact ⟨hdigits, digitsValue_decimal _, by omega⟩
    have hplus := hdigits.ne_singleton asciiByte_plus_not_digit
    have hminus := hdigits.ne_singleton asciiByte_minus_not_digit
    have hheadPlus := hdigits.head?_ne asciiByte_plus_not_digit
    have hheadMinus := hdigits.head?_ne asciiByte_minus_not_digit
    simp only [readSigned, decimalInt, if_neg hneg, decimal_ne_nil,
      if_false, hplus, hminus, or_self, hheadPlus, hheadMinus, hread,
      Except.map]
    exact congrArg Except.ok (by omega)

/-! ## Reading, then printing -/

theorem decimal_plain : PlainNat (decimal n) := by
  refine ⟨(isDigits_decimal n).head?_ne asciiByte_plus_not_digit, ?_⟩
  by_cases hn : n = 0
  · left
    simp [decimal, hn]
  · right
    intro hhead
    have hlast := getLast_digit_ne_zero 10 hn
    rw [decimal, if_neg hn, head?_map, Option.map_eq_some_iff] at hhead
    obtain ⟨d, hd, hzero⟩ := hhead
    have hmem : d ∈ digits 10 n :=
      mem_reverse.mp (mem_of_mem_head? hd)
    have hdlt : d < 10 := digits_lt_base (by norm_num) hmem
    have hdzero : d = 0 := by
      have := congrArg UInt8.toNat hzero
      rw [toNat_digitByte hdlt] at this
      have h0 : (asciiByte '0').toNat = 48 := by decide
      omega
    rw [head?_reverse, getLast?_eq_getLast_of_ne_nil
      (digits_ne_nil_iff_ne_zero.mpr hn), Option.some.injEq] at hd
    exact hlast (hd.trans hdzero)

theorem decimal_length_le (hs : IsDigits s) (hne : s ≠ []) :
    (decimal (digitsValue 0 s)).length ≤ s.length := by
  induction s with
  | nil => exact absurd rfl hne
  | cons c s ih =>
    by_cases hlead : (c :: s).length ≤ 1 ∨ (c :: s).head? ≠ some (asciiByte '0')
    · rw [← eq_decimal_of_isDigits hs hne hlead]
    · -- A leading zero changes the length but not the value.
      rw [not_or, not_not] at hlead
      obtain ⟨hlen, hhead⟩ := hlead
      simp only [head?_cons, Option.some.injEq] at hhead
      subst hhead
      have hsne : s ≠ [] := by
        rintro rfl
        simp at hlen
      have hvalue : digitsValue 0 (asciiByte '0' :: s) =
          digitsValue 0 s := by
        rfl
      have hrest := ih (fun d hd => hs d (by simp [hd])) hsne
      rw [hvalue, length_cons]
      omega

theorem readUnsigned_eq_ok {n : ℕ} (h : readUnsigned bound s = .ok n) :
    ∃ ds, IsDigits ds ∧ ds ≠ [] ∧ digitsValue 0 ds = n ∧
      (s = ds ∨ s = asciiByte '+' :: ds) := by
  cases s with
  | nil => simp [readUnsigned] at h
  | cons c t =>
    simp only [readUnsigned, reduceCtorEq, if_false, head?_cons,
      Option.some.injEq, tail_cons] at h
    split_ifs at h with hsingle hplus
    · obtain ⟨hdigits, hvalue, -⟩ := (readDigits_eq_ok (zero_le _)).mp h
      refine ⟨t, hdigits, ?_, hvalue, .inr (by rw [hplus])⟩
      rintro rfl
      exact hsingle (by simp [hplus])
    · obtain ⟨hdigits, hvalue, -⟩ := (readDigits_eq_ok (zero_le _)).mp h
      exact ⟨c :: t, hdigits, cons_ne_nil c t, hvalue, .inl rfl⟩

/-- Among the accepted spellings of a number, the printed one is the one
without plus sign and leading zeros. -/
theorem readUnsigned_eq_decimal {n : ℕ} (h : readUnsigned bound s = .ok n) :
    decimal n = s ↔ PlainNat s := by
  constructor
  · rintro rfl
    exact decimal_plain n
  · rintro ⟨hplus, hlead⟩
    obtain ⟨ds, hdigits, hne, rfl, rfl | rfl⟩ := readUnsigned_eq_ok h
    · exact (eq_decimal_of_isDigits hdigits hne hlead).symm
    · exact absurd rfl hplus

theorem readSigned_eq_ok {low high : ℕ} {n : ℤ}
    (h : readSigned low high s = .ok n) :
    (-(low : ℤ) ≤ n ∧ n ≤ high) ∧ ∃ ds, IsDigits ds ∧ ds ≠ [] ∧
        (s = ds ∧ n = digitsValue 0 ds ∨
          s = asciiByte '+' :: ds ∧ n = digitsValue 0 ds ∨
          s = asciiByte '-' :: ds ∧ n = -(digitsValue 0 ds : ℤ)) := by
  cases s with
  | nil => simp [readSigned] at h
  | cons c t =>
    simp only [readSigned, reduceCtorEq, if_false, head?_cons,
      Option.some.injEq, tail_cons] at h
    split_ifs at h with hsingle hplus hminus
    all_goals
      obtain ⟨m, hm, rfl⟩ := exceptMap_eq_ok.mp h
      obtain ⟨hdigits, hvalue, hle⟩ := (readDigits_eq_ok (zero_le _)).mp hm
      refine ⟨by omega, ?_⟩
    · refine ⟨t, hdigits, ?_, by simp [hplus, hvalue]⟩
      rintro rfl
      exact hsingle (by simp [hplus])
    · refine ⟨t, hdigits, ?_, by simp [hminus, hvalue]⟩
      rintro rfl
      exact hsingle (by simp [hminus])
    · exact ⟨c :: t, hdigits, cons_ne_nil c t, by simp [hvalue]⟩

end Decimal

end RustyTorrent
