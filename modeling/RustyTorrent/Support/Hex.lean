import RustyTorrent.Support.Decimal

/-!
# Hexadecimal text over bytes

`text` is the lower-case form of a byte string, two digits a byte; `value`
reads one digit of either case.  Letters compare equal up to case through
`lower` and `upper`, so text in mixed case is covered.
-/

namespace RustyTorrent.Hex

open List

/-- The lower-case digit of a number below sixteen. -/
def digit (n : ℕ) : UInt8 :=
  if n < 10 then UInt8.ofNat (48 + n) else UInt8.ofNat (87 + n)

/-- The value of a digit of either case. -/
def value (c : UInt8) : Option ℕ :=
  if 48 ≤ c.toNat ∧ c.toNat ≤ 57 then some (c.toNat - 48)
  else if 97 ≤ c.toNat ∧ c.toNat ≤ 102 then some (10 + c.toNat - 97)
  else if 65 ≤ c.toNat ∧ c.toNat ≤ 70 then some (10 + c.toNat - 65)
  else none

/-- `to_ascii_lowercase`. -/
def lower (c : UInt8) : UInt8 :=
  if 65 ≤ c.toNat ∧ c.toNat ≤ 90 then UInt8.ofNat (c.toNat + 32) else c

/-- `to_ascii_uppercase`. -/
def upper (c : UInt8) : UInt8 :=
  if 97 ≤ c.toNat ∧ c.toNat ≤ 122 then UInt8.ofNat (c.toNat - 32) else c

/-- The two digits of a byte. -/
def pair (b : UInt8) : List UInt8 := [digit (b.toNat / 16), digit (b.toNat % 16)]

/-- The lower-case text of a byte string. -/
def text (bs : List UInt8) : List UInt8 := bs.flatMap pair

/-- The byte with the given digits. -/
def join (hi lo : ℕ) : UInt8 := UInt8.ofNat (16 * hi + lo)

theorem forall_byte {P : UInt8 → Prop} (h : ∀ n < 256, P (UInt8.ofNat n))
    (c : UInt8) : P c := by
  have hc := h c.toNat c.toNat_lt
  rwa [UInt8.ofNat_toNat] at hc

variable {c : UInt8} {n : ℕ} {s : List UInt8}

theorem value_lt (h : value c = some n) : n < 16 := by
  unfold value at h
  split_ifs at h with h₁ h₂ h₃ <;> cases h <;> omega

theorem value_digit (h : n < 16) : value (digit n) = some n := by
  revert n
  decide

theorem value_lower (c : UInt8) : value (lower c) = value c := by
  revert c
  exact forall_byte (by decide +kernel)

theorem lower_eq_digit (h : value c = some n) : lower c = digit n := by
  have hall : ∀ c, ∀ n ∈ value c, lower c = digit n :=
    forall_byte (by decide +kernel)
  exact hall c n h

theorem join_split (b : UInt8) : join (b.toNat / 16) (b.toNat % 16) = b := by
  rw [join, Nat.div_add_mod, UInt8.ofNat_toNat]

theorem toNat_join {hi lo : ℕ} (hhi : hi < 16) (hlo : lo < 16) :
    (join hi lo).toNat = 16 * hi + lo := by
  rw [join, UInt8.toNat_ofNat']
  omega

@[simp] theorem text_nil : text [] = [] := rfl

@[simp] theorem text_cons (b : UInt8) (bs : List UInt8) : text (b :: bs) =
      digit (b.toNat / 16) :: digit (b.toNat % 16) :: text bs := rfl

theorem length_text (bs : List UInt8) : (text bs).length = 2 * bs.length := by
  induction bs with
  | nil => rfl
  | cons b bs ih =>
    rw [text_cons, length_cons, length_cons, ih, length_cons]
    omega

theorem value_of_lower_eq_digit (hn : n < 16)
    (h : lower c = digit n) : value c = some n := by
  rw [← value_lower, h, value_digit hn]

/-! ## Complete escapes -/

/-- The text begins with two hexadecimal digits. -/
def TwoDigits (s : List UInt8) : Prop :=
  ∃ x y rest, s = x :: y :: rest ∧ (value x).isSome ∧ (value y).isSome

/-- Every percent sign has two hexadecimal digits behind it. -/
def WellEscaped (s : List UInt8) : Prop :=
  ∀ a b, s = a ++ asciiByte '%' :: b → TwoDigits b

theorem wellEscaped_nil : WellEscaped [] := by
  intro a b h
  simp at h

theorem wellEscaped_cons : WellEscaped (c :: s) ↔
      (c = asciiByte '%' → TwoDigits s) ∧ WellEscaped s := by
  constructor
  · intro h
    refine ⟨fun hc => h [] s (by rw [hc]; rfl), fun a b hs => ?_⟩
    exact h (c :: a) b (by rw [hs]; rfl)
  · rintro ⟨hc, hs⟩ a b hab
    cases a with
    | nil =>
      rw [nil_append, cons.injEq] at hab
      exact hab.2 ▸ hc hab.1
    | cons d a =>
      rw [cons_append, cons.injEq] at hab
      exact hs a b hab.2

theorem ne_percent_of_value (h : (value c).isSome) : c ≠ asciiByte '%' := by
  rintro rfl
  exact absurd h (by decide)

theorem WellEscaped.of_append {a : List UInt8} (h : WellEscaped (a ++ s)) :
    WellEscaped s := by
  intro x y hs
  exact h (a ++ x) y (by rw [hs, append_assoc])

end RustyTorrent.Hex
