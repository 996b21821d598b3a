import Mathlib.Tactic.Positivity
import Mathlib.Tactic.Ring

/-!
# Numerals of a fixed length

A list of digits in a base, most significant first, denotes a number.  A list
of a given length is determined by its number (`spell_number`), so a numeral
can be written again in another base without loss.
-/

namespace RustyTorrent.Radix

open List Nat

/-- The number a list of digits denotes, most significant digit first. -/
def number (base : ℕ) (ds : List ℕ) : ℕ :=
  ds.foldl (fun n d => n * base + d) 0

/-- The last `len` digits of a number. -/
def spell (base : ℕ) : ℕ → ℕ → List ℕ
  | 0, _ => []
  | len + 1, n => spell base len (n / base) ++ [n % base]

variable {base : ℕ}

@[simp] theorem number_nil : number base [] = 0 := rfl

@[simp] theorem number_concat (ds : List ℕ) (d : ℕ) :
    number base (ds ++ [d]) = number base ds * base + d := by
  simp [number]

@[simp] theorem length_spell (len n : ℕ) : (spell base len n).length = len := by
  induction len generalizing n with
  | zero => rfl
  | succ len ih => simp [spell, ih]

theorem lt_of_mem_spell (hbase : 0 < base) {len n d : ℕ}
    (h : d ∈ spell base len n) : d < base := by
  induction len generalizing n with
  | zero => cases h
  | succ len ih =>
    rcases mem_append.mp h with h | h
    · exact ih h
    · rw [mem_singleton.mp h]
      exact mod_lt n hbase

theorem number_spell {len n : ℕ} (h : n < base ^ len) :
    number base (spell base len n) = n := by
  induction len generalizing n with
  | zero =>
    rw [pow_zero, lt_one_iff] at h
    rw [h]
    rfl
  | succ len ih =>
    have hdiv : n / base < base ^ len := by
      rw [pow_succ] at h
      exact Nat.div_lt_of_lt_mul (by rwa [Nat.mul_comm])
    rw [spell, number_concat, ih hdiv]
    exact div_add_mod' n base

theorem number_lt {ds : List ℕ} (h : ∀ d ∈ ds, d < base) :
    number base ds < base ^ ds.length := by
  induction ds using List.reverseRecOn with
  | nil => exact one_pos
  | append_singleton ds d ih =>
    have hd : d < base := h d (by simp)
    have hds := ih fun e he => h e (by simp [he])
    rw [number_concat, length_append, length_singleton, pow_succ]
    calc number base ds * base + d < number base ds * base + base := by omega
      _ = (number base ds + 1) * base := by ring
      _ ≤ base ^ ds.length * base := mul_le_mul_right base hds

theorem spell_number {ds : List ℕ} (h : ∀ d ∈ ds, d < base) :
    spell base ds.length (number base ds) = ds := by
  induction ds using List.reverseRecOn with
  | nil => rfl
  | append_singleton ds d ih =>
    have hd : d < base := h d (by simp)
    have hdiv : (number base ds * base + d) / base = number base ds := by
      rw [mul_comm, mul_add_div (by omega), div_eq_of_lt hd, add_zero]
    have hmod : (number base ds * base + d) % base = d := by
      rw [mul_comm, mul_add_mod, mod_eq_of_lt hd]
    rw [number_concat, length_append, length_singleton, spell,
      hdiv, hmod, ih fun e he => h e (by simp [he])]

theorem number_inj {ds es : List ℕ} (hds : ∀ d ∈ ds, d < base)
    (hes : ∀ d ∈ es, d < base) (hlen : ds.length = es.length)
    (h : number base ds = number base es) : ds = es := by
  rw [← spell_number hds, ← spell_number hes, hlen, h]

/-! ## Regrouping bits -/

/-- The digits `ds` of `w` bits each have been packed into the octets
`written`, and `bits` bits are left over. -/
structure Regrouped (w : ℕ) (ds written : List ℕ) (bits : ℕ) : Prop where
  few : bits < 8
  count : 8 * written.length + bits = w * ds.length
  number_eq : number 256 written = number (2 ^ w) ds / 2 ^ bits

namespace Regrouped

variable {w bits d : ℕ} {ds written : List ℕ}

theorem nil (w : ℕ) : Regrouped w [] [] 0 :=
  ⟨by decide, rfl, by simp⟩

theorem div_concat (hd : d < 2 ^ w) (h : Regrouped w ds written bits) :
    number (2 ^ w) (ds ++ [d]) / 2 ^ (bits + w) = number 256 written := by
  have hdiv : (number (2 ^ w) ds * 2 ^ w + d) / 2 ^ w = number (2 ^ w) ds := by
    rw [Nat.mul_comm, Nat.mul_add_div (by positivity), Nat.div_eq_of_lt hd,
      Nat.add_zero]
  rw [number_concat, Nat.add_comm bits w, pow_add, ← Nat.div_div_eq_div_mul,
    hdiv, h.number_eq]

theorem keep (h : Regrouped w ds written bits) (hd : d < 2 ^ w)
    (hsmall : bits + w < 8) : Regrouped w (ds ++ [d]) written (bits + w) where
  few := hsmall
  count := by
    have := h.count
    rw [length_append, length_singleton, mul_add]
    omega
  number_eq := (h.div_concat hd).symm

theorem emit (h : Regrouped w ds written bits) (hd : d < 2 ^ w)
    (hw : w ≤ 8) (hlarge : 8 ≤ bits + w) :
    Regrouped w (ds ++ [d])
      (written ++ [number (2 ^ w) (ds ++ [d]) / 2 ^ (bits + w - 8) % 256])
      (bits + w - 8) where
  few := by
    have := h.few
    omega
  count := by
    have := h.count
    rw [length_append, length_singleton, length_append,
      length_singleton, mul_add, mul_add]
    omega
  number_eq := by
    have hhigh : number (2 ^ w) (ds ++ [d]) / 2 ^ (bits + w - 8) / 256 =
        number 256 written := by
      have hpow : 2 ^ (bits + w - 8) * 256 = 2 ^ (bits + w) := by
        rw [show 256 = 2 ^ 8 from rfl, ← pow_add, Nat.sub_add_cancel hlarge]
      rw [Nat.div_div_eq_div_mul, hpow, h.div_concat hd]
    rw [number_concat, ← hhigh]
    exact div_add_mod' _ 256

end Regrouped

end RustyTorrent.Radix
