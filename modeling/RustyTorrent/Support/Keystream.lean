import Mathlib.Data.List.Basic

/-!
# Keystream ciphers

A keystream generator turns its state into a next state and one byte.  The
cipher combines each byte of a text with the next byte of the stream by
exclusive or.  Enciphering and deciphering are the same operation, and the
state after a text depends on its length only: two parties that started in one
state and processed the same number of bytes are in one state again.
-/

namespace RustyTorrent.Keystream

open List

variable {κ : Type} (next : κ → κ × UInt8)

/-- Process a text: the state after it, and its bytes combined with the
stream. -/
def apply : κ → List UInt8 → κ × List UInt8
  | c, [] => (c, [])
  | c, b :: bs =>
    let rest := apply (next c).1 bs
    (rest.1, (b ^^^ (next c).2) :: rest.2)

variable (c : κ) (b : List UInt8)

theorem apply_cons (b : UInt8) (bs : List UInt8) :
    apply next c (b :: bs) = ((apply next (next c).1 bs).1,
        (b ^^^ (next c).2) :: (apply next (next c).1 bs).2) := rfl

theorem apply_append (a b : List UInt8) :
    apply next c (a ++ b) = ((apply next (apply next c a).1 b).1,
        (apply next c a).2 ++ (apply next (apply next c a).1 b).2) := by
  induction a generalizing c with
  | nil => rfl
  | cons x a ih => rw [cons_append, apply_cons, ih, apply_cons]; rfl

@[simp] theorem length_apply : (apply next c b).2.length = b.length := by
  induction b generalizing c with
  | nil => rfl
  | cons x b ih => rw [apply_cons, length_cons, length_cons, ih]

theorem apply_take (n : ℕ) :
    (apply next c (b.take n)).2 = (apply next c b).2.take n := by
  induction b generalizing c n with
  | nil => rw [take_nil]; exact take_nil.symm
  | cons x b ih =>
    cases n with
    | zero => rfl
    | succ n => rw [take_succ_cons, apply_cons, ih]; rfl

theorem apply_fst_congr {a b : List UInt8} (h : a.length = b.length) :
    (apply next c a).1 = (apply next c b).1 := by
  induction a generalizing b c with
  | nil => rw [eq_nil_of_length_eq_zero h.symm]
  | cons x a ih =>
    cases b with
    | nil => cases h
    | cons y b => exact ih _ (Nat.succ_inj.mp h)

theorem apply_apply :
    apply next c (apply next c b).2 = ((apply next c b).1, b) := by
  induction b generalizing c with
  | nil => rfl
  | cons x b ih =>
    have hx : x ^^^ (next c).2 ^^^ (next c).2 = x := by
      rw [UInt8.xor_assoc, UInt8.xor_self, UInt8.xor_zero]
    rw [apply_cons, apply_cons, ih, hx]

end RustyTorrent.Keystream
