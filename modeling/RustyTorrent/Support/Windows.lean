import Mathlib.Tactic.Ring

/-!
# Windows of a sequence

Overwriting part of a sequence in place, and reading a window of it.  A window
that does not meet the overwritten part reads the same before and after
(`window_put_of_disjoint`); equal slots behind a header are such windows
(`slot_disjoint`).
-/

namespace RustyTorrent.Windows

open List Nat

variable {α : Type*}

/-- `ys` written over `xs` from position `off` on. -/
def put (xs : List α) (off : ℕ) (ys : List α) : List α :=
  xs.take off ++ ys ++ xs.drop (off + ys.length)

/-- `n` members from position `off` on. -/
def window (xs : List α) (off n : ℕ) : List α := (xs.drop off).take n

variable {xs ys : List α} {off n : ℕ}

theorem length_put (h : off + ys.length ≤ xs.length) :
    (put xs off ys).length = xs.length := by
  simp only [put, length_append, length_take, length_drop]
  omega

theorem getElem?_put (h : off + ys.length ≤ xs.length) (k : ℕ) :
    (put xs off ys)[k]? =
      if off ≤ k ∧ k < off + ys.length then ys[k - off]? else xs[k]? := by
  have htake : (xs.take off).length = off := by
    rw [length_take]
    omega
  rw [put, append_assoc]
  by_cases hbefore : k < off
  · rw [if_neg (by omega), getElem?_append_left (by omega),
      getElem?_take_of_lt hbefore]
  · rw [getElem?_append_right (by omega), htake]
    by_cases hin : k < off + ys.length
    · rw [if_pos (by omega), getElem?_append_left (by omega)]
    · rw [if_neg (by omega), getElem?_append_right (by omega),
        getElem?_drop]
      congr 1
      omega

theorem getElem?_window (xs : List α) (off n k : ℕ) :
    (window xs off n)[k]? = if k < n then xs[off + k]? else none := by
  rw [window, getElem?_take, getElem?_drop]

section

variable (h : off + ys.length ≤ xs.length)

include h

theorem window_put_self : window (put xs off ys) off ys.length = ys := by
  apply ext_getElem?
  intro k
  rw [getElem?_window, getElem?_put h]
  split_ifs with hk hin
  · rw [Nat.add_sub_cancel_left]
  · omega
  · rw [getElem?_eq_none (by omega)]

theorem window_put_of_disjoint {a : ℕ} (hd : a + n ≤ off ∨ off + ys.length ≤ a)
    :
    window (put xs off ys) a n = window xs a n := by
  apply ext_getElem?
  intro k
  rw [getElem?_window, getElem?_window, getElem?_put h]
  split_ifs with hk hin
  · omega
  · rfl
  · rfl

theorem put_put_append {zs : List α} :
    put (put xs off ys) (off + ys.length) zs = put xs off (ys ++ zs) := by
  have hfront : (xs.take off ++ ys).length = off + ys.length := by
    rw [length_append, length_take]
    omega
  rw [put, put, take_left' hfront, ← drop_drop, drop_left' hfront, drop_drop,
    put, length_append, append_assoc _ ys, add_assoc]

end

theorem window_append_left {m : ℕ} :
    (window xs off (n + m)).take n = window xs off n := by
  rw [window, window, take_take, min_eq_left (le_add_right n m)]

theorem window_append_right {m : ℕ} :
    (window xs off (n + m)).drop n = window xs (off + n) m := by
  rw [window, window, drop_take, drop_drop, Nat.add_sub_cancel_left]

/-! ## Slots -/

theorem slot_disjoint (header size : ℕ) {i j : ℕ} (hij : i ≠ j) :
    header + j * size + size ≤ header + i * size ∨
      header + i * size + size ≤ header + j * size := by
  rcases lt_or_gt_of_ne hij with h | h
  · have hmul : (i + 1) * size ≤ j * size := mul_le_mul_right size h
    rw [succ_mul] at hmul
    exact .inr (by omega)
  · have hmul : (j + 1) * size ≤ i * size := mul_le_mul_right size h
    rw [succ_mul] at hmul
    exact .inl (by omega)

theorem slot_le (header size : ℕ) {i : ℕ} (hi : i < n) :
    header + i * size + size ≤ header + n * size := by
  have hmul : (i + 1) * size ≤ n * size := mul_le_mul_right size hi
  rw [succ_mul] at hmul
  omega

end RustyTorrent.Windows
