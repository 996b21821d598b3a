import Mathlib.Algebra.Ring.Nat

/-!
# Sixteen-bit serial numbers

A sender numbers its packets `0, 1, 2, …`; the wire carries the last sixteen
bits.  `lift top s` is the latest position up to `top` with the bits `s`: it
undoes the truncation of every position less than `2 ^ 16` before `top`.

`serialLe` is the comparison of serial numbers by their distance.  It agrees
with the order of the positions as long as they are close
(`serialLe_of_le`, `serialLe_of_lt`).
-/

namespace RustyTorrent.Serial

/-- The serial number of a position. -/
def wrap (p : ℕ) : UInt16 := UInt16.ofNat p

/-- The latest position up to `top` that has the serial number `s`. -/
def lift (top : ℕ) (s : UInt16) : ℕ := top - (wrap top - s).toNat

/-- Comparison by distance: `b` is at most half the circle after `a`. -/
def serialLe (a b : UInt16) : Bool := decide ((b - a).toNat ≤ 32768)

@[simp]
theorem wrap_toNat (p : ℕ) : (wrap p).toNat = p % 65536 := by
  simp [wrap]

theorem wrap_add (p q : ℕ) : wrap (p + q) = wrap p + wrap q := by
  apply UInt16.toNat_inj.1
  simp [UInt16.toNat_add]

theorem wrap_succ (p : ℕ) : wrap (p + 1) = wrap p + 1 := wrap_add p 1

/-- A serial number is its distance after another one. -/
theorem eq_add_wrap (a lo : UInt16) : a = lo + wrap (a - lo).toNat := by
  apply UInt16.toNat_inj.1
  have hlo := lo.toNat_lt
  have hlt := a.toNat_lt
  simp only [UInt16.toNat_add, UInt16.toNat_sub, wrap_toNat]
  omega

theorem add_wrap_sub (lo : UInt16) {k : ℕ} (hk : k < 65536) :
    (lo + wrap k - lo).toNat = k := by
  have hlo := lo.toNat_lt
  rw [UInt16.toNat_sub, UInt16.toNat_add, wrap_toNat]
  omega

theorem add_wrap_inj {lo : UInt16} {j k : ℕ} (h : lo + wrap j = lo + wrap k)
    (hj : j < 65536) (hk : k < 65536) : j = k := by
  rw [← add_wrap_sub lo hj, h, add_wrap_sub lo hk]

variable {p q : ℕ}

theorem wrap_pred (h : 0 < p) : wrap (p - 1) = wrap p - 1 := by
  apply UInt16.toNat_inj.1
  simp only [wrap_toNat, UInt16.toNat_sub, UInt16.toNat_one]
  omega

theorem wrap_sub (h : q ≤ p) (hlt : p - q < 65536) :
    (wrap p - wrap q).toNat = p - q := by
  simp only [UInt16.toNat_sub, wrap_toNat]
  omega

theorem wrap_sub_of_lt (h : p < q) (hlt : q - p ≤ 65536) :
    (wrap p - wrap q).toNat = (65536 - (q - p)) % 65536 := by
  simp only [UInt16.toNat_sub, wrap_toNat]
  omega

theorem lift_wrap {top : ℕ} (h : p ≤ top) (hlt : top - p < 65536) :
    lift top (wrap p) = p := by
  rw [lift, wrap_sub h hlt]
  omega

/-- A lifted position has the bits it was lifted from, if any position up to
the top has them. -/
theorem wrap_lift {top : ℕ} (h : p ≤ top) :
    wrap (lift top (wrap p)) = wrap p := by
  apply UInt16.toNat_inj.1
  simp only [lift, UInt16.toNat_sub, wrap_toNat]
  omega

theorem serialLe_of_le (h : p ≤ q) (hle : q - p ≤ 32768) :
    serialLe (wrap p) (wrap q) = true := by
  rw [serialLe, wrap_sub h (by omega), decide_eq_true_eq]
  exact hle

theorem serialLe_of_lt (h : q < p) (hle : p - q ≤ 32767) :
    serialLe (wrap p) (wrap q) = false := by
  rw [serialLe, wrap_sub_of_lt h (by omega), decide_eq_false_iff_not]
  omega

/-- What the comparison says of a position that may be ahead by more than
half a circle: it is then taken for an old one. -/
theorem serialLe_of_lt_iff (h : q < p) (hle : p - q ≤ 65535) :
    serialLe (wrap p) (wrap q) = decide (32768 ≤ p - q) := by
  rw [serialLe, wrap_sub_of_lt h (by omega), decide_eq_decide]
  omega

/-- A position half a circle to a whole circle ahead is taken for an old
one. -/
theorem serialLe_of_far (h : q + 32768 ≤ p)
    (h' : p ≤ q + 65536) : serialLe (wrap p) (wrap q) = true := by
  rw [serialLe, decide_eq_true_eq, UInt16.toNat_sub, wrap_toNat, wrap_toNat]
  omega

/-- The two comparisons of a window enclose the values between its ends.  In
the window of one value they also let the value on the far side of the circle
pass, which is half a circle away from either end. -/
theorem serialLe_window_iff (lo a : UInt16) {n : ℕ} (hn : n < 2 ^ 15) :
    (serialLe lo a && serialLe a (lo + wrap n)) = true ↔
      (∃ k ≤ n, a = lo + wrap k) ∨ n = 0 ∧ a = lo + wrap 32768 := by
  have ha := eq_add_wrap a lo
  have hle : serialLe a (lo + wrap n) =
      decide ((65536 + n - (a - lo).toNat) % 65536 ≤ 32768) := by
    have hlo := lo.toNat_lt
    have hlt := a.toNat_lt
    rw [serialLe, decide_eq_decide]
    simp only [UInt16.toNat_add, UInt16.toNat_sub, wrap_toNat]
    omega
  have hd := (a - lo).toNat_lt
  rw [hle, serialLe, Bool.and_eq_true, decide_eq_true_eq, decide_eq_true_eq]
  constructor
  · rintro ⟨hfirst, hsecond⟩
    by_cases hin : (a - lo).toNat ≤ n
    · exact .inl ⟨_, hin, ha⟩
    · have hfar : (a - lo).toNat = 32768 := by omega
      exact .inr ⟨by omega, by rw [← hfar]; exact ha⟩
  · rintro (⟨k, hk, rfl⟩ | ⟨rfl, rfl⟩)
    all_goals
      rw [add_wrap_sub lo (by omega)]
      omega

end RustyTorrent.Serial
