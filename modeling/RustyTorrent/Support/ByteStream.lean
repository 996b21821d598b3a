import Mathlib.Tactic.Positivity
import Mathlib.Tactic.Ring

/-!
# Byte streams

Fixed-width big-endian numerals, and exact reads from a stream that arrives
in chunks.  A read takes what it needs from the chunks in order, whatever
their sizes: `readExact_of_le` and `readExact_of_lt` say what it returns in
terms of the concatenation of the chunks alone.
-/

namespace RustyTorrent

open List Nat

/-! ## Big-endian numerals -/

/-- `from_be_bytes`: the number a big-endian byte string denotes. -/
def ofBytesBe (b : List UInt8) : ℕ :=
  b.foldl (fun acc c => acc * 256 + c.toNat) 0

/-- `to_be_bytes` at a width in bytes; higher digits are cut off. -/
def toBytesBe : ℕ → ℕ → List UInt8
  | 0, _ => []
  | width + 1, n => UInt8.ofNat (n / 256 ^ width) :: toBytesBe width n

variable (width : ℕ) (b : List UInt8) (n : ℕ)

@[simp]
theorem length_toBytesBe : (toBytesBe width n).length = width := by
  induction width with
  | zero => rfl
  | succ width ih => simp [toBytesBe, ih]

theorem foldl_toBytesBe (acc : ℕ) :
    (toBytesBe width n).foldl (fun acc c => acc * 256 + c.toNat) acc =
      acc * 256 ^ width + n % 256 ^ width := by
  induction width generalizing acc with
  | zero => simp [toBytesBe, mod_one]
  | succ width ih =>
    have hdigit : (UInt8.ofNat (n / 256 ^ width)).toNat =
        n / 256 ^ width % 256 := by
      simp
    rw [toBytesBe, foldl_cons, ih, hdigit, pow_succ, mod_mul]
    ring

theorem ofBytesBe_toBytesBe :
    ofBytesBe (toBytesBe width n) = n % 256 ^ width := by
  simp [ofBytesBe, foldl_toBytesBe]

theorem foldl_bytesBe (acc : ℕ) :
    b.foldl (fun acc c => acc * 256 + c.toNat) acc =
      acc * 256 ^ b.length + ofBytesBe b := by
  induction b generalizing acc with
  | nil => simp [ofBytesBe]
  | cons c b ih =>
    rw [ofBytesBe, foldl_cons, foldl_cons, ih, ih, length_cons]
    ring

theorem ofBytesBe_cons (c : UInt8) (b : List UInt8) :
    ofBytesBe (c :: b) = c.toNat * 256 ^ b.length + ofBytesBe b := by
  rw [ofBytesBe, foldl_cons, foldl_bytesBe]
  ring

theorem ofBytesBe_lt : ofBytesBe b < 256 ^ b.length := by
  induction b with
  | nil => simp [ofBytesBe]
  | cons c b ih =>
    have hc : c.toNat ≤ 255 := le_of_lt_succ c.toNat_lt
    have hmul := mul_le_mul_right (256 ^ b.length) hc
    rw [ofBytesBe_cons, length_cons, pow_succ]
    omega

theorem toBytesBe_add_mul (k : ℕ) :
    toBytesBe width (k * 256 ^ width + n) = toBytesBe width n := by
  induction width generalizing k with
  | zero => rfl
  | succ width ih =>
    have hpos : 0 < 256 ^ width := by positivity
    have hsplit : k * 256 ^ (width + 1) + n =
        (k * 256) * 256 ^ width + n := by ring
    have hdigit : UInt8.ofNat (((k * 256) * 256 ^ width + n) /
        256 ^ width) = UInt8.ofNat (n / 256 ^ width) := by
      rw [add_comm, add_mul_div_right _ _ hpos]
      apply UInt8.toNat_inj.mp
      simp
    rw [toBytesBe, toBytesBe, hsplit, hdigit, ih]

theorem toBytesBe_ofBytesBe : toBytesBe b.length (ofBytesBe b) = b := by
  induction b with
  | nil => rfl
  | cons c b ih =>
    have hpos : 0 < 256 ^ b.length := by positivity
    have hdigit : (c.toNat * 256 ^ b.length + ofBytesBe b) /
        256 ^ b.length = c.toNat := by
      rw [add_comm, add_mul_div_right _ _ hpos,
        div_eq_of_lt (ofBytesBe_lt b), zero_add]
    rw [ofBytesBe_cons, length_cons, toBytesBe, hdigit,
      toBytesBe_add_mul, ih, UInt8.ofNat_toNat]

/-! ## Little-endian numerals -/

/-- `to_le_bytes` at a width in bytes. -/
def toBytesLe (width n : ℕ) : List UInt8 := (toBytesBe width n).reverse

/-- `from_le_bytes`. -/
def ofBytesLe (b : List UInt8) : ℕ := ofBytesBe b.reverse

@[simp]
theorem length_toBytesLe : (toBytesLe width n).length = width := by
  rw [toBytesLe, length_reverse, length_toBytesBe]

theorem ofBytesLe_toBytesLe :
    ofBytesLe (toBytesLe width n) = n % 256 ^ width := by
  rw [ofBytesLe, toBytesLe, reverse_reverse, ofBytesBe_toBytesBe]

/-! ## Exact reads -/

namespace ByteStream

variable {α : Type}

/-- `read_exact` on a stream given as the chunks the single reads return:
`none` when the stream ends first. -/
def readExact : ℕ → List (List α) → Option (List α × List (List α))
  | n, [] => if n = 0 then some ([], []) else none
  | n, c :: cs =>
    if n ≤ c.length then some (c.take n, c.drop n :: cs)
    else
      (readExact (n - c.length) cs).map fun r => (c ++ r.1, r.2)

variable {n : ℕ} {chunks : List (List α)} {b : List α}

theorem readExact_of_le (h : n ≤ chunks.flatten.length) :
    ∃ left, readExact n chunks = some (chunks.flatten.take n, left) ∧
      left.flatten = chunks.flatten.drop n := by
  induction chunks generalizing n with
  | nil =>
    have hn : n = 0 := by simpa using h
    exact ⟨[], by simp [readExact, hn], by simp⟩
  | cons c cs ih =>
    by_cases hc : n ≤ c.length
    · refine ⟨c.drop n :: cs, ?_, ?_⟩
      · simp [readExact, hc, take_append_of_le_length hc]
      · simp [drop_append_of_le_length hc]
    · have hle : n - c.length ≤ cs.flatten.length := by
        rw [flatten_cons, length_append] at h
        omega
      obtain ⟨left, hread, hleft⟩ := ih hle
      refine ⟨left, ?_, ?_⟩
      · rw [readExact, if_neg hc, hread, Option.map_some,
          flatten_cons, take_append,
          take_of_length_le (le_of_lt (not_le.1 hc))]
      · rw [hleft, flatten_cons, drop_append,
          drop_of_length_le (le_of_lt (not_le.1 hc)),
          nil_append]

theorem readExact_of_lt
    (h : chunks.flatten.length < n) : readExact n chunks = none := by
  induction chunks generalizing n with
  | nil =>
    have hn : n ≠ 0 := by
      simp only [flatten_nil, length_nil] at h
      omega
    simp [readExact, hn]
  | cons c cs ih =>
    rw [flatten_cons, length_append] at h
    have hc : ¬ n ≤ c.length := by omega
    have hlt : cs.flatten.length < n - c.length := by omega
    rw [readExact, if_neg hc, ih hlt, Option.map_none]

theorem readExact_append {rest : List α} (h : chunks.flatten = b ++ rest) :
    ∃ left, readExact b.length chunks = some (b, left) ∧
      left.flatten = rest := by
  have hle : b.length ≤ chunks.flatten.length := by
    rw [h, length_append]
    omega
  obtain ⟨left, hread, hleft⟩ := readExact_of_le hle
  rw [h, take_left] at hread
  rw [h, drop_left] at hleft
  exact ⟨left, hread, hleft⟩

theorem readExact_eq_some {left : List (List α)}
    (h : readExact n chunks = some (b, left)) :
    b.length = n ∧ chunks.flatten = b ++ left.flatten := by
  rcases lt_or_ge chunks.flatten.length n with hlt | hle
  · rw [readExact_of_lt hlt] at h
    cases h
  · obtain ⟨left', hread, hleft⟩ := readExact_of_le hle
    cases h.symm.trans hread
    rw [hleft, take_append_drop, length_take]
    exact ⟨min_eq_left hle, rfl⟩

theorem readExact_length {left : List (List α)}
    (h : readExact n chunks = some (b, left)) :
    b.length = n ∧ chunks.flatten.length = n + left.flatten.length := by
  obtain ⟨hlen, hsplit⟩ := readExact_eq_some h
  rw [hsplit, length_append, hlen]
  exact ⟨rfl, rfl⟩

end ByteStream

end RustyTorrent
