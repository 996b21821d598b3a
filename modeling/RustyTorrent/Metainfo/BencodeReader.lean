import RustyTorrent.Metainfo.Bencode

/-!
# What the bencode reader accepts

One specification for each function that reads a leaf: the exact shape of the
inputs on which `parse_int` and `parse_bytes` succeed, and that neither
unwinds.
-/

namespace RustyTorrent.Metainfo

open Decimal Outcome List Bool Utf8

/-! ## Splitting at a byte -/

variable {input post rest : Bytes} {v : BencodeValue}

theorem position_split {c : UInt8} {k : ℕ} (h : position c input = some k) :
    ∃ pre post, input = pre ++ c :: post ∧ c ∉ pre := by
  induction input generalizing k with
  | nil => cases h
  | cons d input ih =>
    by_cases hd : d = c
    · exact ⟨[], input, by rw [hd]; rfl, not_mem_nil⟩
    · simp only [position, findIdx?_cons, hd, decide_false,
        false_eq_true, if_false, Option.map_eq_some_iff] at h
      obtain ⟨j, hj, -⟩ := h
      obtain ⟨pre, post, rfl, hnot⟩ := ih hj
      refine ⟨d :: pre, post, rfl, ?_⟩
      simp [hnot, Ne.symm hd]

theorem position_append {c : UInt8} {pre : Bytes} (h : c ∉ pre) :
    position c (pre ++ c :: post) = some pre.length := by
  have hnone : pre.findIdx? (· = c) = none := by
    rw [findIdx?_eq_none_iff]
    exact fun d hd => decide_eq_false (ne_of_mem_of_not_mem hd h)
  simp [position, findIdx?_append, findIdx?_cons, hnone]

theorem utf8Or_eq_ok {label : String} {b s : Bytes} :
    utf8Or label b = .ok s ↔ fromUtf8 b = .ok s := by
  unfold utf8Or
  split
  next h => simp [h]
  next h => simp [h, bencodeErr]

@[simp] theorem utf8Or_ne_panic (label : String) (b : Bytes) :
    utf8Or label b ≠ .panic := by
  unfold utf8Or
  split
  · simp
  · simp [bencodeErr]

theorem numberOr_eq_ok {α : Type} {label : String} {r : Except IntErrorKind α}
    {n : α} : numberOr label r = .ok n ↔ r = .ok n := by
  cases r with
  | ok m => simp [numberOr]
  | error e => simp [numberOr, bencodeErr]

@[simp] theorem numberOr_ne_panic {α : Type} (label : String)
    (r : Except IntErrorKind α) : numberOr label r ≠ .panic := by
  cases r with
  | ok m => simp [numberOr]
  | error e => simp [numberOr, bencodeErr]

/-! ## Byte strings -/

theorem parseString_split {pre : Bytes} (h : asciiByte ':' ∉ pre) :
    parseString (pre ++ asciiByte ':' :: post) = do
      let lenStr ← utf8Or "len" pre
      let len ← numberOr "byte string len" (readUnsigned (2 ^ 64 - 1) lenStr)
      check (decide (len ≤ post.length)) (.bencode
          s!"byte string too short: need {len} have {post.length}")
      let val ← sliceTo len post
      let rest ← sliceFrom len post
      return (val, rest) := by
  have htake : (pre ++ asciiByte ':' :: post).take pre.length = pre := by
    simp
  have hdrop : (pre ++ asciiByte ':' :: post).drop (pre.length + 1) =
      post := by
    simp
  simp only [parseString, position_append h, ofOption, ok_bind]
  rw [sliceTo_of_le (by simp), sliceFrom_of_le (by simp), htake, hdrop]
  rfl

/-- `parse_bytes` succeeds exactly on a length numeral, a colon, and that
many bytes. -/
theorem parseString_eq_ok {val : Bytes} : parseString input = .ok (val, rest) ↔
      ∃ pre, input = pre ++ asciiByte ':' :: (val ++ rest) ∧
        asciiByte ':' ∉ pre ∧ fromUtf8 pre = .ok pre ∧
        readUnsigned (2 ^ 64 - 1) pre = .ok val.length := by
  constructor
  · intro h
    obtain ⟨k, hk, -⟩ := bind_eq_ok.mp h
    rw [ofOption_eq_ok] at hk
    obtain ⟨pre, post, rfl, hnot⟩ := position_split hk
    rw [parseString_split hnot] at h
    simp only [bind_eq_ok, utf8Or_eq_ok, numberOr_eq_ok,
      check_eq_ok, decide_eq_true_eq] at h
    obtain ⟨lenStr, hutf, len, hlen, -, hle, val', hval, rest', hrest, h⟩ :=
      h
    obtain rfl := fromUtf8_eq_ok hutf
    rw [sliceTo_of_le hle, ok.injEq] at hval
    rw [sliceFrom_of_le hle, ok.injEq] at hrest
    simp only [pure_eq, ok.injEq, Prod.mk.injEq] at h
    obtain ⟨rfl, rfl⟩ := h
    subst hval hrest
    refine ⟨lenStr, by rw [take_append_drop], hnot, hutf, ?_⟩
    rw [hlen, length_take, Nat.min_eq_left hle]
  · rintro ⟨pre, rfl, hnot, hutf, hread⟩
    have hle : val.length ≤ (val ++ rest).length := by simp
    rw [parseString_split hnot, utf8Or_eq_ok.mpr hutf]
    simp only [ok_bind, numberOr_eq_ok.mpr hread]
    rw [sliceTo_of_le hle, sliceFrom_of_le hle]
    simp [check]

theorem parseString_ne_panic (input : Bytes) : parseString input ≠ .panic := by
  intro h
  cases hpos : position (asciiByte ':') input with
  | none => simp [parseString, hpos, ofOption] at h
  | some k =>
    obtain ⟨pre, post, rfl, hnot⟩ := position_split hpos
    rw [parseString_split hnot] at h
    revert h
    refine bind_ne_panic (utf8Or_ne_panic _ _) fun s _ => ?_
    refine bind_ne_panic (numberOr_ne_panic _ _) fun len _ => ?_
    refine bind_ne_panic (check_ne_panic _ _) ?_
    intro u hu
    -- The bound check before `split_at` is what keeps it in range.
    rw [check_eq_ok, decide_eq_true_eq] at hu
    rw [sliceTo_of_le hu, sliceFrom_of_le hu]
    simp

/-! ## Integers -/

/-- The spellings `parse_int` refuses before reading the number. -/
def IntSpelling (s : Bytes) : Prop :=
  s ≠ [] ∧ s ≠ ascii "-0" ∧
    ¬ (s.length > 1 ∧
      (startsWith (ascii "0") s = true ∨ startsWith (ascii "-0") s = true))

theorem parseInt_split {s : Bytes} (h : asciiByte 'e' ∉ s) :
    parseInt (asciiByte 'i' :: (s ++ asciiByte 'e' :: post)) = do
      check (!s.isEmpty) (.bencode "empty integer")
      let t ← utf8Or "int" s
      check (t ≠ ascii "-0") (.bencode "negative zero")
      check (!(decide (t.length > 1) &&
          (startsWith (ascii "0") t || startsWith (ascii "-0") t)))
        (.bencode "leading zero")
      let n ← numberOr "int parse" (readSigned (2 ^ 63) (2 ^ 63 - 1) t)
      return (.int (Int64.ofInt n), post) := by
  have htake : (s ++ asciiByte 'e' :: post).take s.length = s := by simp
  have hdrop : (s ++ asciiByte 'e' :: post).drop (s.length + 1) = post := by
    simp
  simp only [parseInt, head?_cons, decide_true, assert_true, ok_bind]
  rw [sliceFrom_of_le (by simp)]
  simp only [ok_bind, drop_succ_cons, drop_zero, position_append h, ofOption]
  rw [sliceTo_of_le (by simp), sliceFrom_of_le (by simp), htake, hdrop]
  rfl

theorem parseInt_eq_ok : parseInt input = .ok (v, rest) ↔
      ∃ s n, input = asciiByte 'i' :: (s ++ asciiByte 'e' :: rest) ∧
        asciiByte 'e' ∉ s ∧ IntSpelling s ∧ fromUtf8 s = .ok s ∧
        readSigned (2 ^ 63) (2 ^ 63 - 1) s = .ok n ∧
        v = .int (Int64.ofInt n) := by
  constructor
  · intro h
    cases input with
    | nil => simp [parseInt, assert] at h
    | cons c body =>
      by_cases hc : c = asciiByte 'i'
      · subst hc
        cases hpos : position (asciiByte 'e') body with
        | none =>
          simp [parseInt, sliceFrom, hpos, ofOption] at h
        | some k =>
          obtain ⟨s, post, rfl, hnot⟩ := position_split hpos
          rw [parseInt_split hnot] at h
          simp only [bind_eq_ok, utf8Or_eq_ok, numberOr_eq_ok,
            check_eq_ok, pure_eq, ok.injEq,
            Prod.mk.injEq] at h
          obtain ⟨-, hne, t, hutf, -, hzero, -, hlead, n, hn, rfl, rfl⟩ :=
            h
          obtain rfl := fromUtf8_eq_ok hutf
          refine ⟨t, n, rfl, hnot, ⟨?_, ?_, ?_⟩, hutf, hn, rfl⟩
          · simpa using hne
          · simpa using hzero
          · rintro ⟨hlen, h⟩
            rcases h with h | h <;> simp [hlen, h] at hlead
      · simp [parseInt, assert, hc] at h
  · rintro ⟨s, n, rfl, hnot, ⟨hne, hzero, hlead⟩, hutf, hn, rfl⟩
    rw [parseInt_split hnot]
    have hne' : (!s.isEmpty) = true := by simpa using hne
    have hlead' : (!(decide (s.length > 1) &&
        (startsWith (ascii "0") s || startsWith (ascii "-0") s))) =
          true := by
      rw [not_eq_true', ← not_eq_true, and_eq_true,
        or_eq_true, decide_eq_true_eq]
      exact hlead
    simp only [bind_eq_ok, utf8Or_eq_ok, numberOr_eq_ok,
      check_eq_ok, pure_eq, ok.injEq,
      Prod.mk.injEq]
    exact ⟨(), hne', s, hutf, (), by simpa using hzero, (), hlead', n, hn,
      rfl, trivial⟩

theorem parseInt_ne_panic
    (h : input.head? = some (asciiByte 'i')) : parseInt input ≠ .panic := by
  cases input with
  | nil => simp at h
  | cons c body =>
    simp only [head?_cons, Option.some.injEq] at h
    subst h
    cases hpos : position (asciiByte 'e') body with
    | none => simp [parseInt, sliceFrom, hpos, ofOption]
    | some k =>
      obtain ⟨s, post, rfl, hnot⟩ := position_split hpos
      rw [parseInt_split hnot]
      simp [bind_eq_panic]

end RustyTorrent.Metainfo
