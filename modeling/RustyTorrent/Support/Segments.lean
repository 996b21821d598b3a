import Mathlib.Data.List.Nodup
import Mathlib.Data.List.Range
import Mathlib.Algebra.BigOperators.Group.List.Basic
import Mathlib.Algebra.Ring.Nat

/-!
# Consecutive segments

A stream laid out over consecutive segments of given lengths.  `cut` divides a
range of the stream into slices of segments, and `locate` gives the segment
and the offset of a single position.  The two agree: the slices of a range are,
place by place, the locations of its positions (`places_cut`), and no two
positions share a location (`locate_injective`).
-/

namespace RustyTorrent.Segments

open List Nat

/-- A part of a segment: the segment's number, an offset and a count. -/
abbrev Slice := ℕ × ℕ × ℕ

/-- The slices of the range from `a` to `b`, for segments numbered from `i`
that start at position `o`. -/
def cut (a b : ℕ) : ℕ → ℕ → List ℕ → List Slice
  | _, _, [] => []
  | i, o, len :: lens =>
    if max a o < min b (o + len) then
      (i, max a o - o, min b (o + len) - max a o) ::
        cut a b (i + 1) (o + len) lens
    else cut a b (i + 1) (o + len) lens

/-- The segment and the offset at which a position lies. -/
def locate (pos : ℕ) : ℕ → ℕ → List ℕ → Option (ℕ × ℕ)
  | _, _, [] => none
  | i, o, len :: lens =>
    if pos < o + len then some (i, pos - o)
    else locate pos (i + 1) (o + len) lens

/-- The places covered by slices, in order. -/
def places (slices : List Slice) : List (ℕ × ℕ) :=
  slices.flatMap fun s => (List.range' s.2.1 s.2.2).map fun k => (s.1, k)

@[simp] theorem places_nil : places [] = [] := rfl

@[simp] theorem places_cons (s : Slice) (slices : List Slice) :
    places (s :: slices) =
      ((range' s.2.1 s.2.2).map fun k => (s.1, k)) ++ places slices :=
  rfl

/-! ## Slices -/

variable {a b i o pos len j : ℕ} {lens : List ℕ}

theorem cut_eq_nil_of_le (h : b ≤ o) (lens : List ℕ) :
    cut a b i o lens = [] := by
  induction lens generalizing i o with
  | nil => rfl
  | cons len lens ih =>
    rw [cut, if_neg (by omega), ih (by omega)]

theorem cut_of_not_le (h : ¬ a ≤ b) (lens : List ℕ) :
    cut a b i o lens = [] := by
  induction lens generalizing i o with
  | nil => rfl
  | cons len lens ih => rw [cut, if_neg (by omega), ih]

theorem cut_congr_left {a' : ℕ} (ha : a ≤ o) (ha' : a' ≤ o)
    (lens : List ℕ) : cut a b i o lens = cut a' b i o lens := by
  induction lens generalizing i o with
  | nil => rfl
  | cons len lens ih =>
    rw [cut, cut, max_eq_right ha, max_eq_right ha', ih (by omega) (by omega)]

theorem cut_mem {s : Slice} (hs : s ∈ cut a b i o lens) : i ≤ s.1 ∧ 0 < s.2.2 ∧
      ∃ len, lens[s.1 - i]? = some len ∧ s.2.1 + s.2.2 ≤ len := by
  induction lens generalizing i o with
  | nil => simp [cut] at hs
  | cons len lens ih =>
    have hrest : s ∈ cut a b (i + 1) (o + len) lens → i ≤ s.1 ∧ 0 < s.2.2 ∧
          ∃ len', (len :: lens)[s.1 - i]? = some len' ∧
            s.2.1 + s.2.2 ≤ len' := by
      intro hs
      obtain ⟨hi, hpos, len', hlen, hle⟩ := ih hs
      refine ⟨by omega, hpos, len', ?_, hle⟩
      rw [show s.1 - i = s.1 - (i + 1) + 1 by omega]
      simpa using hlen
    rw [cut] at hs
    split at hs
    next hne =>
      rcases mem_cons.mp hs with rfl | hs
      · refine ⟨le_refl _, by dsimp only; omega, len, ?_, ?_⟩
        · simp
        · dsimp only
          omega
      · exact hrest hs
    next => exact hrest hs

theorem exists_mem_cut (a b i o k : ℕ) (lens : List ℕ) :
    (∃ s ∈ cut a b i o lens, s.1 = i + k) ↔ ∃ len, lens[k]? = some len ∧
        max a (o + (lens.take k).sum) <
          min b (o + (lens.take k).sum + len) := by
  induction lens generalizing i o k with
  | nil => simp [cut]
  | cons len lens ih =>
    have hhead : ∀ s ∈ cut a b (i + 1) (o + len) lens, s.1 ≠ i :=
      fun s hs => by
        have := (cut_mem hs).1
        omega
    cases k with
    | zero =>
      rw [cut]
      split
      next hne =>
        refine iff_of_true ⟨_, mem_cons_self, rfl⟩ ⟨len, rfl, ?_⟩
        simpa using hne
      next hne =>
        refine iff_of_false ?_ ?_
        · rintro ⟨s, hs, hi⟩
          exact hhead s hs hi
        · rintro ⟨len', hlen, hlt⟩
          cases hlen
          exact hne (by simpa using hlt)
    | succ k =>
      have hrest := ih (i + 1) (o + len) k
      have hsum : o + (len + (lens.take k).sum) =
          o + len + (lens.take k).sum := by omega
      rw [getElem?_cons_succ, take_succ_cons, sum_cons,
        hsum, show i + (k + 1) = i + 1 + k by omega, ← hrest, cut]
      split
      next hne =>
        constructor
        · rintro ⟨s, hs, hi⟩
          rcases mem_cons.mp hs with rfl | hs
          · dsimp only at hi
            omega
          · exact ⟨s, hs, hi⟩
        · rintro ⟨s, hs, hi⟩
          exact ⟨s, mem_cons_of_mem _ hs, hi⟩
      next hne => rfl

/-! ## Places -/

theorem locate_of_lt (h : pos < o + len)
    (lens : List ℕ) : locate pos i o (len :: lens) = some (i, pos - o) :=
  if_pos h

theorem locate_of_le (h : o + len ≤ pos) (lens : List ℕ) :
    locate pos i o (len :: lens) = locate pos (i + 1) (o + len) lens :=
  if_neg (by omega)

theorem map_locate_head (ho : o ≤ a) (hb : b ≤ o + len) (lens : List ℕ) :
    ((range' (a - o) (b - a)).map fun k => some (i, k)) =
      (range' a (b - a)).map fun pos =>
        locate pos i o (len :: lens) := by
  apply ext_getElem
  · simp
  · intro k hk hk'
    simp only [length_map, length_range'] at hk
    simp only [getElem_map, getElem_range', one_mul]
    rw [locate_of_lt (by omega)]
    have hoff : a - o + k = a + k - o := by omega
    rw [hoff]

/-- The places covered by the slices of a range are the locations of its
positions, in order. -/
theorem places_cut (ho : o ≤ a) (hab : a ≤ b) (hb : b ≤ o + lens.sum) :
    (places (cut a b i o lens)).map some =
      (range' a (b - a)).map fun pos => locate pos i o lens := by
  induction lens generalizing a i o with
  | nil =>
    have hempty : b - a = 0 := by
      rw [sum_nil] at hb
      omega
    simp [cut, hempty]
  | cons len lens ih =>
    rw [sum_cons] at hb
    rw [cut, max_eq_left ho]
    by_cases hhead : a < o + len
    · by_cases hstop : b ≤ o + len
      · -- The range ends inside the first segment.
        rw [min_eq_left hstop, cut_eq_nil_of_le hstop,
          ← map_locate_head ho hstop lens]
        split
        next => simp
        next h =>
          have hempty : b - a = 0 := by omega
          simp [hempty]
      · -- The range continues into the following segments.
        have hsplit : range' a (b - a) = range' a (o + len - a) ++
              range' (o + len) (b - (o + len)) := by
          rw [show b - a = (o + len - a) + (b - (o + len)) by omega,
            ← range'_append_1]
          congr 2
          omega
        have htail := ih (i := i + 1) (o := o + len) (a := o + len)
          (le_refl _) (by omega) (by omega)
        have hrest : ((range' (o + len) (b - (o + len))).map
            fun pos => locate pos i o (len :: lens)) =
            (range' (o + len) (b - (o + len))).map
              fun pos => locate pos (i + 1) (o + len) lens := by
          apply map_congr_left
          intro pos hpos
          rw [locate_of_le (mem_range'_1.mp hpos).1]
        rw [min_eq_right (by omega), if_pos hhead, places_cons,
          map_append, map_map, hsplit, map_append, hrest,
          ← htail, ← map_locate_head ho (le_refl _) lens,
          cut_congr_left (by omega) (le_refl (o + len))]
        rfl
    · rw [if_neg (by omega), ih (by omega) hab (by omega)]
      apply map_congr_left
      intro pos hpos
      have hle := (mem_range'_1.mp hpos).1
      rw [locate_of_le (by omega)]

variable {c : ℕ × ℕ}

theorem mem_places_cut (ho : o ≤ a) (hb : b ≤ o + lens.sum) :
    c ∈ places (cut a b i o lens) ↔
      ∃ pos, a ≤ pos ∧ pos < b ∧ locate pos i o lens = some c := by
  by_cases hab : a ≤ b
  · have hsome : c ∈ places (cut a b i o lens) ↔
        some c ∈ (places (cut a b i o lens)).map some := by
      simp
    rw [hsome, places_cut ho hab hb, mem_map]
    refine exists_congr fun pos => ?_
    rw [mem_range'_1, and_assoc, show a + (b - a) = b by omega]
  · rw [cut_of_not_le hab]
    exact iff_of_false not_mem_nil fun ⟨_, h, h', _⟩ => by omega

theorem places_mono {a' b' : ℕ} (ho : o ≤ a) (ha : a ≤ a') (hb : b' ≤ b)
    (hsum : b ≤ o + lens.sum) (hc : c ∈ places (cut a' b' i o lens)) :
    c ∈ places (cut a b i o lens) := by
  obtain ⟨pos, hle, hlt, hlocate⟩ :=
    (mem_places_cut (ho.trans ha) (hb.trans hsum)).mp hc
  exact (mem_places_cut ho hsum).mpr
    ⟨pos, ha.trans hle, hlt.trans_le hb, hlocate⟩

theorem length_places (slices : List Slice) :
    (places slices).length = (slices.map fun s => s.2.2).sum := by
  simp [places, length_flatMap]

theorem cut_pairwise : (cut a b i o lens).Pairwise fun s s' => s.1 < s'.1 := by
  induction lens generalizing i o with
  | nil => exact .nil
  | cons len lens ih =>
    rw [cut]
    split
    · exact .cons (fun s hs => (cut_mem hs).1) ih
    · exact ih

theorem locate_spec {k : ℕ}
    (ho : o ≤ pos) (h : locate pos i o lens = some (j, k)) :
    i ≤ j ∧ pos = o + (lens.take (j - i)).sum + k ∧
      ∃ len, lens[j - i]? = some len ∧ k < len := by
  induction lens generalizing i o with
  | nil => simp [locate] at h
  | cons len lens ih =>
    rw [locate] at h
    split at h
    next hlt =>
      simp only [Option.some.injEq, Prod.mk.injEq] at h
      obtain ⟨rfl, rfl⟩ := h
      refine ⟨Nat.le_refl _, ?_, len, by simp, by omega⟩
      simp only [Nat.sub_self, take_zero, sum_nil]
      omega
    next hge =>
      obtain ⟨hij, hpos, len', hlen, hk⟩ := ih (by omega) h
      have hstep : j - i = j - (i + 1) + 1 := by omega
      refine ⟨by omega, ?_, len', ?_, hk⟩
      · rw [hstep, take_succ_cons, sum_cons]
        omega
      · rw [hstep]
        simpa using hlen

theorem locate_injective {p q : ℕ} (hp : o ≤ p) (hq : o ≤ q)
    (h : locate p i o lens = some c) (h' : locate q i o lens = some c)
    : p = q := by
  obtain ⟨j, k⟩ := c
  rw [(locate_spec hp h).2.1, (locate_spec hq h').2.1]

theorem exists_locate (ho : o ≤ pos)
    (h : pos < o + lens.sum) : ∃ c, locate pos i o lens = some c := by
  induction lens generalizing i o with
  | nil =>
    rw [sum_nil] at h
    omega
  | cons len lens ih =>
    rw [sum_cons] at h
    by_cases hlt : pos < o + len
    · exact ⟨_, locate_of_lt hlt lens⟩
    · rw [locate_of_le (by omega)]
      apply ih
      · omega
      · omega

theorem nodup_places_cut (ho : o ≤ a) (hab : a ≤ b)
    (hb : b ≤ o + lens.sum) : (places (cut a b i o lens)).Nodup := by
  apply List.Nodup.of_map some
  rw [places_cut ho hab hb]
  apply List.Nodup.map_on _ nodup_range'
  intro p hp q hq hpq
  obtain ⟨hp, hlt⟩ := mem_range'_1.mp hp
  obtain ⟨c, hc⟩ := exists_locate (i := i) (ho.trans hp)
    (show p < o + lens.sum by omega)
  exact locate_injective (ho.trans hp)
    (ho.trans (mem_range'_1.mp hq).1) hc (hpq ▸ hc)

theorem locate_of_lt_length {k : ℕ} (hlen : lens[j]? = some len)
    (hk : k < len) :
    locate (o + (lens.take j).sum + k) i o lens = some (i + j, k) := by
  induction lens generalizing i o j with
  | nil => simp at hlen
  | cons len' lens ih =>
    cases j with
    | zero =>
      obtain rfl : len' = len := by simpa using hlen
      rw [take_zero, sum_nil, Nat.add_zero,
        locate_of_lt (by omega), Nat.add_sub_cancel_left, Nat.add_zero]
    | succ j =>
      rw [take_succ_cons, sum_cons, locate_of_le (by omega),
        ← Nat.add_assoc, ih (by simpa using hlen),
        show i + 1 + j = i + (j + 1) by omega]

theorem sum_take_lt (hij : i < j)
    (hlen : lens[i]? = some len) (hpos : 0 < len) :
    (lens.take i).sum < (lens.take j).sum := by
  obtain ⟨hi, rfl⟩ := List.getElem?_eq_some_iff.mp hlen
  have hsucc : (lens.take (i + 1)).sum = (lens.take i).sum + lens[i] := by
    rw [take_succ_eq_append_getElem hi, sum_append, sum_singleton]
  obtain ⟨d, rfl⟩ := Nat.exists_eq_add_of_lt hij
  have hsplit : lens.take (i + 1 + d) =
      lens.take (i + 1) ++ (lens.drop (i + 1)).take d := take_add
  rw [show i + d + 1 = i + 1 + d by omega, hsplit, sum_append]
  omega

theorem sum_take_lt_sum (hlen : lens[j]? = some len) (hpos : 0 < len) :
    (lens.take j).sum < lens.sum := by
  have hj : j < lens.length := (List.getElem?_eq_some_iff.mp hlen).1
  have hlt := sum_take_lt hj hlen hpos
  rwa [take_length] at hlt

end RustyTorrent.Segments
