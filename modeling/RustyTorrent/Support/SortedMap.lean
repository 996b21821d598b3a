import Mathlib.Data.List.Basic
import Mathlib.Data.List.Induction
import Mathlib.Data.List.Pairwise

/-!
# Ordered association lists

An ordered map (`BTreeMap`) as the list of its entries in iteration order.
The keys are strictly increasing for the lexicographic order on byte strings;
inserting a key above all present ones appends it, which is the only way the
callers grow a map.
-/

namespace RustyTorrent.SortedMap

open List

variable {V : Type*}

/-- Insert or replace an entry, keeping the keys in order. -/
def insert (k : List UInt8) (v : V) :
    List (List UInt8 × V) → List (List UInt8 × V)
  | [] => [(k, v)]
  | (k', v') :: m =>
    if k < k' then (k, v) :: (k', v') :: m
    else if k = k' then (k', v) :: m
    else (k', v') :: insert k v m

/-- The value stored under a key. -/
def get (m : List (List UInt8 × V)) (k : List UInt8) : Option V :=
  m.lookup k

/-- Keys strictly increase along the list. -/
def Sorted (m : List (List UInt8 × V)) : Prop :=
  (m.map Prod.fst).Pairwise (· < ·)

variable {k : List UInt8} {v : V} {m m' : List (List UInt8 × V)}

theorem insert_of_forall_lt (h : ∀ e ∈ m, e.1 < k) :
    insert k v m = m ++ [(k, v)] := by
  induction m with
  | nil => rfl
  | cons e m ih =>
    have he : e.1 < k := h e (by simp)
    have hne : k ≠ e.1 := by
      intro hk
      exact List.lt_irrefl _ (hk ▸ he)
    rw [insert, if_neg (List.lt_asymm he), if_neg hne,
      ih fun e' he' => h e' (by simp [he'])]
    rfl

theorem sorted_nil : Sorted ([] : List (List UInt8 × V)) :=
  List.Pairwise.nil

theorem Sorted.forall_lt_of_append_cons (h : Sorted (m ++ (k, v) :: m')) :
    ∀ e ∈ m, e.1 < k := by
  rw [Sorted, map_append, pairwise_append] at h
  intro e he
  exact h.2.2 e.1 (mem_map_of_mem he) k (by simp)

theorem Sorted.ne_of_append_cons (h : Sorted (m ++ (k, v) :: m')) :
    ∀ e ∈ m, e.1 ≠ k := by
  intro e he hek
  have hlt := h.forall_lt_of_append_cons e he
  exact List.lt_irrefl _ (hek ▸ hlt)

theorem Sorted.get_append_cons (h : Sorted (m ++ (k, v) :: m')) :
    get (m ++ (k, v) :: m') k = some v := by
  have hnone : m.lookup k = none := by
    rw [lookup_eq_none_iff]
    intro e he
    have hne := h.ne_of_append_cons e he
    simpa using Ne.symm hne
  simp [get, lookup_append, hnone]

theorem Sorted.append_last (hm : Sorted m)
    (hlast : ∀ e, m.getLast? = some e → e.1 < k) :
    Sorted (m ++ [(k, v)]) ∧ ∀ e ∈ m, e.1 < k := by
  have hall : ∀ e ∈ m, e.1 < k := by
    intro e he
    obtain ⟨init, last, rfl⟩ : ∃ init last, m = init ++ [last] :=
      ⟨m.dropLast, m.getLast (ne_nil_of_mem he),
        (dropLast_append_getLast _).symm⟩
    have hk : last.1 < k := hlast last (by simp)
    rcases mem_append.mp he with he | he
    · exact List.lt_trans (hm.forall_lt_of_append_cons e he) hk
    · rw [mem_singleton.mp he]
      exact hk
  refine ⟨?_, hall⟩
  rw [Sorted, map_append, pairwise_append]
  refine ⟨hm, pairwise_singleton _ _, ?_⟩
  intro a ha b hb
  obtain ⟨e, he, rfl⟩ := mem_map.mp ha
  rw [mem_map] at hb
  obtain ⟨e', he', rfl⟩ := hb
  rw [mem_singleton.mp he']
  exact hall e he

theorem mem_of_mem_insert {e : List UInt8 × V} (h : e ∈ insert k v m) :
    e = (k, v) ∨ e ∈ m := by
  induction m with
  | nil => exact .inl (by simpa [insert] using h)
  | cons e' m ih =>
    rw [insert] at h
    split_ifs at h with hlt heq
    · simpa using h
    · rw [← heq, mem_cons] at h
      exact h.imp_right (mem_cons_of_mem _)
    · rcases mem_cons.mp h with rfl | h
      · exact .inr (by simp)
      · exact (ih h).imp_right (mem_cons_of_mem _)

theorem Sorted.insert (h : Sorted m)
    (k : List UInt8) (v : V) : Sorted (insert k v m) := by
  induction m with
  | nil => exact pairwise_singleton _ _
  | cons e m ih =>
    rw [Sorted, map_cons, pairwise_cons] at h
    rw [SortedMap.insert]
    split_ifs with hlt heq
    · rw [Sorted, map_cons, map_cons, pairwise_cons,
        pairwise_cons]
      refine ⟨fun b hb => ?_, h⟩
      rcases mem_cons.mp hb with rfl | hb
      · exact hlt
      · exact List.lt_trans hlt (h.1 b hb)
    · rw [Sorted, map_cons, pairwise_cons]
      exact h
    · have hgt : e.1 < k :=
        Std.lt_of_le_of_ne hlt (Ne.symm heq)
      rw [Sorted, map_cons, pairwise_cons]
      refine ⟨fun b hb => ?_, ih h.2⟩
      obtain ⟨e', he', rfl⟩ := mem_map.mp hb
      rcases mem_of_mem_insert he' with rfl | he'
      · exact hgt
      · exact h.1 e'.1 (mem_map_of_mem he')

theorem get_cons (e : List UInt8 × V) (m : List (List UInt8 × V))
    (k : List UInt8) :
    get (e :: m) k = if k = e.1 then some e.2 else get m k := by
  rw [get, lookup_cons]
  by_cases h : k = e.1
  · simp [h]
  · simp [h, beq_eq_false_iff_ne.mpr h, get]

theorem get_insert (k k' : List UInt8) (v : V) (m : List (List UInt8 × V)) :
    get (insert k v m) k' = if k' = k then some v else get m k' := by
  induction m with
  | nil => exact get_cons (k, v) [] k'
  | cons e m ih =>
    rw [insert]
    split_ifs <;> grind [get_cons]

theorem foldl_insert_spec (entries : List (List UInt8 × V)) :
    Sorted (entries.foldl (fun d e => SortedMap.insert e.1 e.2 d) []) ∧
      ∀ e ∈ entries.foldl (fun d e => SortedMap.insert e.1 e.2 d) [],
        e ∈ entries := by
  induction entries using reverseRecOn with
  | nil => exact ⟨sorted_nil, fun e he => he⟩
  | append_singleton entries last ih =>
    rw [foldl_append, foldl_cons, foldl_nil]
    refine ⟨ih.1.insert _ _, fun e he => ?_⟩
    rcases mem_of_mem_insert he with rfl | he
    · simp
    · exact mem_append_left _ (ih.2 e he)

end RustyTorrent.SortedMap
