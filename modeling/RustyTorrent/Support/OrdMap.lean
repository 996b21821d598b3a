import Mathlib.Algebra.BigOperators.Group.List.Basic
import Mathlib.Algebra.Order.Ring.Nat

/-!
# Maps kept in key order

An association list with an insertion that keeps ascending keys ascending,
the way an ordered map iterates.  The lookup laws hold for every list, so
users of a map never carry its order around.
-/

namespace RustyTorrent.OrdMap

open List Option Nat

variable {κ ν : Type} [LinearOrder κ]

def get (m : List (κ × ν)) (k : κ) : Option ν :=
  match m with
  | [] => none
  | (a, v) :: m => if k = a then some v else get m k

def containsKey (m : List (κ × ν)) (k : κ) : Bool := (get m k).isSome

def insert (k : κ) (v : ν) : List (κ × ν) → List (κ × ν)
  | [] => [(k, v)]
  | (a, w) :: m =>
    if k < a then (k, v) :: (a, w) :: m
    else if k = a then (k, v) :: m
    else (a, w) :: insert k v m

/-- `remove`, without the removed value. -/
def erase (k : κ) : List (κ × ν) → List (κ × ν)
  | [] => []
  | (a, w) :: m => if k = a then erase k m else (a, w) :: erase k m

def keys (m : List (κ × ν)) : List κ := m.map Prod.fst

@[simp]
theorem get_nil (k : κ) : get ([] : List (κ × ν)) k = none := rfl

theorem get_insert (k k' : κ) (v : ν) (m : List (κ × ν)) :
    get (insert k v m) k' = if k' = k then some v else get m k' := by
  induction m with
  | nil => rfl
  | cons e m ih =>
    obtain ⟨a, w⟩ := e
    by_cases hlt : k < a
    · simp [insert, hlt, get]
    · by_cases heq : k = a
      · subst heq
        simp only [insert, if_neg hlt, if_true, get]
        split <;> rfl
      · by_cases hk : k' = a
        · have hne : ¬ a = k := fun h => heq h.symm
          simp [insert, hlt, heq, get, hk, hne]
        · simp [insert, hlt, heq, get, hk, ih]

theorem get_erase (k k' : κ) (m : List (κ × ν)) :
    get (erase k m) k' = if k' = k then none else get m k' := by
  induction m with
  | nil => simp [erase]
  | cons e m ih =>
    obtain ⟨a, w⟩ := e
    by_cases ha : k = a
    · subst ha
      rw [erase, if_pos rfl, ih]
      by_cases hk : k' = k
      · simp [hk]
      · simp [hk, get]
    · rw [erase, if_neg ha, get, ih]
      by_cases hk : k' = a
      · have hne : ¬ k' = k := fun h => ha (h.symm.trans hk)
        simp [hk, hk ▸ hne, get]
      · simp [hk, get]

theorem length_erase_le (k : κ) (m : List (κ × ν)) :
    (erase k m).length ≤ m.length := by
  induction m with
  | nil => exact le_refl _
  | cons e m ih =>
    obtain ⟨a, w⟩ := e
    unfold erase
    split_ifs
    · exact le_succ_of_le ih
    · exact succ_le_succ ih

variable {k : κ} {v : ν} {m : List (κ × ν)}

theorem length_erase_lt
    (h : get m k = some v) : (erase k m).length < m.length := by
  induction m with
  | nil => cases h
  | cons e m ih =>
    obtain ⟨a, w⟩ := e
    by_cases hk : k = a
    · rw [erase, if_pos hk]
      exact lt_succ_of_le (length_erase_le k m)
    · rw [get, if_neg hk] at h
      rw [erase, if_neg hk]
      exact succ_lt_succ (ih h)

theorem mem_keys_iff : k ∈ keys m ↔ ∃ v, get m k = some v := by
  induction m with
  | nil => simp [keys]
  | cons e m ih =>
    obtain ⟨a, w⟩ := e
    by_cases hk : k = a
    · simp [keys, get, hk]
    · rw [keys, map_cons, mem_cons, ← keys, ih]
      simp [get, hk]

/-! ## Order -/

/-- The keys ascend. -/
def Ascending (m : List (κ × ν)) : Prop := (keys m).Pairwise (· < ·)

theorem ascending_cons {a : κ} {w : ν} :
    Ascending ((a, w) :: m) ↔ (∀ k ∈ keys m, a < k) ∧ Ascending m :=
  pairwise_cons

theorem mem_keys_insert {k' : κ} :
    k' ∈ keys (insert k v m) ↔ k' = k ∨ k' ∈ keys m := by
  rw [mem_keys_iff, mem_keys_iff, get_insert]
  split_ifs with hk
  · simp [hk]
  · simp [hk]

theorem mem_keys_erase {k' : κ} :
    k' ∈ keys (erase k m) ↔ k' ≠ k ∧ k' ∈ keys m := by
  rw [mem_keys_iff, mem_keys_iff, get_erase]
  split_ifs with hk
  · simp [hk]
  · simp [hk]

theorem Ascending.insert (h : Ascending m) (k : κ)
    (v : ν) : Ascending (insert k v m) := by
  induction m with
  | nil => exact pairwise_singleton _ _
  | cons e m ih =>
    obtain ⟨a, w⟩ := e
    obtain ⟨hhead, htail⟩ := ascending_cons.mp h
    unfold OrdMap.insert
    split_ifs with hlt heq
    · refine ascending_cons.mpr ⟨fun k' hk' => ?_, h⟩
      rcases mem_cons.mp hk' with rfl | hk'
      · exact hlt
      · exact hlt.trans (hhead k' hk')
    · exact ascending_cons.mpr ⟨heq ▸ hhead, htail⟩
    · refine ascending_cons.mpr ⟨fun k' hk' => ?_, ih htail⟩
      rcases mem_keys_insert.mp hk' with rfl | hk'
      · exact lt_of_le_of_ne (not_lt.mp hlt) (Ne.symm heq)
      · exact hhead k' hk'

theorem Ascending.erase (h : Ascending m) (k : κ) : Ascending (erase k m) := by
  induction m with
  | nil => exact h
  | cons e m ih =>
    obtain ⟨a, w⟩ := e
    obtain ⟨hhead, htail⟩ := ascending_cons.mp h
    unfold OrdMap.erase
    split_ifs
    · exact ih htail
    · exact ascending_cons.mpr
        ⟨fun k' hk' => hhead k' (mem_keys_erase.mp hk').2, ih htail⟩

theorem erase_of_not_mem (h : k ∉ keys m) : erase k m = m := by
  induction m with
  | nil => rfl
  | cons e m ih =>
    obtain ⟨a, w⟩ := e
    have hne : k ≠ a := fun hk => h (hk ▸ mem_cons_self)
    have htail : k ∉ keys m := fun hk => h (mem_cons_of_mem _ hk)
    rw [erase, if_neg hne, ih htail]

/-! ## Totals -/

/-- The sum of a size over the values of a map. -/
def total (size : ν → ℕ) (m : List (κ × ν)) : ℕ :=
  (m.map fun e => size e.2).sum

theorem total_erase (size : ν → ℕ) (h : Ascending m) (hget : get m k = some v) :
    total size (erase k m) + size v = total size m := by
  induction m with
  | nil => cases hget
  | cons e m ih =>
    obtain ⟨a, w⟩ := e
    obtain ⟨hhead, htail⟩ := ascending_cons.mp h
    by_cases hk : k = a
    · have hfresh : k ∉ keys m := fun hmem =>
        lt_irrefl a (hk ▸ hhead k hmem)
      rw [get, if_pos hk] at hget
      cases hget
      rw [erase, if_pos hk, erase_of_not_mem hfresh]
      exact add_comm _ _
    · rw [get, if_neg hk] at hget
      have hrest := ih htail hget
      rw [erase, if_neg hk]
      simp only [total, map_cons, sum_cons] at hrest ⊢
      omega

theorem total_insert (size : ν → ℕ) (h : Ascending m) (k : κ) (v : ν) :
    total size (insert k v m) + ((get m k).map size).getD 0 =
      total size m + size v := by
  induction m with
  | nil => simp [insert, total]
  | cons e m ih =>
    obtain ⟨a, w⟩ := e
    obtain ⟨hhead, htail⟩ := ascending_cons.mp h
    have hrest := ih htail
    unfold OrdMap.insert
    split_ifs with hlt heq
    · have hnone : get ((a, w) :: m) k = none := by
        by_contra hsome
        obtain ⟨u, hu⟩ := ne_none_iff_exists'.mp hsome
        have hmem : k ∈ keys ((a, w) :: m) := mem_keys_iff.mpr ⟨u, hu⟩
        rcases mem_cons.mp hmem with rfl | hmem
        · exact lt_irrefl _ hlt
        · exact lt_asymm hlt (hhead k hmem)
      rw [hnone]
      simp only [total, map_cons, sum_cons, map_none, getD_none]
      omega
    · rw [get, if_pos heq]
      simp only [total, map_cons, sum_cons, map_some, getD_some]
      omega
    · rw [get, if_neg heq]
      simp only [total, map_cons, sum_cons] at hrest ⊢
      omega

end RustyTorrent.OrdMap
