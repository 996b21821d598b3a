import Mathlib.Algebra.Ring.Nat
import Mathlib.Data.List.AList

/-!
# Hash maps

A hash map is an association list with distinct keys.  The order of its
entries is that of the last insertions; a program that iterates over a map
sees some permutation of it.  A sum over the entries (`total`) does not depend
on their order and moves by one summand with each write.
-/

namespace RustyTorrent

open List Option

/-- A finite map from `κ` to `ν`. -/
abbrev Dict (κ ν : Type) := AList fun _ : κ => ν

namespace Dict

variable {κ ν : Type}

/-- The entries as pairs. -/
def pairs (m : Dict κ ν) : List (κ × ν) := m.entries.map fun e => (e.1, e.2)

def values (m : Dict κ ν) : List ν := m.entries.map fun e => e.2

def retain (p : κ → ν → Bool) (m : Dict κ ν) : Dict κ ν where
  entries := m.entries.filter fun e => p e.1 e.2
  nodupKeys := m.nodupKeys.sublist List.filter_sublist

/-- `values_mut`, with every value replaced. -/
def mapValues (f : ν → ν) (m : Dict κ ν) : Dict κ ν where
  entries := m.entries.map fun e => ⟨e.1, f e.2⟩
  nodupKeys := by
    have hkeys : (m.entries.map fun e => (⟨e.1, f e.2⟩ : Σ _ : κ, ν)).keys =
        m.entries.keys := by
      simp [List.keys]
    show (List.keys _).Nodup
    rw [hkeys]
    exact m.nodupKeys

/-- `entry(k).or_insert(v)`, followed by an update of the value. -/
def upsert [DecidableEq κ] (k : κ) (v : ν) (f : ν → ν) (m : Dict κ ν) :
    Dict κ ν :=
  m.insert k (f ((m.lookup k).getD v))

/-- An update through `get_mut`, if there is a value. -/
def modify [DecidableEq κ] (k : κ) (f : ν → ν) (m : Dict κ ν) : Dict κ ν :=
  match m.lookup k with
  | some v => m.insert k (f v)
  | none => m

/-- The sum of a measure of the entries. -/
def total (f : κ → ν → ℕ) (m : Dict κ ν) : ℕ :=
  (m.entries.map fun e => f e.1 e.2).sum

/-! ## Lookups after a write -/

section Lookup

variable [DecidableEq κ] {m : Dict κ ν} {k j : κ} {v : ν}

theorem lookup_insert (m : Dict κ ν) (k : κ) (v : ν) (j : κ) :
    (m.insert k v).lookup j = if j = k then some v else m.lookup j := by
  split_ifs with h
  · rw [h, AList.lookup_insert]
  · exact AList.lookup_insert_ne h

theorem lookup_erase (m : Dict κ ν) (k j : κ) :
    (m.erase k).lookup j = if j = k then none else m.lookup j := by
  split_ifs with h
  · rw [h, AList.lookup_erase]
  · exact AList.lookup_erase_ne h

theorem lookup_retain (p : κ → ν → Bool) (m : Dict κ ν) (k : κ) :
    (m.retain p).lookup k = (m.lookup k).filter (p k) := by
  apply ext
  intro v
  rw [filter_eq_some_iff]
  change v ∈ (m.retain p).lookup k ↔ v ∈ m.lookup k ∧ _
  rw [AList.mem_lookup_iff, AList.mem_lookup_iff]
  exact mem_filter

theorem lookup_mapValues (f : ν → ν) (m : Dict κ ν) (k : κ) :
    (m.mapValues f).lookup k = (m.lookup k).map f := by
  apply ext
  intro v
  rw [map_eq_some_iff]
  change v ∈ (m.mapValues f).lookup k ↔ ∃ w, w ∈ m.lookup k ∧ _
  simp only [AList.mem_lookup_iff]
  change _ ∈ m.entries.map _ ↔ _
  rw [List.mem_map]
  constructor
  · rintro ⟨⟨k', w⟩, hmem, heq⟩
    cases heq
    exact ⟨w, hmem, rfl⟩
  · rintro ⟨w, hmem, rfl⟩
    exact ⟨⟨k, w⟩, hmem, rfl⟩

/-! ## Sums over the entries -/

variable {f : κ → ν → ℕ}

theorem total_congr {m' : Dict κ ν} (h : ∀ k, m'.lookup k = m.lookup k) :
    total f m' = total f m := by
  have hperm : m'.entries.Perm m.entries := by
    refine lookup_ext m'.nodupKeys m.nodupKeys fun k v => ?_
    exact Eq.to_iff (congrArg (v ∈ ·) (h k))
  exact (hperm.map _).sum_nat

theorem total_erase (h : m.lookup k = some v) :
    total f m = total f (m.erase k) + f k v := by
  have hmem : k ∈ m.entries.keys :=
    mem_keys_of_mem (AList.mem_lookup_iff.mp h)
  obtain ⟨v', l₁, l₂, -, hentries, herase⟩ := exists_of_kerase hmem
  have hv : v' = v := by
    have hlookup : m.lookup k = some v' := by
      apply AList.mem_lookup_iff.mpr
      rw [hentries]
      exact mem_append_right _ mem_cons_self
    exact some.inj (hlookup.symm.trans h)
  have hkept : (m.erase k).entries = l₁ ++ l₂ := herase
  rw [total, total, hkept, hentries, hv]
  simp only [map_append, map_cons, sum_append, sum_cons]
  omega

theorem total_insert (m : Dict κ ν) (k : κ) (v : ν) :
    total f (m.insert k v) = total f (m.erase k) + f k v := by
  rw [total_erase (AList.lookup_insert m)]
  congr 1
  refine total_congr fun j => ?_
  rw [lookup_erase, lookup_erase, lookup_insert]
  split_ifs <;> rfl

theorem total_erase_of_none (h : m.lookup k = none) :
    total f (m.erase k) = total f m := by
  refine total_congr fun j => ?_
  rw [lookup_erase]
  split_ifs with hj
  · rw [hj, h]
  · rfl

end Lookup

end Dict

end RustyTorrent
