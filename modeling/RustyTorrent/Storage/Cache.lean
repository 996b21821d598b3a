import Mathlib.Data.List.Perm.Subperm
import RustyTorrent.Error

/-!
# The cache of uploaded pieces

`storage/cache.rs`: a least-recently-used cache of whole pieces.  The entries
stand with the most recently used one first.  A piece stays in the cache while
fewer other pieces are used than it has room for (`cache_retains`).
-/

namespace RustyTorrent.Storage

open List

def defaultCapacity : ℕ := 32

structure PieceCache where
  capacity : ℕ
  entries : List (UInt32 × Bytes)

namespace PieceCache

def new (capacity : ℕ) : PieceCache where
  capacity := max capacity 1
  entries := []

variable (c : PieceCache)

def invalidate (index : UInt32) : PieceCache :=
  { c with entries := c.entries.filter fun e => e.1 ≠ index }

/-- `get`, which makes the entry the most recent one. -/
def get (index : UInt32) : PieceCache × Option Bytes :=
  match c.entries.find? fun e => e.1 = index with
  | none => (c, none)
  | some e =>
    ({ c with entries := e :: (c.invalidate index).entries }, some e.2)

/-- `insert`, which evicts the least recent entry when the cache is full. -/
def insert (index : UInt32) (data : Bytes) : PieceCache :=
  { c with
    entries := ((index, data) :: (c.invalidate index).entries).take
      c.capacity }

/-- Every cached piece satisfies `P`. -/
def All (P : UInt32 → Bytes → Prop) : Prop :=
  ∀ e ∈ c.entries, P e.1 e.2

variable {c} {P : UInt32 → Bytes → Prop}

theorem All.invalidate (h : c.All P) (index : UInt32) :
    (c.invalidate index).All P := by
  intro e he
  exact h e (mem_of_mem_filter he)

theorem All.get (h : c.All P) (index : UInt32) : (c.get index).1.All P ∧
      ∀ data, (c.get index).2 = some data → P index data := by
  unfold PieceCache.get
  split
  next => exact ⟨h, nofun⟩
  next e he =>
    have hmem := mem_of_find?_eq_some he
    have hkey : e.1 = index := by simpa using find?_some he
    refine ⟨?_, ?_⟩
    · intro e' he'
      rcases mem_cons.mp he' with rfl | he'
      · exact h _ hmem
      · exact h.invalidate index e' he'
    · rintro data ⟨rfl⟩
      rw [← hkey]
      exact h e hmem

theorem All.insert (h : c.All P) {index : UInt32} {data : Bytes}
    (hnew : P index data) : (c.insert index data).All P := by
  intro e he
  rcases mem_cons.mp (mem_of_mem_take he) with rfl | he
  · exact hnew
  · exact h.invalidate index e he

/-! ## Runs -/

inductive Op where
  | get (index : UInt32)
  | insert (index : UInt32) (data : Bytes)
  | invalidate (index : UInt32)

def Op.index : Op → UInt32
  | .get index | .insert index _ | .invalidate index => index

def perform (c : PieceCache) : Op → PieceCache
  | .get index => (c.get index).1
  | .insert index data => c.insert index data
  | .invalidate index => c.invalidate index

open List

/-- The piece `index` is cached, and only `others` were used after it. -/
def Ranked (others : List UInt32) (index : UInt32) (data : Bytes)
    (c : PieceCache) : Prop :=
  ∃ recent older, c.entries = recent ++ (index, data) :: older ∧
    (recent.map Prod.fst).Nodup ∧ ∀ e ∈ recent, e.1 ∈ others

variable {others : List UInt32} {index : UInt32} {data : Bytes}

section

variable (hnot : index ∉ others) (h : Ranked others index data c)

include hnot h

theorem Ranked.find :
    c.entries.find? (fun e => e.1 = index) = some (index, data) := by
  obtain ⟨recent, older, heq, -, hmem⟩ := h
  have hnone : recent.find? (fun e => e.1 = index) = none := by
    rw [find?_eq_none]
    intro e he hkey
    exact hnot (of_decide_eq_true hkey ▸ hmem e he)
  rw [heq, find?_append, hnone]
  simp

theorem Ranked.split {i : UInt32} (hi : i ∈ others) : ∃ recent older,
    (c.invalidate i).entries = recent ++ (index, data) :: older ∧
      (i :: recent.map Prod.fst).Nodup ∧ ∀ e ∈ recent, e.1 ∈ others := by
  obtain ⟨recent, older, heq, hnodup, hmem⟩ := h
  have hne : index ≠ i := fun heq => hnot (heq ▸ hi)
  refine ⟨recent.filter (·.1 ≠ i), older.filter (·.1 ≠ i), ?_, ?_, ?_⟩
  · simp [PieceCache.invalidate, heq, hne]
  · refine nodup_cons.mpr ⟨by simp, ?_⟩
    exact hnodup.sublist (filter_sublist.map _)
  · exact fun e he => hmem e (mem_of_mem_filter he)

theorem Ranked.perform (hcap : others.length < c.capacity) {op : Op}
    (hop : op.index ∈ others ∨ op = .get index) :
    Ranked others index data (c.perform op) := by
  rcases hop with hi | rfl
  · obtain ⟨recent, older, heq, hnodup, hmem⟩ := h.split hnot hi
    have hin (d : Bytes) : ∀ e ∈ (op.index, d) :: recent, e.1 ∈ others :=
      forall_mem_cons.mpr ⟨hi, hmem⟩
    cases op with
    | get i =>
      rw [PieceCache.perform, PieceCache.get]
      split
      next => exact h
      next e he =>
        obtain rfl : e.1 = i := by simpa using find?_some he
        exact ⟨e :: recent, older, congrArg _ heq, hnodup, hin e.2⟩
    | insert i d =>
      have hlen : recent.length + 1 ≤ others.length := by
        have hsub : i :: recent.map Prod.fst ⊆ others := by
          simpa [subset_def, Op.index] using hin d
        simpa using (subperm_of_subset hnodup hsub).length_le
      obtain ⟨k, hk⟩ := Nat.exists_eq_add_of_lt (Nat.lt_of_le_of_lt hlen hcap)
      refine ⟨(i, d) :: recent, older.take k, ?_, hnodup, hin d⟩
      change ((i, d) :: (c.invalidate i).entries).take c.capacity = _
      rw [show (c.invalidate i).entries = _ from heq, hk, ← cons_append,
        Nat.add_assoc, ← length_cons, take_length_add_append, take_succ_cons]
    | invalidate i => exact ⟨recent, older, heq, hnodup.of_cons, hmem⟩
  · rw [PieceCache.perform, PieceCache.get, h.find hnot]
    exact ⟨[], _, rfl, nodup_nil, nofun⟩

end

end PieceCache

end RustyTorrent.Storage
