import Mathlib.Logic.Function.Basic

/-!
# Stores updated by lists of writes

A store is a partial function from addresses to values.  `putAll` performs a
list of writes in order, so the last write to an address wins.
-/

namespace RustyTorrent.KeyedStore

open List Function

variable {α β : Type*} [DecidableEq α]

/-- Perform the writes from left to right. -/
def putAll (m : α → Option β) (ws : List (α × β)) : α → Option β :=
  ws.foldl (fun m w => Function.update m w.1 (some w.2)) m

@[simp] theorem putAll_nil (m : α → Option β) : putAll m [] = m := rfl

@[simp] theorem putAll_cons (m : α → Option β) (w : α × β) (ws : List (α × β)) :
    putAll m (w :: ws) = putAll (update m w.1 (some w.2)) ws := rfl

variable {m : α → Option β} {ws : List (α × β)}

theorem putAll_of_not_mem {a : α}
    (h : a ∉ ws.map Prod.fst) : putAll m ws a = m a := by
  induction ws generalizing m with
  | nil => rfl
  | cons w ws ih =>
    rw [map_cons, mem_cons, not_or] at h
    rw [putAll_cons, ih h.2, update_of_ne h.1]

theorem map_putAll_of_nodup {as : List α} {bs : List β}
    (hnodup : as.Nodup) (hlen : as.length = bs.length) :
    as.map (putAll m (as.zip bs)) = bs.map some := by
  induction as generalizing bs m with
  | nil =>
    have hbs : bs = [] := eq_nil_of_length_eq_zero hlen.symm
    simp [hbs]
  | cons a as ih =>
    cases bs with
    | nil => simp at hlen
    | cons b bs =>
      obtain ⟨hfresh, hrest⟩ := nodup_cons.mp hnodup
      have hnot : a ∉ (as.zip bs).map Prod.fst := by
        intro hmem
        obtain ⟨w, hw, rfl⟩ := mem_map.mp hmem
        exact hfresh (of_mem_zip hw).1
      rw [zip_cons_cons, putAll_cons, map_cons, map_cons,
        ih hrest (by simpa using hlen), putAll_of_not_mem hnot,
        update_self]

theorem map_putAll_of_disjoint {as : List α}
    (h : ∀ a ∈ as, a ∉ ws.map Prod.fst) :
    as.map (putAll m ws) = as.map m := by
  apply map_congr_left
  intro a ha
  exact putAll_of_not_mem (h a ha)

end RustyTorrent.KeyedStore
