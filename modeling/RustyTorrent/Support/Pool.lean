import Mathlib.Algebra.Order.BigOperators.Group.List
import Mathlib.Algebra.Order.Ring.Nat
import RustyTorrent.Support.Run

/-!
# Pools of processes over shared memory

A pool is a shared memory and a list of processes.  A step lets one process
act on its own state and on the memory; processes may join at any time.  A run
is any interleaving of such steps.

Two rules carry what one step keeps to every run: a property of single
processes (`Pool.forall_parts`), and the balance of a shared counter against
what the processes hold (`Pool.balanced`).
-/

namespace RustyTorrent

open List

/-- A shared memory and the processes that use it. -/
structure Pool (μ π : Type) where
  shared : μ
  parts : List π

namespace Pool

variable {μ π ε : Type}

/-- One step of a pool: a process joins, or process `i` handles an event. -/
inductive Action (π ε : Type) where
  | spawn (p : π)
  | act (i : ℕ) (e : ε)

/-- How the processes of a pool behave. -/
structure Behaviour (μ π ε : Type) where
  initial : π → Prop
  may : μ → ε → Prop
  step : μ → π → ε → μ × π

variable (b : Behaviour μ π ε)

/-- The pool after an action.  An event for no process changes nothing. -/
def next (s : Pool μ π) : Action π ε → Pool μ π
  | .spawn p => { s with parts := s.parts ++ [p] }
  | .act i e =>
    match s.parts[i]? with
    | none => s
    | some p =>
      let r := b.step s.shared p e
      { shared := r.1, parts := s.parts.set i r.2 }

def may (s : Pool μ π) : Action π ε → Prop
  | .spawn p => b.initial p
  | .act _ e => b.may s.shared e

/-- Every interleaving of the processes' steps. -/
def system : System (Pool μ π) (Action π ε) := ⟨next b, may b⟩

/-- What the processes hold together. -/
def total (held : π → ℕ) (parts : List π) : ℕ := (parts.map held).sum

theorem total_append (held : π → ℕ) (parts : List π) (p : π) :
    total held (parts ++ [p]) = total held parts + held p := by
  simp [total]

variable {i : ℕ} {p : π} {s : Pool μ π}

theorem total_set (held : π → ℕ) {parts : List π}
    (q : π) (h : parts[i]? = some p) :
    total held (parts.set i q) + held p = total held parts + held q := by
  induction parts generalizing i with
  | nil => simp at h
  | cons x parts ih =>
    cases i with
    | zero =>
      obtain rfl : x = p := by simpa using h
      simp only [total, set_cons_zero, map_cons, sum_cons]
      omega
    | succ i =>
      have htail := ih (i := i) (by simpa using h)
      simp only [total, set_cons_succ, map_cons, sum_cons] at htail ⊢
      omega

theorem held_le_total (held : π → ℕ) {parts : List π}
    (h : parts[i]? = some p) : held p ≤ total held parts :=
  single_le_sum (fun _ _ => Nat.zero_le _) _
    (mem_map_of_mem (mem_of_getElem? h))

variable {b}

theorem next_spawn (s : Pool μ π) (p : π) :
    (system b).next s (.spawn p) = ⟨s.shared, s.parts ++ [p]⟩ := rfl

theorem next_act_none (e : ε)
    (h : s.parts[i]? = none) : (system b).next s (.act i e) = s := by
  change next b s (.act i e) = s
  rw [next, h]

theorem next_act_some (e : ε) (h : s.parts[i]? = some p) :
    (system b).next s (.act i e) =
      ⟨(b.step s.shared p e).1, s.parts.set i (b.step s.shared p e).2⟩ := by
  change next b s (.act i e) = _
  rw [next, h]

/-- A property of processes that holds when they join and that their own
steps keep, holds of every process in every reachable pool. -/
theorem forall_parts {P : π → Prop} {m : μ} (hinit : ∀ p, b.initial p → P p)
    (hstep : ∀ m p e, P p → b.may m e → P (b.step m p e).2)
    (h : (system b).Reach ⟨m, []⟩ s) : ∀ p ∈ s.parts, P p := by
  refine h.invariant (P := fun s => ∀ p ∈ s.parts, P p) (by simp)
    fun s a hs ha => ?_
  cases a with
  | spawn q =>
    intro p hp
    rcases mem_append.mp hp with hp | hp
    · exact hs p hp
    · obtain rfl : p = q := by simpa using hp
      exact hinit p ha
  | act i e =>
    cases hq : s.parts[i]? with
    | none => rwa [next_act_none e hq]
    | some q =>
      rw [next_act_some e hq]
      intro p hp
      rcases mem_or_eq_of_mem_set hp with hp | rfl
      · exact hs p hp
      · exact hstep _ q e (hs q (mem_of_getElem? hq)) ha

/-- A counter from which every step takes, or gives back, exactly what its
process gains or loses counts what the processes hold, and stays below a
ceiling that every step respects. -/
theorem balanced {P : π → Prop} {held : π → ℕ} {value : μ → ℕ} {cap : ℕ} {m : μ}
    (hm : value m = 0) (hinit : ∀ p, b.initial p → P p ∧ held p = 0)
    (hkeep : ∀ m p e, P p → b.may m e → P (b.step m p e).2)
    (hstep : ∀ m p e, P p → b.may m e → held p ≤ value m → value m ≤ cap →
      value (b.step m p e).1 + held p = value m + held (b.step m p e).2 ∧
        value (b.step m p e).1 ≤ cap) (h : (system b).Reach ⟨m, []⟩ s) :
    value s.shared = total held s.parts ∧ value s.shared ≤ cap := by
  induction h with
  | refl => simp [hm, total]
  | @step t a ht ha ih =>
    obtain ⟨hval, hcap⟩ := ih
    cases a with
    | spawn p =>
      have hp : held p = 0 := (hinit p ha).2
      rw [next_spawn]
      refine ⟨?_, hcap⟩
      rw [total_append, hp, ← hval, Nat.add_zero]
    | act i e =>
      cases hq : t.parts[i]? with
      | none =>
        rw [next_act_none e hq]
        exact ⟨hval, hcap⟩
      | some p =>
        have hP : P p := forall_parts (fun p hp => (hinit p hp).1)
          hkeep ht p (mem_of_getElem? hq)
        have hheld : held p ≤ value t.shared :=
          (held_le_total held hq).trans_eq hval.symm
        obtain ⟨hsum, hle⟩ := hstep t.shared p e hP ha hheld hcap
        have hset := total_set held (b.step t.shared p e).2 hq
        rw [next_act_some e hq]
        refine ⟨?_, hle⟩
        dsimp only
        omega

end Pool

end RustyTorrent
