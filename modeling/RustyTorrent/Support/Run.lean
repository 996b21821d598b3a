import Mathlib.Data.List.Induction

/-!
# Runs of a system

A system takes an action in a state to the next state; a predicate says which
actions may be taken where.  A property that holds at the start and is kept by
every permitted action holds in every state a run reaches
(`Reach.invariant`).  If each action keeps a property exactly under a
condition, a run keeps it exactly when the condition holds at each of its
actions (`after_iff_along`); two conditions on actions that agree wherever an
invariant holds agree along a run (`along_iff_along`).
-/

namespace RustyTorrent

/-- A system: what an action does, and when it may be taken. -/
structure System (σ α : Type) where
  next : σ → α → σ
  may : σ → α → Prop

namespace System

variable {σ α : Type} (sys : System σ α)

/-- The states that runs from a given state reach. -/
inductive Reach (s : σ) : σ → Prop where
  | refl : Reach s s
  | step {t : σ} (a : α) (h : Reach s t) (ha : sys.may t a) :
      Reach s (sys.next t a)

/-- A list of actions, each of which may be taken when its turn comes. -/
def Allowed : σ → List α → Prop
  | _, [] => True
  | s, a :: as => sys.may s a ∧ Allowed (sys.next s a) as

/-- A condition that each action of a list meets when its turn comes. -/
def Along (P : σ → α → Prop) : σ → List α → Prop
  | _, [] => True
  | s, a :: as => P s a ∧ Along P (sys.next s a) as

/-- The state after a list of actions. -/
def after (s : σ) (as : List α) : σ := as.foldl sys.next s

instance decidableAllowed [∀ s a, Decidable (sys.may s a)] :
    (s : σ) → (as : List α) → Decidable (sys.Allowed s as)
  | _, [] => inferInstanceAs (Decidable True)
  | s, a :: as =>
    have := decidableAllowed (sys.next s a) as
    inferInstanceAs (Decidable (sys.may s a ∧ sys.Allowed _ as))

instance decidableAlong (P : σ → α → Prop) [∀ s a, Decidable (P s a)] :
    (s : σ) → (as : List α) → Decidable (sys.Along P s as)
  | _, [] => inferInstanceAs (Decidable True)
  | s, a :: as =>
    have := decidableAlong P (sys.next s a) as
    inferInstanceAs (Decidable (P s a ∧ sys.Along P _ as))

variable {sys} {s : σ} {as : List α} {I : σ → Prop}

theorem Reach.invariant {P : σ → Prop} {t : σ} (h : sys.Reach s t) (hs : P s)
    (hstep : ∀ s a, P s → sys.may s a → P (sys.next s a)) : P t := by
  induction h with
  | refl => exact hs
  | step a _ ha ih => exact hstep _ a ih ha

theorem Reach.trans {t u : σ} (h : sys.Reach s t) (h' : sys.Reach t u) :
    sys.Reach s u := by
  induction h' with
  | refl => exact h
  | step a _ ha ih => exact ih.step a ha

theorem Reach.of_allowed (h : sys.Allowed s as) :
    sys.Reach s (sys.after s as) := by
  induction as generalizing s with
  | nil => exact .refl
  | cons a as ih =>
    have hone : sys.Reach s (sys.next s a) := Reach.refl.step a h.1
    exact hone.trans (ih h.2)

theorem Allowed.of_forall (h : ∀ s a, sys.may s a) (s : σ) (as : List α) :
    sys.Allowed s as := by
  induction as generalizing s with
  | nil => trivial
  | cons a as ih => exact ⟨h s a, ih _⟩

@[simp] theorem after_cons (s : σ) (a : α) (as : List α) :
    sys.after s (a :: as) = sys.after (sys.next s a) as := rfl

@[simp] theorem after_append (s : σ) (as : List α) (a : α) :
    sys.after s (as ++ [a]) = sys.next (sys.after s as) a := by
  rw [after, after, List.foldl_append]
  rfl

variable {P : σ → α → Prop}

theorem along_append {a : α} :
    sys.Along P s (as ++ [a]) ↔ sys.Along P s as ∧ P (sys.after s as) a := by
  induction as generalizing s with
  | nil => exact and_comm
  | cons b as ih =>
    rw [List.cons_append, Along, Along, ih, and_assoc]
    rfl

/-- A property that the permitted actions keep under a condition holds after
every run whose actions all meet the condition. -/
theorem Along.invariant
    (hkeep : ∀ s a, I s → sys.may s a → P s a → I (sys.next s a)) (hs : I s)
    (h : sys.Allowed s as) (hP : sys.Along P s as) : I (sys.after s as) := by
  induction as generalizing s with
  | nil => exact hs
  | cons a as ih => exact ih (hkeep s a hs h.1 hP.1) h.2 hP.2

theorem allowed_iff_along : sys.Allowed s as ↔ sys.Along sys.may s as := by
  induction as generalizing s with
  | nil => rfl
  | cons a as ih => rw [Allowed, Along, ih]

theorem allowed_append {a : α} : sys.Allowed s (as ++ [a]) ↔
      sys.Allowed s as ∧ sys.may (sys.after s as) a := by
  rw [allowed_iff_along, allowed_iff_along, along_append]

theorem Allowed.history {P : List α → σ → Prop} (hstart : P [] s)
    (hstep : ∀ as a, sys.Allowed s as → P as (sys.after s as) →
      sys.may (sys.after s as) a → P (as ++ [a]) (sys.next (sys.after s as) a))
    (h : sys.Allowed s as) : P as (sys.after s as) := by
  induction as using List.reverseRecOn with
  | nil => exact hstart
  | append_singleton as a ih =>
    obtain ⟨has, ha⟩ := allowed_append.mp h
    rw [after_append]
    exact hstep as a has (ih has) ha

/-- Two conditions that agree where an invariant holds, if the first keeps it,
agree along a run. -/
theorem along_iff_along {Q : σ → α → Prop}
    (hkeep : ∀ s a, I s → sys.may s a → P s a → I (sys.next s a))
    (hexact : ∀ s a, I s → sys.may s a → (P s a ↔ Q s a)) (hs : I s)
    (h : sys.Allowed s as) : sys.Along P s as ↔ sys.Along Q s as := by
  induction as generalizing s with
  | nil => rfl
  | cons a as ih =>
    rw [Along, Along, ← hexact s a hs h.1]
    exact and_congr_right fun hP => ih (hkeep s a hs h.1 hP) h.2

theorem after_iff_along {Q : σ → Prop}
    (hkeep : ∀ s a, I s → sys.may s a → I (sys.next s a))
    (hexact : ∀ s a, I s → sys.may s a → (Q (sys.next s a) ↔ Q s ∧ P s a))
    (hs : I s) (h : sys.Allowed s as) :
    Q (sys.after s as) ↔ Q s ∧ sys.Along P s as := by
  induction as generalizing s with
  | nil => exact (and_iff_left trivial).symm
  | cons a as ih =>
    have htail := ih (hkeep s a hs h.1) h.2
    have hhead := hexact s a hs h.1
    exact htail.trans ((and_congr_left fun _ => hhead).trans and_assoc)

end System

end RustyTorrent
