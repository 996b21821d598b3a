import Mathlib.Algebra.Ring.Nat
import Mathlib.Data.List.Forall2

/-!
# Outcomes of a fallible call

A call of a systems language ends in one of three ways: it returns a value, it
returns an error, or it unwinds.  `Outcome` keeps the three apart, so that
absence of panics is a statement about the model rather than a convention.

The operations that can unwind (checked arithmetic, slicing) are given here
once, together with the exact condition under which they do.
-/

namespace RustyTorrent

/-- The end of a fallible call: a value, an error, or an unwinding panic. -/
inductive Outcome (ε : Type*) (α : Type*) where
  | ok (a : α)
  | err (e : ε)
  | panic
  deriving DecidableEq, Repr

namespace Outcome

universe u v

variable {ε : Type v} {α β γ : Type u}

/-- Sequencing: the first error or panic ends the computation. -/
def bind (x : Outcome ε α) (f : α → Outcome ε β) : Outcome ε β :=
  match x with
  | ok a => f a
  | err e => err e
  | panic => panic

instance : Monad (Outcome ε) where
  pure := ok
  bind := bind

/-- A lookup whose absence is the error `e`. -/
def ofOption (e : ε) : Option α → Outcome ε α
  | some a => ok a
  | none => err e

/-- A guard that fails with `e`. -/
def check (b : Bool) (e : ε) : Outcome ε Unit :=
  if b then ok () else err e

/-- Rewriting the error of a call, leaving values and panics alone. -/
def mapErr {ε' : Type*} (f : ε → ε') : Outcome ε α → Outcome ε' α
  | ok a => ok a
  | err e => err (f e)
  | panic => panic

/-- An assertion: a violated one unwinds. -/
def assert (b : Bool) : Outcome ε Unit :=
  if b then ok () else panic

/-- The slice `xs[n..]`, which unwinds when `n` is past the end. -/
def sliceFrom (n : ℕ) (xs : List α) : Outcome ε (List α) :=
  if n ≤ xs.length then ok (xs.drop n) else panic

/-- The slice `xs[..n]`, which unwinds when `n` is past the end. -/
def sliceTo (n : ℕ) (xs : List α) : Outcome ε (List α) :=
  if n ≤ xs.length then ok (xs.take n) else panic

/-- The slice `xs[a..b]`, which unwinds unless `a ≤ b ≤ xs.len()`. -/
def slice (a b : ℕ) (xs : List α) : Outcome ε (List α) :=
  if a ≤ b ∧ b ≤ xs.length then ok ((xs.drop a).take (b - a)) else panic

/-- The element `xs[i]`, which unwinds when `i` is past the end. -/
def index (i : ℕ) (xs : List α) : Outcome ε α :=
  match xs[i]? with
  | some a => ok a
  | none => panic

/-- The assignment `xs[i] = a`, which unwinds when `i` is past the end. -/
def update (i : ℕ) (a : α) (xs : List α) : Outcome ε (List α) :=
  if i < xs.length then ok (xs.set i a) else panic

/-- Unsigned addition of width `w` with overflow checks on. -/
def checkedAdd (w a b : ℕ) : Outcome ε ℕ :=
  if a + b < 2 ^ w then ok (a + b) else panic

/-- Unsigned multiplication of width `w` with overflow checks on. -/
def checkedMul (w a b : ℕ) : Outcome ε ℕ :=
  if a * b < 2 ^ w then ok (a * b) else panic

/-- Unsigned subtraction with overflow checks on. -/
def checkedSub (a b : ℕ) : Outcome ε ℕ :=
  if b ≤ a then ok (a - b) else panic

/-- The remainder, which unwinds on a zero divisor. -/
def checkedRem (a b : ℕ) : Outcome ε ℕ :=
  if b = 0 then panic else ok (a % b)

/-- Division rounding up. -/
def divCeil (a b : ℕ) : ℕ :=
  if a % b = 0 then a / b else a / b + 1

/-- Division rounding up, which unwinds on a zero divisor. -/
def checkedDivCeil (a b : ℕ) : Outcome ε ℕ :=
  if b = 0 then panic else ok (divCeil a b)

/-- The sum of a list, added up from the left with overflow checks on. -/
def checkedSum (w : ℕ) (acc : ℕ) : List ℕ → Outcome ε ℕ
  | [] => ok acc
  | x :: xs => checkedAdd w acc x >>= fun s => checkedSum w s xs

/-- Apply a fallible function to every element in turn. -/
def traverse (f : α → Outcome ε β) : List α → Outcome ε (List β)
  | [] => ok []
  | x :: xs => f x >>= fun y => traverse f xs >>= fun ys => ok (y :: ys)

@[simp] theorem pure_eq (a : α) : (pure a : Outcome ε α) = ok a := rfl

@[simp] theorem ok_bind (a : α) (f : α → Outcome ε β) :
    (ok a >>= f) = f a := rfl

@[simp] theorem err_bind (e : ε) (f : α → Outcome ε β) :
    ((err e : Outcome ε α) >>= f) = err e := rfl

@[simp] theorem panic_bind (f : α → Outcome ε β) :
    ((panic : Outcome ε α) >>= f) = panic := rfl

variable {f : α → Outcome ε β} {xs : List α} {w i : ℕ} {x : Outcome ε α}
  {a b : ℕ}

theorem bind_eq_ok {b : β} : (x >>= f) = ok b ↔ ∃ a, x = ok a ∧ f a = ok b := by
  cases x with
  | ok | err | panic => simp

/-- A sequence panics exactly when its first half does, or its second half
does on the value of the first. -/
theorem bind_eq_panic :
    (x >>= f) = panic ↔ x = panic ∨ ∃ a, x = ok a ∧ f a = panic := by
  cases x with
  | ok | err | panic => simp

theorem bind_ne_panic (hx : x ≠ panic) (hf : ∀ a, x = ok a → f a ≠ panic)
    : (x >>= f) ≠ panic := by
  intro h
  rcases bind_eq_panic.mp h with h | ⟨a, ha, hp⟩
  · exact hx h
  · exact hf a ha hp

@[simp] theorem ofOption_ne_panic (e : ε) (o : Option α) :
    ofOption e o ≠ panic := by
  cases o <;> simp [ofOption]

@[simp] theorem ofOption_eq_ok {e : ε} {o : Option α} {a : α} :
    ofOption e o = ok a ↔ o = some a := by
  cases o <;> simp [ofOption]

@[simp] theorem check_ne_panic (b : Bool) (e : ε) : check b e ≠ panic := by
  cases b <;> simp [check]

@[simp] theorem check_eq_ok {b : Bool} {e : ε} {u : Unit} :
    check b e = ok u ↔ b = true := by
  cases b <;> simp [check]

/-! ## The operations that can unwind -/

@[simp] theorem assert_true : (assert true : Outcome ε Unit) = ok () := rfl

theorem sliceFrom_of_le {n : ℕ} (h : n ≤ xs.length) :
    (sliceFrom n xs : Outcome ε (List α)) = ok (xs.drop n) :=
  if_pos h

theorem sliceTo_of_le {n : ℕ} (h : n ≤ xs.length) :
    (sliceTo n xs : Outcome ε (List α)) = ok (xs.take n) :=
  if_pos h

theorem checkedAdd_of_lt (h : a + b < 2 ^ w) :
    (checkedAdd w a b : Outcome ε ℕ) = ok (a + b) :=
  if_pos h

theorem checkedMul_of_lt (h : a * b < 2 ^ w) :
    (checkedMul w a b : Outcome ε ℕ) = ok (a * b) :=
  if_pos h

theorem checkedSub_of_le (h : b ≤ a) :
    (checkedSub a b : Outcome ε ℕ) = ok (a - b) :=
  if_pos h

theorem checkedAdd_eq_ok {c : ℕ} :
    (checkedAdd w a b : Outcome ε ℕ) = ok c ↔ a + b < 2 ^ w ∧ a + b = c := by
  unfold checkedAdd
  split
  next h => simp [h]
  next h => simp [h]

theorem checkedMul_eq_ok {c : ℕ} :
    (checkedMul w a b : Outcome ε ℕ) = ok c ↔ a * b < 2 ^ w ∧ a * b = c := by
  unfold checkedMul
  split
  next h => simp [h]
  next h => simp [h]

theorem slice_of_le (hab : a ≤ b) (hb : b ≤ xs.length) :
    (slice a b xs : Outcome ε (List α)) = ok ((xs.drop a).take (b - a)) :=
  if_pos ⟨hab, hb⟩

theorem index_of_lt (h : i < xs.length) :
    (index i xs : Outcome ε α) = ok xs[i] := by
  simp [index, h]

theorem index_eq_ok {a : α} :
    (index i xs : Outcome ε α) = ok a ↔ xs[i]? = some a := by
  unfold index
  cases xs[i]? with
  | none | some => simp

theorem update_of_lt {a : α} (h : i < xs.length) :
    (update i a xs : Outcome ε (List α)) = ok (xs.set i a) :=
  if_pos h

theorem update_eq_ok {a : α} {ys : List α} :
    (update i a xs : Outcome ε (List α)) = ok ys ↔
      i < xs.length ∧ xs.set i a = ys := by
  unfold update
  split
  next h => simp [h]
  next h => simp [h]

theorem checkedRem_of_pos (h : 0 < b) :
    (checkedRem a b : Outcome ε ℕ) = ok (a % b) :=
  if_neg (by omega)

theorem checkedDivCeil_of_pos (h : 0 < b) :
    (checkedDivCeil a b : Outcome ε ℕ) = ok (divCeil a b) :=
  if_neg (by omega)

theorem checkedSum_eq (w acc : ℕ) (xs : List ℕ) (hacc : acc < 2 ^ w) :
    (checkedSum w acc xs : Outcome ε ℕ) =
      if acc + xs.sum < 2 ^ w then ok (acc + xs.sum) else panic := by
  induction xs generalizing acc with
  | nil => simp [checkedSum, hacc]
  | cons x xs ih =>
    rw [checkedSum, List.sum_cons]
    by_cases hx : acc + x < 2 ^ w
    · rw [checkedAdd_of_lt hx, ok_bind, ih _ hx, Nat.add_assoc]
    · have hover : ¬ acc + (x + xs.sum) < 2 ^ w := by omega
      simp [checkedAdd, hx, hover]

/-! ## Traversals -/

theorem traverse_eq_ok {ys : List β} :
    traverse f xs = ok ys ↔ List.Forall₂ (fun x y => f x = ok y) xs ys := by
  induction xs generalizing ys with
  | nil =>
    simp only [traverse, ok.injEq, List.forall₂_nil_left_iff]
    exact eq_comm
  | cons x xs ih =>
    simp only [traverse, bind_eq_ok, ok.injEq, List.forall₂_cons_left_iff]
    constructor
    · rintro ⟨y, hy, zs, hzs, rfl⟩
      exact ⟨y, zs, hy, ih.mp hzs, rfl⟩
    · rintro ⟨y, zs, hy, hzs, rfl⟩
      exact ⟨y, hy, zs, ih.mpr hzs, rfl⟩

theorem exists_of_traverse_eq_ok {ys : List β} (h : traverse f xs = ok ys)
    {x : α} (hx : x ∈ xs) : ∃ y, f x = ok y := by
  induction traverse_eq_ok.mp h with
  | nil => cases hx
  | @cons x' y' xs ys hy hys ih =>
    rcases List.mem_cons.mp hx with rfl | hx
    · exact ⟨y', hy⟩
    · exact ih (traverse_eq_ok.mpr hys) hx

theorem traverse_of_forall {g : α → β}
    (h : ∀ x ∈ xs, f x = ok (g x)) : traverse f xs = ok (xs.map g) := by
  induction xs with
  | nil => rfl
  | cons x xs ih =>
    rw [traverse, h x (by simp), ok_bind, ih fun y hy => h y (by simp [hy])]
    rfl

theorem traverse_ne_panic
    (h : ∀ x ∈ xs, f x ≠ panic) : traverse f xs ≠ panic := by
  induction xs with
  | nil => simp [traverse]
  | cons x xs ih =>
    have hrest := ih fun z hz => h z (by simp [hz])
    simp [traverse, bind_eq_panic, h x (by simp), hrest]

@[simp] theorem traverse_ne_panic_of_forall (h : ∀ x, f x ≠ panic) :
    traverse f xs ≠ panic :=
  traverse_ne_panic fun x _ => h x

end Outcome

end RustyTorrent
