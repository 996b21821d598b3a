import RustyTorrent.Support.Program

/-!
# Two programs that talk to each other

Two programs are connected by two reliable, ordered, unbounded channels.  A
step sends or receives a single symbol, and the two sides take their steps in
any order.  A read or a write of several symbols at once is several steps in a
row, so the runs of a dialogue cover every way the streams can be split.

Steps of different sides commute.  A dialogue that can end in a state without
further steps therefore always does: no run is longer than that one, and a run
that cannot go on has arrived there (`Dialogue.Completes`,
`Dialogue.completes_of_reaches`).
-/

namespace RustyTorrent

open List ByteStream Nat Program

/-! ## Relations with the diamond property -/

section Diamond

variable {τ : Type} (R : τ → τ → Prop)

/-- `n` steps of a relation. -/
inductive StepsIn : ℕ → τ → τ → Prop where
  | refl (t : τ) : StepsIn 0 t t
  | head {n : ℕ} {t u v : τ} (h : R t u) (hs : StepsIn n u v) :
      StepsIn (n + 1) t v

variable {R}

theorem StepsIn.of_reflTransGen {t u : τ} (h : Relation.ReflTransGen R t u) :
    ∃ n, StepsIn R n t u := by
  induction h using Relation.ReflTransGen.head_induction_on with
  | refl => exact ⟨0, .refl u⟩
  | head hstep _ ih =>
    obtain ⟨n, hn⟩ := ih
    exact ⟨n + 1, .head hstep hn⟩

/-- Two different steps from one state can be joined by one step each. -/
def Diamond (R : τ → τ → Prop) : Prop :=
  ∀ t u v, R t u → R t v → u = v ∨ ∃ w, R u w ∧ R v w

theorem Diamond.steps_pred (hR : Diamond R) {n : ℕ} {t u final : τ}
    (h : StepsIn R n t final) (hfinal : ∀ v, ¬ R final v) (hu : R t u) :
    ∃ m, n = m + 1 ∧ StepsIn R m u final := by
  induction h generalizing u with
  | refl t => exact absurd hu (hfinal u)
  | @head n t v final hv hs ih =>
    refine ⟨n, rfl, ?_⟩
    rcases hR t u v hu hv with rfl | ⟨w, huw, hvw⟩
    · exact hs
    · obtain ⟨m, rfl, hm⟩ := ih hfinal hvw
      exact .head huw hm

theorem Diamond.steps_le (hR : Diamond R) {n k : ℕ} {t u final : τ}
    (h : StepsIn R n t final) (hfinal : ∀ v, ¬ R final v)
    (hu : StepsIn R k t u) : ∃ m, n = k + m ∧ StepsIn R m u final := by
  induction hu generalizing n with
  | refl t => exact ⟨n, (zero_add n).symm, h⟩
  | @head k t v u hv hs ih =>
    obtain ⟨m, rfl, hm⟩ := hR.steps_pred h hfinal hv
    obtain ⟨m', rfl, hm'⟩ := ih hm
    exact ⟨m', by omega, hm'⟩

end Diamond

/-! ## Single steps -/

namespace Program

variable {σ ε ε' α β : Type}

/-- One step of a program with the unread symbols `inbox`: the program after
it, the symbols still unread, and the symbols it sends. -/
def step : Program σ ε α → List σ → Option (Program σ ε α × List σ × List σ)
  | .done _, _ => none
  | .fail _, _ => none
  | .write [] next, inbox => some (next, inbox, [])
  | .write (c :: b) next, inbox => some (.write b next, inbox, [c])
  | .read 0 next, inbox => some (next [], inbox, [])
  | .read (_ + 1) _, [] => none
  | .read (n + 1) next, c :: inbox =>
    some (.read n fun b => next (c :: b), inbox, [])

@[simp] theorem step_write_nil (next : Program σ ε α) (inbox : List σ) :
    (write [] next).step inbox = some (next, inbox, []) := rfl

@[simp] theorem step_write_cons (c : σ) (b : List σ) (next : Program σ ε α)
    (inbox : List σ) :
    (write (c :: b) next).step inbox = some (write b next, inbox, [c]) := rfl

@[simp] theorem step_read_zero (next : List σ → Program σ ε α)
    (inbox : List σ) :
    (read 0 next).step inbox = some (next [], inbox, []) := rfl

@[simp] theorem step_read_succ (n : ℕ) (next : List σ → Program σ ε α)
    (c : σ) (inbox : List σ) :
    (read (n + 1) next).step (c :: inbox) =
      some (read n fun b => next (c :: b), inbox, []) := rfl

variable {p p' : Program σ ε α} {inbox inbox' out inbox'' : List σ} {a : α}
  {w : Wire σ ε}

theorem step_append
    (h : p.step inbox = some (p', inbox', out)) (more : List σ) :
    p.step (inbox ++ more) = some (p', inbox' ++ more, out) := by
  revert h
  fun_cases step p inbox with
  | case1 | case2 | case6 => nofun
  | case3 | case4 | case5 | case7 =>
    rintro ⟨⟩
    rfl

theorem step_bind
    (h : p.step inbox = some (p', inbox', out)) (f : α → Program σ ε β) :
    (p >>= f).step inbox = some (p' >>= f, inbox', out) := by
  revert h
  fun_cases step p inbox with
  | case1 | case2 | case6 => nofun
  | case3 | case4 | case5 | case7 =>
    rintro ⟨⟩
    rfl

/-- A program goes, in any number of steps, from one state to another, and
sends `out` on the way. -/
inductive Goes : Program σ ε α → List σ → Program σ ε α → List σ →
    List σ → Prop where
  | refl (p : Program σ ε α) (inbox : List σ) : Goes p inbox p inbox []
  | head {p p' p'' : Program σ ε α}
      {inbox inbox' inbox'' out out' : List σ}
      (h : p.step inbox = some (p', inbox', out))
      (hs : Goes p' inbox' p'' inbox'' out') :
      Goes p inbox p'' inbox'' (out ++ out')

theorem Goes.trans {p'' : Program σ ε α} {out' : List σ}
    (h : Goes p inbox p' inbox' out) (h' : Goes p' inbox' p'' inbox'' out') :
    Goes p inbox p'' inbox'' (out ++ out') := by
  induction h with
  | refl p inbox => exact h'
  | head hstep _ ih =>
    rw [append_assoc]
    exact .head hstep (ih h')

theorem Goes.write (b : List σ) (next : Program σ ε α) (inbox : List σ) :
    Goes (.write b next) inbox next inbox b := by
  induction b with
  | nil => exact .head (step_write_nil next inbox) (.refl next inbox)
  | cons c b ih => exact .head (step_write_cons c b next inbox) ih

theorem Goes.read (b : List σ) (next : List σ → Program σ ε α)
    (inbox : List σ) :
    Goes (.read b.length next) (b ++ inbox) (next b) inbox [] := by
  induction b generalizing next with
  | nil => exact .head (step_read_zero next inbox) (.refl _ inbox)
  | cons c b ih =>
    exact .head (step_read_succ b.length next c (b ++ inbox))
      (ih fun b => next (c :: b))

theorem Goes.bind (h : Goes p inbox p' inbox' out) (f : α → Program σ ε β) :
    Goes (p >>= f) inbox (p' >>= f) inbox' out := by
  induction h with
  | refl p inbox => exact .refl _ inbox
  | head hstep _ ih => exact .head (step_bind hstep f) ih

theorem Goes.seq {f : α → Program σ ε β} {r : Program σ ε β} {out' : List σ}
    (h : Goes p inbox (.done a) inbox' out)
    (h' : Goes (f a) inbox' r inbox'' out') :
    Goes (p >>= f) inbox r inbox'' (out ++ out') :=
  (h.bind f).trans h'

/-! ## Runs and steps -/

/-- Two views of a connection that differ only in how the stream is cut. -/
structure Wire.Same (w w' : Wire σ ε) : Prop where
  symbols : w.symbols = w'.symbols
  ending : w.ending = w'.ending
  faults : w.faults = w'.faults

theorem run_congr (p : Program σ ε α) {w' : Wire σ ε} (h : w.Same w') :
    (p.run w).result = (p.run w').result ∧
      (p.run w).wire.symbols = (p.run w').wire.symbols := by
  induction p generalizing w w' with
  | done | fail => exact ⟨rfl, h.symbols⟩
  | write b next ih =>
    have hfault : w.nextFault = w'.nextFault := by
      rw [Wire.nextFault, Wire.nextFault, h.faults]
    have hafter : w.afterWrite.Same w'.afterWrite :=
      ⟨h.symbols, h.ending, congrArg List.tail h.faults⟩
    cases hw : w'.nextFault with
    | some e =>
      rw [run_write_some hw, run_write_some (hfault.trans hw)]
      exact ⟨rfl, h.symbols⟩
    | none =>
      rw [run_write_none hw, run_write_none (hfault.trans hw)]
      exact ih hafter
  | read n next ih =>
    rcases lt_or_ge w.symbols.length n with hlt | hle
    · have hlt' : w'.symbols.length < n := h.symbols ▸ hlt
      rw [run_read_none (readExact_of_lt hlt),
        run_read_none (readExact_of_lt hlt')]
      exact ⟨congrArg Except.error h.ending, h.symbols⟩
    · have hle' : n ≤ w'.symbols.length := h.symbols ▸ hle
      obtain ⟨left, hread, hleft⟩ := readExact_of_le hle
      obtain ⟨left', hread', hleft'⟩ := readExact_of_le hle'
      have hsame : w.incoming.flatten = w'.incoming.flatten := h.symbols
      rw [hsame] at hread hleft
      rw [run_read_some hread, run_read_some hread']
      exact ih _ ⟨hleft.trans hleft'.symm, h.ending, h.faults⟩

/-- Two runs that end in the same way and, when they return, leave the same
symbols unread. -/
def Trace.Agree (t t' : Trace σ ε α) : Prop :=
  t.result = t'.result ∧
    ∀ a, t.result = .ok a → t.wire.symbols = t'.wire.symbols

theorem Trace.Agree.trans {t t' t'' : Trace σ ε α} (h : t.Agree t')
    (h' : t'.Agree t'') : t.Agree t'' :=
  ⟨h.1.trans h'.1, fun a ha =>
    (h.2 a ha).trans (h'.2 a (h.1.symm.trans ha))⟩

theorem run_read_succ {n : ℕ} {next : List σ → Program σ ε α} {c : σ}
    {rest : List σ} (hsym : w.symbols = c :: rest) :
    ((read (n + 1) next).run w).Agree
      ((read n fun b => next (c :: b)).run (w.afterRead [rest])) := by
  have hflat : w.incoming.flatten = c :: rest := hsym
  have hrest : (w.afterRead [rest]).incoming.flatten = rest :=
    append_nil rest
  rcases lt_or_ge rest.length n with hlt | hle
  · have hshort : w.incoming.flatten.length < n + 1 := by
      rw [hflat, length_cons]
      omega
    have hshort' : (w.afterRead [rest]).incoming.flatten.length < n := by
      rwa [hrest]
    rw [run_read_none (readExact_of_lt hshort),
      run_read_none (readExact_of_lt hshort')]
    exact ⟨rfl, nofun⟩
  · have hlong : n + 1 ≤ w.incoming.flatten.length := by
      rw [hflat, length_cons]
      omega
    have hlong' : n ≤ (w.afterRead [rest]).incoming.flatten.length := by
      rwa [hrest]
    obtain ⟨left, hread, hleft⟩ := readExact_of_le hlong
    obtain ⟨left', hread', hleft'⟩ := readExact_of_le hlong'
    rw [hflat, take_succ_cons] at hread
    rw [hflat, drop_succ_cons] at hleft
    rw [hrest] at hread' hleft'
    rw [run_read_some hread, run_read_some hread']
    have hsame : (w.afterRead left).Same
        ((w.afterRead [rest]).afterRead left') :=
      ⟨hleft.trans hleft'.symm, rfl, rfl⟩
    obtain ⟨hres, hwire⟩ := run_congr (next (c :: rest.take n)) hsame
    exact ⟨hres, fun _ _ => hwire⟩

theorem run_step (hw : w.faults = [])
    (h : p.step w.symbols = some (p', inbox, out)) :
    ∃ w' : Wire σ ε, w'.symbols = inbox ∧ w'.faults = [] ∧
      (p.run w).Agree (p'.run w') := by
  have hfault : w.nextFault = none := by rw [Wire.nextFault, hw]; rfl
  have htail : w.afterWrite.faults = [] := by
    rw [Wire.afterWrite, hw]
    rfl
  cases p with
  | done | fail => cases h
  | write b next =>
    cases b with
    | nil =>
      cases h
      refine ⟨w.afterWrite, rfl, htail, ?_⟩
      rw [run_write_none hfault]
      exact ⟨rfl, fun _ _ => rfl⟩
    | cons c b =>
      cases h
      refine ⟨w, rfl, hw, ?_⟩
      rw [run_write_none hfault, run_write_none hfault]
      exact ⟨rfl, fun _ _ => rfl⟩
  | read n next =>
    cases n with
    | zero =>
      cases h
      obtain ⟨left, hread, hleft⟩ :=
        readExact_of_le (zero_le w.incoming.flatten.length)
      refine ⟨w.afterRead left, hleft, hw, ?_⟩
      rw [run_read_some hread]
      exact ⟨rfl, fun _ _ => rfl⟩
    | succ n =>
      cases hsym : w.symbols with
      | nil =>
        rw [hsym] at h
        cases h
      | cons c rest =>
        rw [hsym] at h
        obtain ⟨rfl, rfl, rfl⟩ :
            (read n fun b => next (c :: b)) = p' ∧ rest = inbox ∧ [] = out := by
          simpa using h
        exact ⟨w.afterRead [rest], append_nil rest, hw, run_read_succ hsym⟩

/-- How a run over working writes ends is how it ends from any state it goes
through. -/
theorem Goes.run (h : Goes p inbox p' inbox' out) (hw : w.faults = [])
    (hsym : w.symbols = inbox) :
    ∃ w' : Wire σ ε, w'.symbols = inbox' ∧ w'.faults = [] ∧
      (p.run w).Agree (p'.run w') := by
  induction h generalizing w with
  | refl p inbox => exact ⟨w, hsym, hw, rfl, fun _ _ => rfl⟩
  | head hstep _ ih =>
    rw [← hsym] at hstep
    obtain ⟨w₁, hsym₁, hw₁, hagree₁⟩ := run_step hw hstep
    obtain ⟨w₂, hsym₂, hw₂, hagree₂⟩ := ih hw₁ hsym₁
    exact ⟨w₂, hsym₂, hw₂, hagree₁.trans hagree₂⟩

theorem Goes.run_done (h : Goes p inbox (.done a) inbox' out)
    (hw : w.faults = []) (hsym : w.symbols = inbox) :
    (p.run w).result = .ok a ∧ (p.run w).wire.symbols = inbox' := by
  obtain ⟨w', hsym', -, hres, hwire⟩ := h.run hw hsym
  exact ⟨hres, (hwire a hres).trans hsym'⟩

end Program

/-! ## Dialogues -/

/-- Two programs and the symbols on their way to each of them. -/
structure Dialogue (σ ε ε' α β : Type) where
  left : Program σ ε α
  right : Program σ ε' β
  toLeft : List σ
  toRight : List σ

namespace Dialogue

variable {σ ε ε' α β : Type}

/-- One side takes a step. -/
inductive Step : Dialogue σ ε ε' α β → Dialogue σ ε ε' α β → Prop where
  | left {p p' : Program σ ε α} {q : Program σ ε' β}
      {toLeft toRight inbox out : List σ}
      (h : p.step toLeft = some (p', inbox, out)) :
      Step ⟨p, q, toLeft, toRight⟩ ⟨p', q, inbox, toRight ++ out⟩
  | right {p : Program σ ε α} {q q' : Program σ ε' β}
      {toLeft toRight inbox out : List σ}
      (h : q.step toRight = some (q', inbox, out)) :
      Step ⟨p, q, toLeft, toRight⟩ ⟨p, q', toLeft ++ out, inbox⟩

theorem step_diamond : Diamond (@Step σ ε ε' α β) := by
  intro t u v hu hv
  cases hu with
  | left hp =>
    cases hv with
    | left hp' =>
      cases hp.symm.trans hp'
      exact .inl rfl
    | right hq =>
      exact .inr ⟨_, .right (step_append hq _), .left (step_append hp _)⟩
  | right hq =>
    cases hv with
    | left hp =>
      exact .inr ⟨_, .left (step_append hp _), .right (step_append hq _)⟩
    | right hq' =>
      cases hq.symm.trans hq'
      exact .inl rfl

theorem not_step_done (a : α) (b : β) (toLeft toRight : List σ)
    (d : Dialogue σ ε ε' α β) :
    ¬ Step ⟨.done a, .done b, toLeft, toRight⟩ d := by
  rintro (h | h)
  · cases h
  · cases h

/-- Every run is finite, with a common bound, and a run that cannot go on has
reached `final`. -/
def Completes (d final : Dialogue σ ε ε' α β) : Prop :=
  ∃ n, ∀ k t, StepsIn Step k d t → k ≤ n ∧ ((∀ u, ¬ Step t u) → t = final)

theorem completes_of_reaches {d final : Dialogue σ ε ε' α β}
    (h : Relation.ReflTransGen Step d final)
    (hfinal : ∀ u, ¬ Step final u) : Completes d final := by
  obtain ⟨n, hn⟩ := StepsIn.of_reflTransGen h
  refine ⟨n, fun k t ht => ?_⟩
  obtain ⟨m, rfl, hm⟩ := step_diamond.steps_le hn hfinal ht
  refine ⟨le_add_right k m, fun hstuck => ?_⟩
  cases hm with
  | refl => rfl
  | head hstep _ => exact absurd hstep (hstuck _)

theorem goes_left {p p' : Program σ ε α} {toLeft inbox out : List σ}
    (h : p.Goes toLeft p' inbox out) (q : Program σ ε' β) (toRight : List σ) :
    Relation.ReflTransGen Step ⟨p, q, toLeft, toRight⟩
      ⟨p', q, inbox, toRight ++ out⟩ := by
  induction h generalizing toRight with
  | refl p inbox => rw [append_nil]
  | head hstep _ ih =>
    rw [← append_assoc]
    exact .head (.left hstep) (ih _)

theorem goes_right {q q' : Program σ ε' β} {toRight inbox out : List σ}
    (h : q.Goes toRight q' inbox out) (p : Program σ ε α) (toLeft : List σ) :
    Relation.ReflTransGen Step ⟨p, q, toLeft, toRight⟩
      ⟨p, q', toLeft ++ out, inbox⟩ := by
  induction h generalizing toLeft with
  | refl q inbox => rw [append_nil]
  | head hstep _ ih =>
    rw [← append_assoc]
    exact .head (.right hstep) (ih _)

end Dialogue

end RustyTorrent
