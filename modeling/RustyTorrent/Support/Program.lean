import RustyTorrent.Support.ByteStream

/-!
# Programs that talk over a stream

A program writes symbols, reads an exact number of them, and ends with a value
or an error.  `run` lets it talk to an arbitrary other side, given as the
chunks its reads receive and the outcomes of its writes, and keeps the
transcript.

The other side may close, stay silent or refuse a write: the stream then ends
with an error.
-/

namespace RustyTorrent

/-- A program over symbols `σ`, with errors `ε` and result `α`. -/
inductive Program (σ ε α : Type) where
  | done (a : α)
  | fail (e : ε)
  | write (b : List σ) (next : Program σ ε α)
  | read (n : ℕ) (next : List σ → Program σ ε α)

namespace Program

variable {σ ε α β : Type}

/-- Sequencing: the second program goes on with the result of the first. -/
def bind : Program σ ε α → (α → Program σ ε β) → Program σ ε β
  | .done a, f => f a
  | .fail e, _ => .fail e
  | .write b next, f => .write b (next.bind f)
  | .read n next, f => .read n fun b => (next b).bind f

instance : Monad (Program σ ε) where
  pure := .done
  bind := bind

def writeAll (b : List σ) : Program σ ε Unit := .write b (.done ())

def readExact (n : ℕ) : Program σ ε (List σ) := .read n .done

@[simp] theorem pure_eq (a : α) : (pure a : Program σ ε α) = .done a := rfl

@[simp] theorem done_bind (a : α) (f : α → Program σ ε β) :
    (done a >>= f) = f a := rfl

@[simp] theorem write_bind (b : List σ) (next : Program σ ε α)
    (f : α → Program σ ε β) :
    (write b next >>= f) = write b (next >>= f) := rfl

@[simp] theorem read_bind (n : ℕ) (next : List σ → Program σ ε α)
    (f : α → Program σ ε β) :
    (read n next >>= f) = read n fun b => next b >>= f := rfl

@[simp] theorem writeAll_bind (b : List σ) (f : Unit → Program σ ε β) :
    (writeAll b >>= f) = write b (f ()) := rfl

@[simp] theorem readExact_bind (n : ℕ) (f : List σ → Program σ ε β) :
    (readExact n >>= f) = read n f := rfl

/-! ## One side of a connection -/

/-- What one side sees of a connection: the chunks it will receive, the error
of a read past their end, and the errors of its successive writes, none past
the end of the list. -/
structure Wire (σ ε : Type) where
  incoming : List (List σ)
  ending : ε
  faults : List (Option ε)
  deriving DecidableEq, Repr

namespace Wire

/-- The symbols still to arrive. -/
def symbols (w : Wire σ ε) : List σ := w.incoming.flatten

/-- The error of the next write. -/
def nextFault (w : Wire σ ε) : Option ε := w.faults.head?.join

/-- The connection after a write. -/
def afterWrite (w : Wire σ ε) : Wire σ ε := { w with faults := w.faults.tail }

/-- The connection after a read. -/
def afterRead (w : Wire σ ε) (left : List (List σ)) : Wire σ ε :=
  { w with incoming := left }

/-- The same connection, with the errors of its reads and writes in the words
of another layer. -/
def relabel {δ : Type} (onRead onWrite : ε → δ) (w : Wire σ ε) : Wire σ δ :=
  ⟨w.incoming, onRead w.ending, w.faults.map (Option.map onWrite)⟩

end Wire

/-- One entry of a transcript. -/
inductive Act (σ : Type) where
  | wrote (b : List σ)
  | received (b : List σ)
  deriving DecidableEq, Repr

/-- What a program did, the connection it leaves, and how it ended. -/
structure Trace (σ ε α : Type) where
  acts : List (Act σ)
  wire : Wire σ ε
  result : Except ε α

/-- The trace of a program that first did `acts`. -/
def Trace.after (acts : List (Act σ)) (t : Trace σ ε α) : Trace σ ε α :=
  { t with acts := acts ++ t.acts }

/-- Run a program over a connection.  A failed write is in the transcript: some
of it may have gone out. -/
def run : Program σ ε α → Wire σ ε → Trace σ ε α
  | .done a, w => ⟨[], w, .ok a⟩
  | .fail e, w => ⟨[], w, .error e⟩
  | .write b next, w =>
    match w.nextFault with
    | some e => ⟨[.wrote b], w.afterWrite, .error e⟩
    | none => (next.run w.afterWrite).after [.wrote b]
  | .read n next, w =>
    match ByteStream.readExact n w.incoming with
    | none => ⟨[], w, .error w.ending⟩
    | some (b, left) =>
      ((next b).run (w.afterRead left)).after [.received b]

variable {w : Wire σ ε}

theorem run_write_none {b : List σ} {next : Program σ ε α}
    (h : w.nextFault = none) :
    (write b next).run w = (next.run w.afterWrite).after [.wrote b] := by
  rw [run, h]

theorem run_write_some {b : List σ} {next : Program σ ε α} {e : ε}
    (h : w.nextFault = some e) :
    (write b next).run w = ⟨[.wrote b], w.afterWrite, .error e⟩ := by
  rw [run, h]

theorem run_read_some {n : ℕ} {next : List σ → Program σ ε α} {b : List σ}
    {left : List (List σ)}
    (h : ByteStream.readExact n w.incoming = some (b, left)) :
    (read n next).run w =
      ((next b).run (w.afterRead left)).after [.received b] := by
  rw [run, h]

theorem run_read_none {n : ℕ} {next : List σ → Program σ ε α}
    (h : ByteStream.readExact n w.incoming = none) :
    (read n next).run w = ⟨[], w, .error w.ending⟩ := by
  rw [run, h]

/-- The transcript of a sequence is that of its first half, followed by that
of the second if there is one. -/
theorem run_bind (p : Program σ ε α) (f : α → Program σ ε β) (w : Wire σ ε) :
    (p >>= f).run w =
      match (p.run w).result with
      | .ok a => ((f a).run (p.run w).wire).after (p.run w).acts
      | .error e => ⟨(p.run w).acts, (p.run w).wire, .error e⟩ := by
  induction p generalizing w with
  | done | fail => rfl
  | write b next ih =>
    rw [write_bind]
    cases hw : w.nextFault with
    | some e => rw [run_write_some hw, run_write_some hw]
    | none =>
      rw [run_write_none hw, run_write_none hw, ih]
      cases hres : (next.run w.afterWrite).result with
      | ok a | error e => simp [Trace.after, hres]
  | read n next ih =>
    rw [read_bind]
    cases hr : ByteStream.readExact n w.incoming with
    | none => rw [run_read_none hr, run_read_none hr]
    | some r =>
      obtain ⟨b, left⟩ := r
      rw [run_read_some hr, run_read_some hr, ih]
      cases hres : ((next b).run (w.afterRead left)).result with
      | ok a | error e => simp [Trace.after, hres]

/-! ## Programs that only read -/

/-- A program that never writes. -/
def Silent : Program σ ε α → Prop
  | .done _ => True
  | .fail _ => True
  | .write _ _ => False
  | .read _ next => ∀ b, (next b).Silent

theorem Silent.not_wrote {p : Program σ ε α} (h : p.Silent) (w : Wire σ ε)
    (b : List σ) : Act.wrote b ∉ (p.run w).acts := by
  induction p generalizing w with
  | done | fail => simp [run]
  | write c next ih => exact h.elim
  | read n next ih =>
    cases hr : ByteStream.readExact n w.incoming with
    | none => simp [run_read_none hr]
    | some r =>
      obtain ⟨c, left⟩ := r
      have htail := ih c (h c) (w.afterRead left)
      simpa [run_read_some hr, Trace.after] using htail

/-! ## What a program can return -/

/-- Every value the program can return satisfies `P`. -/
def Returns (P : α → Prop) : Program σ ε α → Prop
  | .done a => P a
  | .fail _ => True
  | .write _ next => next.Returns P
  | .read _ next => ∀ b, (next b).Returns P

theorem Returns.bind {P : β → Prop} (p : Program σ ε α) {f : α → Program σ ε β}
    (h : ∀ a, (f a).Returns P) : (p >>= f).Returns P := by
  induction p with
  | done a => exact h a
  | fail e => trivial
  | write b next ih => exact ih
  | read n next ih => exact fun b => ih b

theorem Returns.run {P : α → Prop} {p : Program σ ε α} (h : p.Returns P)
    {w : Wire σ ε} {a : α} (hrun : (p.run w).result = .ok a) : P a := by
  induction p generalizing w with
  | done b =>
    cases hrun
    exact h
  | fail e => cases hrun
  | write b next ih =>
    cases hw : w.nextFault with
    | some e =>
      rw [run_write_some hw] at hrun
      cases hrun
    | none =>
      rw [run_write_none hw] at hrun
      exact ih h hrun
  | read n next ih =>
    cases hr : ByteStream.readExact n w.incoming with
    | none =>
      rw [run_read_none hr] at hrun
      cases hrun
    | some r =>
      rw [run_read_some hr] at hrun
      exact ih r.1 (h r.1) hrun

end Program

end RustyTorrent
