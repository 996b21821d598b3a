import RustyTorrent.Peer.Mse.Stages
import RustyTorrent.Support.Run

/-!
# The encrypted transport

`peer/mse/stream.rs`: a stream with a cipher for each direction, which can be
taken apart into a reader and a writer.  What the stream below answers to a
poll is an argument.  Bytes are enciphered with a copy of the cipher, which
itself advances by as much as the stream below takes; so what goes out is the
encryption of what was reported as written (`rc4_transparent`).
-/

namespace RustyTorrent.Peer.Mse

/-- `Poll<io::Result<_>>`, without the error. -/
inductive Poll (α : Type) where
  | pending
  | failed
  | ready (value : α)

/-- The cipher after a write, and the bytes that the stream below takes.  The
answer of that stream is also the result. -/
def pollWrite (c : Rc4) (buf : Bytes) : Poll ℕ → Rc4 × Bytes
  | .ready n =>
    let (cipher, encrypted) := c.process buf
    (if n = encrypted.length then cipher else c.skip n, encrypted.take n)
  | _ => (c, [])

/-- The cipher after a read, and what the chunk that was deposited becomes. -/
def pollRead (c : Rc4) : Poll Bytes → Rc4 × Bytes
  | .ready chunk => if 0 < chunk.length then c.process chunk else (c, chunk)
  | _ => (c, [])

structure Rc4Reader where
  cipher : Rc4

structure Rc4Writer where
  cipher : Rc4

def Rc4Reader.pollRead (r : Rc4Reader) (answer : Poll Bytes) :
    Rc4Reader × Bytes :=
  (Mse.pollRead r.cipher answer).map Rc4Reader.mk id

def Rc4Writer.pollWrite (w : Rc4Writer) (buf : Bytes) (answer : Poll ℕ) :
    Rc4Writer × Bytes :=
  (Mse.pollWrite w.cipher buf answer).map Rc4Writer.mk id

namespace EncryptedStream

variable (s : EncryptedStream)

def pollRead (answer : Poll Bytes) : EncryptedStream × Bytes :=
  (Mse.pollRead s.readCipher answer).map (⟨·, s.writeCipher⟩) id

def pollWrite (buf : Bytes) (answer : Poll ℕ) : EncryptedStream × Bytes :=
  (Mse.pollWrite s.writeCipher buf answer).map (⟨s.readCipher, ·⟩) id

def intoParts : Rc4 × Rc4 := (s.readCipher, s.writeCipher)

end EncryptedStream

/-! ## Runs -/

/-- One end of a connection, in one piece or taken apart. -/
inductive End where
  | whole (s : EncryptedStream)
  | parts (r : Rc4Reader) (w : Rc4Writer)

/-- What is done to an end, with the answer of the stream below. -/
inductive EndOp where
  | write (buf : Bytes) (answer : Poll ℕ)
  | read (answer : Poll Bytes)
  | intoParts

/-- The end afterwards, and the bytes that were taken from it or read. -/
def End.poll : End → EndOp → End × Bytes
  | .whole s, .write buf answer => (s.pollWrite buf answer).map .whole id
  | .whole s, .read answer => (s.pollRead answer).map .whole id
  | .whole s, .intoParts =>
    (.parts ⟨s.intoParts.1⟩ ⟨s.intoParts.2⟩, [])
  | .parts r w, .write buf answer => (w.pollWrite buf answer).map (.parts r) id
  | .parts r w, .read answer => (r.pollRead answer).map (.parts · w) id
  | .parts r w, .intoParts => (.parts r w, [])

/-- The ciphers for reading and for writing. -/
def End.ciphers : End → Rc4 × Rc4
  | .whole s => s.intoParts
  | .parts r w => (r.cipher, w.cipher)

/-- The bytes of a buffer that are reported as written. -/
def reported (buf : Bytes) : Poll ℕ → Bytes
  | .ready n => buf.take n
  | _ => []

/-- The bytes that a read deposits. -/
def deposited : Poll Bytes → Bytes
  | .ready chunk => chunk
  | _ => []

/-- An end and what has passed through it: the bytes reported as written, those
that the stream below took, those it deposited, and those that were read. -/
structure Traffic where
  side : End
  written : Bytes
  accepted : Bytes
  received : Bytes
  shown : Bytes

def Traffic.start (s : EncryptedStream) : Traffic := ⟨.whole s, [], [], [], []⟩

def Traffic.next (t : Traffic) (op : EndOp) : Traffic :=
  let (side, out) := t.side.poll op
  match op with
  | .write buf answer =>
    { t with
      side
      written := t.written ++ reported buf answer
      accepted := t.accepted ++ out }
  | .read answer =>
    { t with
      side
      received := t.received ++ deposited answer
      shown := t.shown ++ out }
  | .intoParts => { t with side }

/-- The stream below takes no more than it is offered. -/
def EndOp.Fits : EndOp → Prop
  | .write buf (.ready n) => n ≤ buf.length
  | _ => True

instance : (op : EndOp) → Decidable op.Fits
  | .write buf (.ready n) => inferInstanceAs (Decidable (n ≤ buf.length))
  | .write _ .pending | .write _ .failed | .read _ | .intoParts =>
    inferInstanceAs (Decidable True)

/-- Runs of an end. -/
def polls : System Traffic EndOp where
  next := Traffic.next
  may _ op := op.Fits

instance (t : Traffic) (op : EndOp) : Decidable (polls.may t op) :=
  inferInstanceAs (Decidable op.Fits)

theorem process_reported {c : Rc4} {buf : Bytes} {answer : Poll ℕ}
    (h : (EndOp.write buf answer).Fits) :
    c.process (reported buf answer) = pollWrite c buf answer := by
  cases answer with
  | pending | failed => rfl
  | ready n =>
    have hle : n ≤ buf.length := h
    have hskip : (c.process (buf.take n)).1 = c.skip n :=
      Keystream.apply_fst_congr Rc4.next c (by simpa using hle)
    refine Prod.ext ?_ (Keystream.apply_take Rc4.next c buf n)
    simp only [reported, pollWrite, length_process]
    split_ifs with hall
    · rw [hall, List.take_length]
    · exact hskip

theorem process_deposited (c : Rc4) (answer : Poll Bytes) :
    c.process (deposited answer) = pollRead c answer := by
  cases answer with
  | pending | failed => rfl
  | ready chunk => cases chunk <;> rfl

/-- The ciphers stand where the bytes that have passed leave them. -/
structure Traffic.Agrees (s : EncryptedStream) (t : Traffic) : Prop where
  writes : s.writeCipher.process t.written = (t.side.ciphers.2, t.accepted)
  reads : s.readCipher.process t.received = (t.side.ciphers.1, t.shown)

theorem Traffic.Agrees.next {s : EncryptedStream} {t : Traffic} {op : EndOp}
    (h : t.Agrees s) (hop : op.Fits) : (t.next op).Agrees s := by
  obtain ⟨e, written, accepted, received, shown⟩ := t
  obtain ⟨hwrites, hreads⟩ := h
  dsimp only at hwrites hreads
  cases op with
  | write buf answer =>
    refine ⟨?_, ?_⟩
    · dsimp only [Traffic.next]
      rw [process_append, hwrites, process_reported hop]
      cases e <;> rfl
    · refine hreads.trans ?_
      cases e <;> rfl
  | read answer =>
    refine ⟨?_, ?_⟩
    · refine hwrites.trans ?_
      cases e <;> rfl
    · dsimp only [Traffic.next]
      rw [process_append, hreads, process_deposited]
      cases e <;> rfl
  | intoParts => cases e <;> exact ⟨hwrites, hreads⟩

theorem Traffic.agrees {s : EncryptedStream} {ops : List EndOp}
    (h : polls.Allowed (.start s) ops) :
    (polls.after (.start s) ops).Agrees s :=
  (System.Reach.of_allowed h).invariant ⟨rfl, rfl⟩ fun _ _ ht hop => ht.next hop

/-- The stream below takes the encryption of what is reported as written, and
from what it deposits at the other end the same bytes are read. -/
theorem rc4_transparent {own peer : EncryptedStream}
    (hkey : peer.readCipher = own.writeCipher) {ops ops' : List EndOp}
    (h : polls.Allowed (.start own) ops)
    (h' : polls.Allowed (.start peer) ops') :
    let t := polls.after (.start own) ops
    let t' := polls.after (.start peer) ops'
    t.accepted = (own.writeCipher.process t.written).2 ∧
      (t'.received <+: t.accepted →
        t'.shown = t.written.take t'.received.length) := by
  intro t t'
  have hwrites : own.writeCipher.process t.written = _ :=
    (Traffic.agrees h).writes
  have hreads : peer.readCipher.process t'.received = _ :=
    (Traffic.agrees h').reads
  refine ⟨by rw [hwrites], fun hprefix => ?_⟩
  have hplain : (own.writeCipher.process t.accepted).2 = t.written := by
    have hback := process_process own.writeCipher t.written
    rw [hwrites] at hback
    exact congrArg Prod.snd hback
  have htake := Keystream.apply_take Rc4.next own.writeCipher t.accepted
    t'.received.length
  rw [← List.prefix_iff_eq_take.mp hprefix] at htake
  calc t'.shown = (own.writeCipher.process t'.received).2 := by
        rw [← hkey, hreads]
    _ = (own.writeCipher.process t.accepted).2.take _ := htake
    _ = t.written.take _ := by rw [hplain]

/-- A cipher for the example below. -/
def someCipher : Rc4 := ⟨Vector.replicate 256 1, 0, 0⟩

theorem rc4_transparent_example :
    let t := polls.after (.start ⟨someCipher, someCipher⟩)
      [.write [1, 2, 3] .pending, .write [1, 2, 3] (.ready 2), .intoParts,
        .write [3] (.ready 1)]
    let t' := polls.after (.start ⟨someCipher, someCipher⟩)
      [.read (.ready t.accepted)]
    t.accepted = (someCipher.process t.written).2 ∧
      (t'.received <+: t.accepted →
        t'.shown = t.written.take t'.received.length) :=
  rc4_transparent rfl (by decide) ⟨trivial, trivial⟩

end RustyTorrent.Peer.Mse
