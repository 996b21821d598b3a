import Mathlib.Data.List.Basic

/-!
# UTF-8 validation

The validation loop of the Rust standard library (`str::from_utf8`), with the
two pieces of data its error carries: how many bytes were valid, and how long
the offending sequence is (`none` when the input ends inside a character).
-/

namespace RustyTorrent.Utf8

structure Utf8Error where
  validUpTo : ℕ
  errorLen : Option ℕ
  deriving DecidableEq, Repr

/-- The text of a `Utf8Error`. -/
def Utf8Error.text (e : Utf8Error) : String :=
  match e.errorLen with
  | some len =>
    s!"invalid utf-8 sequence of {len} bytes from index {e.validUpTo}"
  | none => s!"incomplete utf-8 byte sequence from index {e.validUpTo}"

/-- `c` lies in the inclusive range from `lo` to `hi`. -/
def inRange (lo hi : ℕ) (c : UInt8) : Bool :=
  decide (lo ≤ c.toNat ∧ c.toNat ≤ hi)

/-- A continuation byte. -/
def isTail (c : UInt8) : Bool := inRange 0x80 0xBF c

/-- The second bytes allowed after the first byte of a three-byte sequence. -/
def secondOfThree (first second : UInt8) : Bool :=
  (first.toNat = 0xE0 && inRange 0xA0 0xBF second) ||
    (inRange 0xE1 0xEC first && isTail second) ||
    (first.toNat = 0xED && inRange 0x80 0x9F second) ||
    (inRange 0xEE 0xEF first && isTail second)

/-- The second bytes allowed after the first byte of a four-byte sequence. -/
def secondOfFour (first second : UInt8) : Bool :=
  (first.toNat = 0xF0 && inRange 0x90 0xBF second) ||
    (inRange 0xF1 0xF3 first && isTail second) ||
    (first.toNat = 0xF4 && inRange 0x80 0x8F second)

/-- The validation loop, `offset` bytes into the input. -/
def validate (offset : ℕ) : List UInt8 → Except Utf8Error Unit
  | [] => .ok ()
  | c :: rest =>
    if c.toNat < 0x80 then validate (offset + 1) rest
    else if inRange 0xC2 0xDF c then
      match rest with
      | [] => .error ⟨offset, none⟩
      | c₁ :: rest =>
        if isTail c₁ then validate (offset + 2) rest
        else .error ⟨offset, some 1⟩
    else if inRange 0xE0 0xEF c then
      match rest with
      | [] => .error ⟨offset, none⟩
      | [c₁] =>
        if secondOfThree c c₁ then .error ⟨offset, none⟩
        else .error ⟨offset, some 1⟩
      | c₁ :: c₂ :: rest =>
        if !secondOfThree c c₁ then .error ⟨offset, some 1⟩
        else if isTail c₂ then validate (offset + 3) rest
        else .error ⟨offset, some 2⟩
    else if inRange 0xF0 0xF4 c then
      match rest with
      | [] => .error ⟨offset, none⟩
      | [c₁] =>
        if secondOfFour c c₁ then .error ⟨offset, none⟩
        else .error ⟨offset, some 1⟩
      | [c₁, c₂] =>
        if !secondOfFour c c₁ then .error ⟨offset, some 1⟩
        else if isTail c₂ then .error ⟨offset, none⟩
        else .error ⟨offset, some 2⟩
      | c₁ :: c₂ :: c₃ :: rest =>
        if !secondOfFour c c₁ then .error ⟨offset, some 1⟩
        else if !isTail c₂ then .error ⟨offset, some 2⟩
        else if isTail c₃ then validate (offset + 4) rest
        else .error ⟨offset, some 3⟩
    else .error ⟨offset, some 1⟩

/-- `str::from_utf8`: the bytes themselves, when they are valid. -/
def fromUtf8 (b : List UInt8) : Except Utf8Error (List UInt8) :=
  (validate 0 b).map fun _ => b

/-- The low six bits of a continuation byte. -/
def tailBits (c : UInt8) : ℕ := c.toNat % 64

/-- The code points of valid UTF-8 (`str::chars`). -/
def chars : List UInt8 → List ℕ
  | [] => []
  | c :: rest =>
    if c.toNat < 0x80 then c.toNat :: chars rest
    else if c.toNat < 0xE0 then
      match rest with
      | c₁ :: rest => (c.toNat % 32 * 64 + tailBits c₁) :: chars rest
      | _ => []
    else if c.toNat < 0xF0 then
      match rest with
      | c₁ :: c₂ :: rest =>
        (c.toNat % 16 * 4096 + tailBits c₁ * 64 + tailBits c₂) ::
          chars rest
      | _ => []
    else
      match rest with
      | c₁ :: c₂ :: c₃ :: rest =>
        (c.toNat % 8 * 262144 + tailBits c₁ * 4096 +
          tailBits c₂ * 64 + tailBits c₃) :: chars rest
      | _ => []

/-- The bytes of U+FFFD. -/
def replacement : List UInt8 := [0xEF, 0xBF, 0xBD]

/-- The first part of a non-empty input in a lossy reading: what is written
for it, and how many bytes of `rest` belong to it.  An ill-formed part is
everything up to the first byte that cannot continue it. -/
def lossyPart (c : UInt8) (rest : List UInt8) : List UInt8 × ℕ :=
  if c.toNat < 0x80 then ([c], 0)
  else if inRange 0xC2 0xDF c then
    match rest with
    | [] => (replacement, 0)
    | c₁ :: _ => if isTail c₁ then ([c, c₁], 1) else (replacement, 0)
  else if inRange 0xE0 0xEF c then
    match rest with
    | [] => (replacement, 0)
    | [c₁] => if !secondOfThree c c₁ then (replacement, 0) else (replacement, 1)
    | c₁ :: c₂ :: _ =>
      if !secondOfThree c c₁ then (replacement, 0)
      else if isTail c₂ then ([c, c₁, c₂], 2)
      else (replacement, 1)
  else if inRange 0xF0 0xF4 c then
    match rest with
    | [] => (replacement, 0)
    | [c₁] => if !secondOfFour c c₁ then (replacement, 0) else (replacement, 1)
    | [c₁, c₂] =>
      if !secondOfFour c c₁ then (replacement, 0)
      else if !isTail c₂ then (replacement, 1)
      else (replacement, 2)
    | c₁ :: c₂ :: c₃ :: _ =>
      if !secondOfFour c c₁ then (replacement, 0)
      else if !isTail c₂ then (replacement, 1)
      else if isTail c₃ then ([c, c₁, c₂, c₃], 3)
      else (replacement, 2)
  else (replacement, 0)

/-- The loop of `from_utf8_lossy`; the first `skip` bytes belong to a part
that has been written. -/
def lossyFrom : ℕ → List UInt8 → List UInt8
  | _, [] => []
  | skip + 1, _ :: rest => lossyFrom skip rest
  | 0, c :: rest =>
    (lossyPart c rest).1 ++ lossyFrom (lossyPart c rest).2 rest

def fromUtf8Lossy (b : List UInt8) : List UInt8 := lossyFrom 0 b

variable {b : List UInt8} {d : UInt8}

theorem fromUtf8_eq_ok {s : List UInt8} (h : fromUtf8 b = .ok s) : s = b := by
  cases hv : validate 0 b with
  | error e => simp [fromUtf8, hv, Except.map] at h
  | ok u => simpa [fromUtf8, hv, Except.map] using h.symm

theorem validate_ascii (hb : ∀ c ∈ b, c.toNat < 0x80)
    (offset : ℕ) : validate offset b = .ok () := by
  induction b generalizing offset with
  | nil => rfl
  | cons c b ih =>
    rw [validate.eq_def]
    simp only [hb c (by simp), if_true]
    exact ih (fun d hd => hb d (by simp [hd])) (offset + 1)

theorem fromUtf8_ascii (hb : ∀ c ∈ b, c.toNat < 0x80) : fromUtf8 b = .ok b := by
  simp [fromUtf8, validate_ascii hb, Except.map]

/-- Text: a byte string that is valid UTF-8 (`String`, `&str`). -/
abbrev Str := { b : List UInt8 // fromUtf8 b = .ok b }

/-- `String::from_utf8`, with its error left out. -/
def Str.ofBytes (b : List UInt8) : Option Str :=
  if h : fromUtf8 b = .ok b then some ⟨b, h⟩ else none

@[simp] theorem Str.ofBytes_val (s : Str) : Str.ofBytes s.1 = some s :=
  dif_pos s.2

theorem Str.ofBytes_eq_some {s : Str} : Str.ofBytes b = some s ↔ s.1 = b := by
  constructor
  · intro h
    unfold Str.ofBytes at h
    split at h
    · cases h
      rfl
    · cases h
  · rintro rfl
    exact Str.ofBytes_val s

theorem Str.ofBytes_ascii (hb : ∀ c ∈ b, c.toNat < 0x80) :
    Str.ofBytes b = some ⟨b, fromUtf8_ascii hb⟩ :=
  dif_pos _

/-! ## Lossy reading -/

theorem snd_lossyPart_le (c : UInt8) (a : List UInt8) :
    (lossyPart c a).2 ≤ a.length := by
  fun_cases lossyPart c a <;> simp

theorem lossyPart_append_ascii (c : UInt8) (hd : d.toNat < 0x80)
    (a b : List UInt8) : lossyPart c (a ++ d :: b) = lossyPart c a := by
  have htail : isTail d = false := by
    simp only [isTail, inRange, decide_eq_false_iff_not]
    omega
  have hthree : secondOfThree c d = false := by
    simp only [secondOfThree, isTail, inRange, Bool.or_eq_false_iff,
      Bool.and_eq_false_iff, decide_eq_false_iff_not]
    omega
  have hfour : secondOfFour c d = false := by
    simp only [secondOfFour, isTail, inRange, Bool.or_eq_false_iff,
      Bool.and_eq_false_iff, decide_eq_false_iff_not]
    omega
  -- At most two bytes after `d` are looked at, and none once it is seen.
  rcases a with - | ⟨x, - | ⟨y, - | ⟨z, a⟩⟩⟩ <;>
    rcases b with - | ⟨u, - | ⟨v, b⟩⟩ <;>
    simp [lossyPart, htail, hthree, hfour]

theorem lossyFrom_append_ascii (hd : d.toNat < 0x80)
    (a b : List UInt8) {skip : ℕ} (hskip : skip ≤ a.length) :
    lossyFrom skip (a ++ d :: b) = lossyFrom skip a ++ d :: lossyFrom 0 b := by
  induction a generalizing skip with
  | nil =>
    obtain rfl : skip = 0 := Nat.le_zero.mp hskip
    simp [lossyFrom, lossyPart, hd]
  | cons c a ih =>
    cases skip with
    | zero =>
      rw [List.cons_append, lossyFrom, lossyPart_append_ascii c hd,
        ih (snd_lossyPart_le c a), lossyFrom, List.append_assoc]
    | succ skip =>
      rw [List.cons_append, lossyFrom, lossyFrom,
        ih (Nat.le_of_succ_le_succ hskip)]

theorem fromUtf8Lossy_append_ascii (hd : d.toNat < 0x80) (a b : List UInt8) :
    fromUtf8Lossy (a ++ d :: b) = fromUtf8Lossy a ++ d :: fromUtf8Lossy b :=
  lossyFrom_append_ascii hd a b (Nat.zero_le _)

theorem lossyFrom_of_validate {offset : ℕ}
    (h : validate offset b = .ok ()) : lossyFrom 0 b = b := by
  fun_induction validate offset b <;>
    simp_all [lossyFrom, lossyPart, Nat.not_lt_of_le]

theorem fromUtf8Lossy_of_valid (h : fromUtf8 b = .ok b) :
    fromUtf8Lossy b = b := by
  cases hv : validate 0 b with
  | error e => simp [fromUtf8, hv, Except.map] at h
  | ok u => exact lossyFrom_of_validate hv

end RustyTorrent.Utf8
