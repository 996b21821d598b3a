import RustyTorrent.Error
import RustyTorrent.Support.Decimal
import RustyTorrent.Support.Outcome
import RustyTorrent.Support.SortedMap
import RustyTorrent.Support.Utf8

/-!
# The bencode reader and writer

`metainfo/bencode.rs`: the value type, the writer `to_bytes`, and the
recursive reader with its depth limit.

The reader recurses at most `maxDepth + 1` levels, so it is written by
recursion on the number of levels left; `parseValueDepth_eq` gives back the
form of the source, which counts the depth upwards.  The two container loops
take at least one byte each round.  They are bounded by the length of what
they read, and running out of rounds would be a panic of the model, so that
absence of panics also says that the loops end.
-/

namespace RustyTorrent.Metainfo

open Decimal

/-- Maximum container-nesting depth the parser will descend before bailing. -/
def maxDepth : ℕ := 100

/-- `BencodeValue`.  A dictionary is the list of its entries in key order. -/
inductive BencodeValue where
  | int (i : Int64)
  | bytes (b : Bytes)
  | list (items : List BencodeValue)
  | dict (map : List (Bytes × BencodeValue))
  deriving Repr

/-- A bencode error with the given text. -/
def bencodeErr {α : Type} (msg : String) : Outcome Error α :=
  .err (.bencode msg)

namespace BencodeValue

/-! ## Accessors -/

def asInt : BencodeValue → Outcome Error Int64
  | .int i => .ok i
  | _ => bencodeErr "expected integer"

def asBytes : BencodeValue → Outcome Error Bytes
  | .bytes b => .ok b
  | _ => bencodeErr "expected byte string"

/-- A string is the list of its UTF-8 bytes. -/
def asStr (v : BencodeValue) : Outcome Error Bytes := do
  let b ← v.asBytes
  match Utf8.fromUtf8 b with
  | .ok s => .ok s
  | .error e => bencodeErr s!"invalid utf-8: {e.text}"

def asList : BencodeValue → Outcome Error (List BencodeValue)
  | .list items => .ok items
  | _ => bencodeErr "expected list"

def asDict : BencodeValue → Outcome Error (List (Bytes × BencodeValue))
  | .dict map => .ok map
  | _ => bencodeErr "expected dict"

/-! ## Writing -/

/-- The length-prefixed form of a byte string, used for values and keys. -/
def stringToBytes (b : Bytes) : Bytes :=
  decimal b.length ++ asciiByte ':' :: b

mutual

/-- `to_bytes`: the bytes `write_into` appends. -/
def toBytes : BencodeValue → Bytes
  | .int i => asciiByte 'i' :: (decimalInt i.toInt ++ [asciiByte 'e'])
  | .bytes b => stringToBytes b
  | .list items =>
    asciiByte 'l' :: (itemsToBytes items ++ [asciiByte 'e'])
  | .dict map =>
    asciiByte 'd' :: (entriesToBytes map ++ [asciiByte 'e'])

/-- The items of a list, one after the other. -/
def itemsToBytes : List BencodeValue → Bytes
  | [] => []
  | v :: vs => toBytes v ++ itemsToBytes vs

/-- The entries of a dictionary in key order. -/
def entriesToBytes : List (Bytes × BencodeValue) → Bytes
  | [] => []
  | (k, v) :: m => stringToBytes k ++ (toBytes v ++ entriesToBytes m)

end

/-! ## What the source's types guarantee -/

mutual

/-- Values the source type can hold: byte strings no longer than a `Vec` can
be, and dictionaries in the order a `BTreeMap` keeps. -/
def WellFormed : BencodeValue → Prop
  | .int _ => True
  | .bytes b => b.length < 2 ^ 63
  | .list items => ItemsWellFormed items
  | .dict map => SortedMap.Sorted map ∧ EntriesWellFormed map

def ItemsWellFormed : List BencodeValue → Prop
  | [] => True
  | v :: vs => WellFormed v ∧ ItemsWellFormed vs

def EntriesWellFormed : List (Bytes × BencodeValue) → Prop
  | [] => True
  | (k, v) :: m =>
    k.length < 2 ^ 63 ∧ WellFormed v ∧ EntriesWellFormed m

end

mutual

/-- The largest number of containers enclosing a value inside this one. -/
def enclosure : BencodeValue → ℕ
  | .int _ => 0
  | .bytes _ => 0
  | .list items => itemsEnclosure items
  | .dict map => entriesEnclosure map

/-- The same for the members of a list, counting the list itself. -/
def itemsEnclosure : List BencodeValue → ℕ
  | [] => 0
  | v :: vs => max (enclosure v + 1) (itemsEnclosure vs)

/-- The same for the values of a dictionary, counting the dictionary. -/
def entriesEnclosure : List (Bytes × BencodeValue) → ℕ
  | [] => 0
  | (_, v) :: m => max (enclosure v + 1) (entriesEnclosure m)

end

end BencodeValue

/-! ## Reading -/

/-- What a parsing function returns: the value and the unread input. -/
abbrev Parse := Outcome Error (BencodeValue × Bytes)

/-- The index of the first occurrence of a byte, as `iter().position`. -/
def position (c : UInt8) (input : Bytes) : Option ℕ :=
  input.findIdx? (· = c)

/-- `s.starts_with`. -/
def startsWith (pre s : Bytes) : Bool := pre.isPrefixOf s

/-- `from_utf8` with the error text of the caller. -/
def utf8Or (label : String) (b : Bytes) : Outcome Error Bytes :=
  match Utf8.fromUtf8 b with
  | .ok s => .ok s
  | .error e => bencodeErr s!"{label} utf-8: {e.text}"

/-- `str::parse` with the error text of the caller. -/
def numberOr {α : Type} (label : String) (r : Except IntErrorKind α) :
    Outcome Error α :=
  match r with
  | .ok n => .ok n
  | .error e => bencodeErr s!"{label}: {e.text}"

/-- `parse_int`.  The number is an `i64`. -/
def parseInt (input : Bytes) : Parse := do
  Outcome.assert (input.head? = some (asciiByte 'i'))
  let body ← Outcome.sliceFrom 1 input
  let stop ← Outcome.ofOption (.bencode "unterminated integer")
    (position (asciiByte 'e') body)
  let digits ← Outcome.sliceTo stop body
  Outcome.check (!digits.isEmpty) (.bencode "empty integer")
  let s ← utf8Or "int" digits
  Outcome.check (s ≠ ascii "-0") (.bencode "negative zero")
  Outcome.check
    (!(decide (s.length > 1) &&
      (startsWith (ascii "0") s || startsWith (ascii "-0") s)))
    (.bencode "leading zero")
  let n ← numberOr "int parse" (readSigned (2 ^ 63) (2 ^ 63 - 1) s)
  let rest ← Outcome.sliceFrom (stop + 1) body
  return (.int (Int64.ofInt n), rest)

/-- The shared part of `parse_bytes` for values and dictionary keys.  The
length is a 64-bit `usize`. -/
def parseString (input : Bytes) : Outcome Error (Bytes × Bytes) := do
  let colon ← Outcome.ofOption (.bencode "byte string missing colon")
    (position (asciiByte ':') input)
  let prefixBytes ← Outcome.sliceTo colon input
  let lenStr ← utf8Or "len" prefixBytes
  let len ← numberOr "byte string len" (readUnsigned (2 ^ 64 - 1) lenStr)
  let rest ← Outcome.sliceFrom (colon + 1) input
  Outcome.check (decide (len ≤ rest.length))
    (.bencode
      s!"byte string too short: need {len} have {rest.length}")
  let val ← Outcome.sliceTo len rest
  let rest ← Outcome.sliceFrom len rest
  return (val, rest)

def parseBytes (input : Bytes) : Parse := do
  let (val, rest) ← parseString input
  return (.bytes val, rest)

/-- The loop of `parse_list`; `item` reads one member. -/
def parseListLoop (item : Bytes → Parse) :
    ℕ → Bytes → List BencodeValue → Parse
  | 0, _, _ => .panic
  | fuel + 1, rest, items =>
    match rest with
    | [] => bencodeErr "unterminated list"
    | c :: tail =>
      if c = asciiByte 'e' then .ok (.list items, tail)
      else do
        let (v, r) ← item rest
        parseListLoop item fuel r (items ++ [v])

def parseList (item : Bytes → Parse) (input : Bytes) : Parse := do
  Outcome.assert (input.head? = some (asciiByte 'l'))
  let rest ← Outcome.sliceFrom 1 input
  parseListLoop item (rest.length + 1) rest []

/-- The loop of `parse_dict`.  A key is read by `parse_bytes` directly, so
its first byte is not checked, and it must be above the previous key. -/
def parseDictLoop (item : Bytes → Parse) :
    ℕ → Bytes → List (Bytes × BencodeValue) → Option Bytes → Parse
  | 0, _, _, _ => .panic
  | fuel + 1, rest, map, prevKey =>
    match rest with
    | [] => bencodeErr "unterminated dict"
    | c :: tail =>
      if c = asciiByte 'e' then .ok (.dict map, tail)
      else do
        let (key, r) ← parseString rest
        Outcome.check (prevKey.all fun pk => decide (pk < key))
          (.bencode "dict keys not sorted or duplicated")
        let (v, r) ← item r
        parseDictLoop item fuel r (SortedMap.insert key v map) (some key)

def parseDict (item : Bytes → Parse) (input : Bytes) : Parse := do
  Outcome.assert (input.head? = some (asciiByte 'd'))
  let rest ← Outcome.sliceFrom 1 input
  parseDictLoop item (rest.length + 1) rest [] none

/-- Two lower-case hexadecimal digits. -/
def hexByte (c : UInt8) : String :=
  String.ofList [(c.toNat / 16).digitChar, (c.toNat % 16).digitChar]

/-- `parse_value_depth` with the number of levels that may still be entered. -/
def parseValueAt : ℕ → Bytes → Parse
  | 0, _ => bencodeErr s!"nesting exceeds max depth {maxDepth}"
  | levels + 1, input =>
    match input with
    | [] => bencodeErr "unexpected EOF"
    | first :: _ =>
      if first = asciiByte 'i' then parseInt input
      else if first = asciiByte 'l' then
        parseList (parseValueAt levels) input
      else if first = asciiByte 'd' then
        parseDict (parseValueAt levels) input
      else if asciiByte '0' ≤ first ∧ first ≤ asciiByte '9' then
        parseBytes input
      else bencodeErr s!"unexpected byte 0x{hexByte first}"

def parseValueDepth (input : Bytes) (depth : ℕ) : Parse :=
  parseValueAt (maxDepth + 1 - depth) input

def parse (input : Bytes) : Parse := parseValueDepth input 0

def parseAll (input : Bytes) : Outcome Error BencodeValue := do
  let (v, rest) ← parse input
  Outcome.check rest.isEmpty
    (.bencode s!"trailing bytes after root value: {rest.length} bytes")
  return v

def skipValue (input : Bytes) : Outcome Error ℕ := do
  let (_, rest) ← parse input
  Outcome.checkedSub input.length rest.length

theorem parseValueDepth_eq (input : Bytes) (depth : ℕ) :
    parseValueDepth input depth =
      if maxDepth < depth then
        bencodeErr s!"nesting exceeds max depth {maxDepth}"
      else
        match input with
        | [] => bencodeErr "unexpected EOF"
        | first :: _ =>
          if first = asciiByte 'i' then parseInt input
          else if first = asciiByte 'l' then
            parseList (fun r => parseValueDepth r (depth + 1)) input
          else if first = asciiByte 'd' then
            parseDict (fun r => parseValueDepth r (depth + 1)) input
          else if asciiByte '0' ≤ first ∧ first ≤ asciiByte '9' then
            parseBytes input
          else bencodeErr s!"unexpected byte 0x{hexByte first}" := by
  by_cases h : maxDepth < depth
  · have hlevels : maxDepth + 1 - depth = 0 := by omega
    rw [if_pos h, parseValueDepth, hlevels]
    rfl
  · have hlevels : maxDepth + 1 - depth = (maxDepth + 1 - (depth + 1)) + 1 := by
      omega
    rw [if_neg h, parseValueDepth, hlevels]
    rfl

end RustyTorrent.Metainfo
