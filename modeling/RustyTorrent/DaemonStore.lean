import Mathlib.Data.List.ReduceOption
import RustyTorrent.Metainfo.Torrent
import RustyTorrent.Support.Hex
import RustyTorrent.Support.Splitting

/-!
# The daemon's state directory

`daemon_store.rs`: restoring the hosted torrents from the files of one
directory, and `info_hash_from_hex` of `util.rs`, which labels the entries
that are skipped.  A file is its name with what reading it gives.  The decoder
of the JSON sidecars and the token that stands for an info hash in the logs
are parameters.
-/

namespace RustyTorrent

open Metainfo Splitting Utf8

namespace Util

def isCharBoundary (s : Bytes) (i : ℕ) : Bool :=
  i = 0 || match s[i]? with
    | some c => !isTail c
    | none => i = s.length

/-- `&s[a..b]` of a `str`, which unwinds inside a character. -/
def strSlice {ε : Type} (s : Bytes) (a b : ℕ) : Outcome ε Bytes :=
  if a ≤ b ∧ isCharBoundary s a ∧ isCharBoundary s b then
    .ok ((s.drop a).take (b - a))
  else .panic

/-- The digits of `u8::from_str_radix`, with the number read so far. -/
def radixDigits (acc : ℕ) : Bytes → Option ℕ
  | [] => some acc
  | c :: rest =>
    match Hex.value c with
    | some d =>
      if acc * 16 + d ≤ 255 then radixDigits (acc * 16 + d) rest else none
    | none => none

/-- `u8::from_str_radix(src, 16)`: a plus sign may stand before the digits. -/
def fromStrRadix16 (src : Bytes) : Option ℕ :=
  match src with
  | [] => none
  | [c] =>
    if c = asciiByte '+' ∨ c = asciiByte '-' then none else radixDigits 0 [c]
  | c :: rest =>
    if c = asciiByte '+' then radixDigits 0 rest
    else radixDigits 0 (c :: rest)

/-- The loop of `info_hash_from_hex` over the given positions. -/
def hashBytes (s : Bytes) (out : Digest) :
    List ℕ → Outcome Empty (Option Digest)
  | [] => .ok (some out)
  | i :: is => do
    let slice ← strSlice s (i * 2) (i * 2 + 2)
    match fromStrRadix16 slice with
    | some byte => do
      let out ← Digest.setByte i (UInt8.ofNat byte) out
      hashBytes s out is
    | none => return none

def infoHashFromHex (s : Str) : Outcome Empty (Option Digest) :=
  if s.1.length = 40 then hashBytes s.1 Digest.zeroed (List.range 20)
  else .ok none

end Util

namespace DaemonStore

/-- A file of the directory: its name, and its bytes if it can be read. -/
structure DirEntry where
  name : Bytes
  content : Option Bytes
  deriving DecidableEq

/-- The state directory.  No two files have one name. -/
structure Directory where
  entries : List DirEntry
  distinct : (entries.map DirEntry.name).Nodup

structure Sidecar where
  output : Bytes
  enableDht : Bool
  deriving DecidableEq

structure PersistedTorrent where
  torrentBytes : Bytes
  output : Bytes
  enableDht : Bool
  deriving DecidableEq

/-- The file name cut at its last dot, as `Path` does for `file_stem` and
`extension`: a name whose only dot comes first has no extension. -/
def splitAtDot (name : Bytes) : Bytes × Option Bytes :=
  if name = ascii ".." then (name, none)
  else
    match rsplitOnce (asciiByte '.') name with
    | some (before, after) =>
      if before = [] then (name, none) else (before, some after)
    | none => (name, none)

/-- `std::fs::read` of a file in the directory. -/
def Directory.read (dir : Directory) (name : Bytes) : Option Bytes :=
  (dir.entries.find? (·.name = name)).bind DirEntry.content

section Load

variable (redactInfoHash : Digest → String)
  (fromSlice : Bytes → Option Sidecar)

def entryLabel (stem : Str) : Outcome Empty String := do
  match ← Util.infoHashFromHex stem with
  | some ih => return redactInfoHash ih
  | none => return "non-info-hash-named entry"

/-- One round of the loop of `load_all`.  The label of a skipped entry goes
to the log. -/
def loadEntry (dir : Directory) (entry : DirEntry) :
    Outcome Empty (Option PersistedTorrent) :=
  if (splitAtDot entry.name).2 = some (ascii "torrent") then
    match Str.ofBytes (splitAtDot entry.name).1 with
    | none => .ok none
    | some stem =>
      match entry.content with
      | none => do
        let _ ← entryLabel redactInfoHash stem
        return none
      | some torrentBytes =>
        match (dir.read (stem.1 ++ ascii ".json")).bind fromSlice with
        | some sidecar => return some {
            torrentBytes, output := sidecar.output,
            enableDht := sidecar.enableDht }
        | none => do
          let _ ← entryLabel redactInfoHash stem
          return none
  else .ok none

def loadAll (dir : Directory) : Outcome Empty (List PersistedTorrent) := do
  let loaded ← Outcome.traverse (loadEntry redactInfoHash fromSlice dir)
    dir.entries
  return loaded.reduceOption

end Load

end DaemonStore

end RustyTorrent
