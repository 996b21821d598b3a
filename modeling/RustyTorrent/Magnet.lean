import RustyTorrent.Metainfo.Torrent
import RustyTorrent.Support.Hex
import RustyTorrent.Support.Splitting

/-!
# Magnet links

`magnet.rs`: from a `magnet:?…` URI to the info hash, the display name and the
trackers.  A `&str` is the list of its UTF-8 bytes; the separators are ASCII,
so splitting the text is splitting the bytes.
-/

namespace RustyTorrent

open Metainfo Splitting Utf8

def stripPrefix (start s : Bytes) : Option Bytes :=
  if start <+: s then some (s.drop start.length) else none

theorem stripPrefix_append (start s : Bytes) :
    stripPrefix start (start ++ s) = some s := by
  rw [stripPrefix, if_pos (List.prefix_append start s), List.drop_left]

namespace Magnet

structure MagnetLink where
  infoHash : Digest
  displayName : Option Str
  trackers : List Str
  deriving DecidableEq

/-- `{c:02x}`. -/
def shownByte (c : UInt8) : String :=
  String.ofList ((Hex.pair c).map fun d => Char.ofNat d.toNat)

def hexNibble (c : UInt8) : Outcome Error ℕ :=
  Outcome.ofOption
    (.bencode s!"non-hex char in info_hash: 0x{shownByte c}") (Hex.value c)

/-- `(hi << 4) | lo`. -/
def nibbles (hi lo : ℕ) : UInt8 := UInt8.ofNat (hi <<< 4 ||| lo)

/-- The loop of `parse_hex_20`, over the pairs of bytes from number `i` on. -/
def hexPairs (i : ℕ) (out : Digest) : Bytes → Outcome Error Digest
  | a :: b :: rest => do
    let hi ← hexNibble a
    let lo ← hexNibble b
    let out ← Digest.setByte i (nibbles hi lo) out
    hexPairs (i + 1) out rest
  | _ => .ok out

def parseHex20 (s : Bytes) : Outcome Error Digest := hexPairs 0 Digest.zeroed s

/-- The value of a base32 character. -/
def base32Value (c : UInt8) : Option ℕ :=
  if 65 ≤ c.toNat ∧ c.toNat ≤ 90 then some (c.toNat - 65)
  else if 97 ≤ c.toNat ∧ c.toNat ≤ 122 then some (c.toNat - 97)
  else if 50 ≤ c.toNat ∧ c.toNat ≤ 55 then some (26 + (c.toNat - 50))
  else none

/-- The loop of `parse_base32_20`.  The 32-bit buffer loses its high bits when
it is shifted. -/
def base32Loop (out : Digest) (bitBuf bits outIdx : ℕ) :
    Bytes → Outcome Error (Digest × ℕ)
  | [] => .ok (out, outIdx)
  | c :: rest => do
    let v ← Outcome.ofOption
      (.bencode s!"non-base32 char in info_hash: 0x{shownByte c}")
      (base32Value c)
    let bitBuf := (bitBuf <<< 5) % 2 ^ 32 ||| v
    let bits := bits + 5
    if 8 ≤ bits then do
      let bits := bits - 8
      let out ← Digest.setByte outIdx (UInt8.ofNat (bitBuf >>> bits &&& 0xff)) out
      base32Loop out bitBuf bits (outIdx + 1) rest
    else base32Loop out bitBuf bits outIdx rest

def parseBase32_20 (s : Bytes) : Outcome Error Digest := do
  let res ← base32Loop Digest.zeroed 0 0 0 s
  Outcome.check (res.2 = 20)
    (.bencode (s!"base32 info_hash decoded to {res.2} bytes " ++
      "(expected 20)"))
  return res.1

def parseInfoHash (s : Bytes) : Outcome Error Digest :=
  if s.length = 40 then parseHex20 s
  else if s.length = 32 then parseBase32_20 s
  else .err (.bencode ("info_hash must be 40 hex chars or 32 base32 chars, " ++
    s!"got {s.length}"))

def percentDecode : Bytes → Outcome Error Bytes
  | [] => .ok []
  | c :: rest =>
    if c = asciiByte '%' then
      match rest with
      | a :: b :: rest => do
        let hi ← hexNibble a
        let lo ← hexNibble b
        let out ← percentDecode rest
        return nibbles hi lo :: out
      | _ => .err (.bencode "truncated %XX escape")
    else do
      let out ← percentDecode rest
      return c :: out

/-- The parameters read so far. -/
structure Collected where
  infoHash : Option Digest
  displayName : Option Str
  trackers : List Str

/-- The text of a decoded value. -/
def decodedStr (decoded : Bytes) (notUtf8 : String) : Outcome Error Str :=
  Outcome.ofOption (.bencode notUtf8) (Str.ofBytes decoded)

/-- The `match` of the loop: what a decoded parameter changes. -/
def interpret (acc : Collected) (k decoded : Bytes) :
    Outcome Error Collected :=
  if k = ascii "xt" then do
    let s ← decodedStr decoded "magnet xt not utf-8"
    let hashStr ← Outcome.ofOption (.bencode "xt missing urn:btih: prefix")
      (stripPrefix (ascii "urn:btih:") s.1)
    let infoHash ← parseInfoHash hashStr
    return { acc with infoHash := some infoHash }
  else if k = ascii "dn" then do
    let s ← decodedStr decoded "magnet dn not utf-8"
    return { acc with displayName := some s }
  else if k = ascii "tr" then do
    let s ← decodedStr decoded "magnet tr not utf-8"
    return { acc with trackers := acc.trackers ++ [s] }
  else return acc

/-- One round of the loop over the parameters. -/
def readPair (acc : Collected) (pair : Bytes) : Outcome Error Collected :=
  if pair = [] then .ok acc
  else do
    let kv ← Outcome.ofOption (.bencode "magnet param missing `=`")
      (splitOnce [asciiByte '='] pair)
    let decoded ← percentDecode kv.2
    interpret acc kv.1 decoded

/-- The loop over the parameters. -/
def readPairs (acc : Collected) : List Bytes → Outcome Error Collected
  | [] => .ok acc
  | pair :: pairs => do
    let acc ← readPair acc pair
    readPairs acc pairs

/-- `retain` with the set of the elements seen so far. -/
def retainNew (seen : List Str) : List Str → List Str
  | [] => []
  | t :: ts =>
    if t ∈ seen then retainNew seen ts else t :: retainNew (t :: seen) ts

def maxTrackers : ℕ := 64

def MagnetLink.parse (uri : Bytes) : Outcome Error MagnetLink := do
  let query ← Outcome.ofOption
    (.bencode "magnet URI must start with `magnet:?`")
    (stripPrefix (ascii "magnet:?") uri)
  let acc ← readPairs ⟨none, none, []⟩ (query.splitOn (asciiByte '&'))
  let infoHash ← Outcome.ofOption
    (.bencode "magnet URI missing required xt=urn:btih:…") acc.infoHash
  return {
    infoHash, displayName := acc.displayName,
    trackers := (retainNew [] acc.trackers).take maxTrackers }

end Magnet

end RustyTorrent
