import RustyTorrent.Metainfo.BencodeText
import RustyTorrent.Support.ByteStream

/-!
# The extension protocol

`peer/extension.rs`: the extension handshake, peer exchange and the metadata
messages.  All are bencoded dictionaries; the parsers never panic on them
(`parseHandshakePayload_ne_panic`, `parsePex_ne_panic`,
`parseMetadataResponse_ne_panic`).
-/

namespace RustyTorrent

open Metainfo Outcome

/-- `IpAddr`: the octets of an address. -/
inductive IpAddr where
  | v4 (octets : Vector UInt8 4)
  | v6 (octets : Vector UInt8 16)
  deriving DecidableEq, Repr

/-- `Ipv4Addr::LOCALHOST`. -/
def IpAddr.localhost : IpAddr := .v4 #v[127, 0, 0, 1]

/-- `SocketAddr`, without the flow and scope labels. -/
structure SocketAddr where
  ip : IpAddr
  port : UInt16
  deriving DecidableEq, Repr

namespace Extension

def extHandshakeId : UInt8 := 0

def ourUtMetadataId : UInt8 := 1

def ourUtPexId : UInt8 := 2

def maxMetadataSize : ℤ := 100 * 1024 * 1024

structure PeerExtensionInfo where
  theirUtMetadataId : Option UInt8
  theirUtPexId : Option UInt8
  metadataSize : Option UInt32
  deriving DecidableEq, Repr

/-- A network error with the given text. -/
def networkErr {α : Type} (msg : String) : Outcome Error α :=
  .err (.network msg)

/-- `map_err(|_| Error::Network(msg))`. -/
def orNetwork {α : Type} (msg : String) (x : Outcome Error α) :
    Outcome Error α :=
  x.mapErr fun _ => .network msg

/-- The id under `ut_metadata`: zero is reserved and skipped. -/
def readUtMetadata (m : List (Bytes × BencodeValue)) :
    Outcome Error (Option UInt8) :=
  match SortedMap.get m (ascii "ut_metadata") with
  | none => .ok none
  | some v => do
    let id ← orNetwork "ut_metadata id not int" v.asInt
    if 0 ≤ id.toInt ∧ id.toInt ≤ 255 then
      if id.toInt ≠ 0 then .ok (some (UInt8.ofNat id.toInt.toNat))
      else .ok none
    else networkErr s!"ut_metadata id out of range: {id.toInt}"

/-- The id under `ut_pex`: anything outside `1..=255` is skipped. -/
def readUtPex (m : List (Bytes × BencodeValue)) :
    Outcome Error (Option UInt8) :=
  match SortedMap.get m (ascii "ut_pex") with
  | none => .ok none
  | some v => do
    let id ← orNetwork "ut_pex id not int" v.asInt
    if 1 ≤ id.toInt ∧ id.toInt ≤ 255 then
      .ok (some (UInt8.ofNat id.toInt.toNat))
    else .ok none

/-- The value under `metadata_size`. -/
def readMetadataSize (dict : List (Bytes × BencodeValue)) :
    Outcome Error (Option UInt32) :=
  match SortedMap.get dict (ascii "metadata_size") with
  | none => .ok none
  | some v => do
    let n ← orNetwork "metadata_size not int" v.asInt
    if n.toInt ≤ 0 then
      networkErr s!"metadata_size non-positive: {n.toInt}"
    else if maxMetadataSize < n.toInt then
      networkErr s!"metadata_size too large: {n.toInt} bytes"
    else .ok (some (UInt32.ofNat n.toInt.toNat))

/-- The two ids under `m`. -/
def readIds (dict : List (Bytes × BencodeValue)) :
    Outcome Error (Option UInt8 × Option UInt8) :=
  match SortedMap.get dict (ascii "m") with
  | none => .ok (none, none)
  | some m => do
    let mDict ← orNetwork "ext handshake `m` not a dict" m.asDict
    let metadataId ← readUtMetadata mDict
    let pexId ← readUtPex mDict
    return (metadataId, pexId)

def parseHandshakePayload (payload : Bytes) :
    Outcome Error PeerExtensionInfo := do
  let root ← (parseAll payload).mapErr fun e =>
    .network s!"ext handshake bencode: {e.display}"
  let dict ← orNetwork "ext handshake not a dict" root.asDict
  let ids ← readIds dict
  let size ← readMetadataSize dict
  return ⟨ids.1, ids.2, size⟩

/-! ## Peer exchange -/

/-- `chunks_exact`: the whole groups of `width` bytes, the rest dropped. -/
def chunksExact (width : ℕ) (b : Bytes) : List Bytes :=
  (List.range (b.length / width)).map fun i =>
    (b.drop (i * width)).take width

theorem length_flatMap_of_forall {α β : Type} {f : α → List β} {w : ℕ}
    {xs : List α} (h : ∀ x ∈ xs, (f x).length = w) :
    (xs.flatMap f).length = xs.length * w := by
  induction xs with
  | nil => simp
  | cons x xs ih =>
    rw [List.flatMap_cons, List.length_append, h x (by simp),
      ih fun y hy => h y (by simp [hy]), List.length_cons]
    ring

theorem chunksExact_flatMap {α : Type} {f : α → Bytes} {w : ℕ} (hw : 0 < w)
    {xs : List α} (h : ∀ x ∈ xs, (f x).length = w) :
    chunksExact w (xs.flatMap f) = xs.map f := by
  have hlen := length_flatMap_of_forall h
  rw [chunksExact, hlen, Nat.mul_div_cancel _ hw]
  induction xs with
  | nil => rfl
  | cons x xs ih =>
    have hx : (f x).length = w := h x (by simp)
    have hxs : ∀ y ∈ xs, (f y).length = w := fun y hy => h y (by simp [hy])
    rw [List.length_cons, List.range_succ_eq_map, List.map_cons,
      List.map_map, List.map_cons, ← ih hxs (length_flatMap_of_forall hxs)]
    congr 1
    · rw [List.flatMap_cons, zero_mul, List.drop_zero, List.take_left' hx]
    · apply List.map_congr_left
      intro i _
      have hdrop : ((f x) ++ xs.flatMap f).drop ((i + 1) * w) =
          (xs.flatMap f).drop (i * w) := by
        rw [Nat.succ_mul, Nat.add_comm, ← List.drop_drop, List.drop_left' hx]
      rw [Function.comp, List.flatMap_cons, hdrop]

/-- A byte string as a vector, padded with zeros. -/
def octets (n : ℕ) (b : Bytes) : Vector UInt8 n :=
  Vector.ofFn fun i => b.getD i 0

/-- One compact entry: the octets of an address and a big-endian port.  Port
zero means that the peer does not listen. -/
def compactEntry (width : ℕ) (ip : Bytes → IpAddr) (chunk : Bytes) :
    Option SocketAddr :=
  let port := ofBytesBe (chunk.drop width)
  if port = 0 then none
  else some ⟨ip (chunk.take width), UInt16.ofNat port⟩

theorem octets_toList {n : ℕ} (o : Vector UInt8 n) : octets n o.toList = o := by
  ext i hi
  simp [octets]

theorem compactEntry_compact {n : ℕ} (ip : Bytes → IpAddr) (o : Vector UInt8 n)
    (port : UInt16) :
    compactEntry n ip (o.toList ++ toBytesBe 2 port.toNat) =
      if port = 0 then none else some ⟨ip o.toList, port⟩ := by
  have hlen : o.toList.length = n := by simp
  have hnat : port.toNat % 256 ^ 2 = port.toNat :=
    Nat.mod_eq_of_lt port.toNat_lt
  have hzero : port.toNat = 0 ↔ port = 0 := UInt16.toNat_inj (b := 0)
  simp only [compactEntry, List.drop_left' hlen, List.take_left' hlen,
    ofBytesBe_toBytesBe, hnat, hzero, UInt16.ofNat_toNat]

/-- The entries stored under a key, when it holds a byte string. -/
def compactList (dict : List (Bytes × BencodeValue)) (key : String)
    (width : ℕ) (ip : Bytes → IpAddr) : List SocketAddr :=
  match SortedMap.get dict (ascii key) with
  | some (.bytes b) =>
    (chunksExact (width + 2) b).filterMap (compactEntry width ip)
  | _ => []

/-- `parse_pex`: the added addresses. -/
def parsePex (payload : Bytes) : Outcome Error (List SocketAddr) := do
  let v ← (parseAll payload).mapErr fun e =>
    .network s!"ut_pex bencode: {e.display}"
  let d ← orNetwork "ut_pex not a dict" v.asDict
  return compactList d "added" 4 (fun b => .v4 (octets 4 b)) ++
    compactList d "added6" 16 (fun b => .v6 (octets 16 b))

/-! ## Metadata exchange -/

def metadataPieceSize : ℕ := 16384

/-- `env!("CARGO_PKG_VERSION")`. -/
def pkgVersion : String := "0.1.0"

/-- `build_handshake_payload`: anonymous mode leaves out `v` and `reqq`. -/
def buildHandshakePayload (anonymous : Bool) : Bytes :=
  let mMap := SortedMap.insert (ascii "ut_pex")
    (.int (Int64.ofNat ourUtPexId.toNat))
    (SortedMap.insert (ascii "ut_metadata")
      (.int (Int64.ofNat ourUtMetadataId.toNat)) [])
  let root := SortedMap.insert (ascii "m") (.dict mMap) []
  let root :=
    if anonymous then root
    else SortedMap.insert (ascii "reqq") (.int 0)
      (SortedMap.insert (ascii "v")
        (.bytes (ascii ("rustytorrent " ++ pkgVersion))) root)
  (BencodeValue.dict root).toBytes

def buildMetadataRequest (piece : UInt32) : Bytes :=
  (BencodeValue.dict
    (SortedMap.insert (ascii "piece") (.int (Int64.ofNat piece.toNat))
      (SortedMap.insert (ascii "msg_type") (.int 0) []))).toBytes

inductive MetadataResponse where
  | data (piece totalSize : UInt32) (data : Bytes)
  | reject (piece : UInt32)
  | other
  deriving DecidableEq, Repr

/-- A required integer of a `ut_metadata` dictionary. -/
def readMetadataInt (d : List (Bytes × BencodeValue)) (key : String)
    (missing notInt : String) : Outcome Error ℤ := do
  let v ← Outcome.ofOption (.network missing) (SortedMap.get d (ascii key))
  let i ← orNetwork notInt v.asInt
  return i.toInt

/-- `parse_metadata_response`: a dictionary, followed for a data message by
the bytes of the piece. -/
def parseMetadataResponse (payload : Bytes) :
    Outcome Error MetadataResponse := do
  let (dict, rest) ← (parse payload).mapErr fun e =>
    .network s!"ut_metadata bencode: {e.display}"
  let d ← orNetwork "ut_metadata not a dict" dict.asDict
  let msgType ← readMetadataInt d "msg_type"
    "ut_metadata missing msg_type" "ut_metadata msg_type not int"
  let piece ← readMetadataInt d "piece"
    "ut_metadata missing piece" "ut_metadata piece not int"
  if piece < 0 ∨ 2 ^ 32 - 1 < piece then
    networkErr s!"ut_metadata piece OOR: {piece}"
  else if msgType = 0 then return .other
  else if msgType = 1 then do
    let totalSize ← readMetadataInt d "total_size"
      "ut_metadata data missing total_size" "ut_metadata total_size not int"
    if totalSize ≤ 0 ∨ 100 * 1024 * 1024 < totalSize then
      networkErr s!"ut_metadata total_size implausible: {totalSize}"
    else
      return .data (UInt32.ofNat piece.toNat) (UInt32.ofNat totalSize.toNat)
        rest
  else if msgType = 2 then return .reject (UInt32.ofNat piece.toNat)
  else return .other

/-! ## Absence of panics -/

theorem mapErr_ne_panic {α : Type} {f : Error → Error}
    {x : Outcome Error α} (h : x ≠ .panic) : x.mapErr f ≠ .panic := by
  cases x with
  | ok | err => nofun
  | panic => exact absurd rfl h

@[simp] theorem orNetwork_asInt_ne_panic (msg : String) (v : BencodeValue) :
    orNetwork msg v.asInt ≠ .panic := by
  cases v <;> nofun

@[simp] theorem orNetwork_asDict_ne_panic (msg : String) (v : BencodeValue) :
    orNetwork msg v.asDict ≠ .panic := by
  cases v <;> nofun

@[simp] theorem readUtMetadata_ne_panic (m : List (Bytes × BencodeValue)) :
    readUtMetadata m ≠ .panic := by
  unfold readUtMetadata
  split
  · nofun
  · refine bind_ne_panic (orNetwork_asInt_ne_panic _ _) fun id _ => ?_
    split_ifs <;> nofun

@[simp] theorem readUtPex_ne_panic (m : List (Bytes × BencodeValue)) :
    readUtPex m ≠ .panic := by
  unfold readUtPex
  split
  · nofun
  · refine bind_ne_panic (orNetwork_asInt_ne_panic _ _) fun id _ => ?_
    split_ifs <;> nofun

@[simp] theorem readMetadataSize_ne_panic (dict : List (Bytes × BencodeValue)) :
    readMetadataSize dict ≠ .panic := by
  unfold readMetadataSize
  split
  · nofun
  · refine bind_ne_panic (orNetwork_asInt_ne_panic _ _) fun n _ => ?_
    split_ifs <;> nofun

@[simp] theorem readIds_ne_panic (dict : List (Bytes × BencodeValue)) :
    readIds dict ≠ .panic := by
  unfold readIds
  split <;> simp [bind_eq_panic]

variable (payload : Bytes)

theorem parseHandshakePayload_ne_panic :
    parseHandshakePayload payload ≠ .panic := by
  simp [parseHandshakePayload, bind_eq_panic, mapErr_ne_panic,
    parseAll_ne_panic]

theorem parsePex_ne_panic : parsePex payload ≠ .panic := by
  simp [parsePex, bind_eq_panic, mapErr_ne_panic, parseAll_ne_panic]

@[simp] theorem readMetadataInt_ne_panic (d : List (Bytes × BencodeValue))
    (key missing notInt : String) :
    readMetadataInt d key missing notInt ≠ .panic := by
  simp [readMetadataInt, bind_eq_panic]

theorem parseMetadataResponse_ne_panic :
    parseMetadataResponse payload ≠ .panic := by
  refine bind_ne_panic (mapErr_ne_panic (parse_ne_panic payload)) ?_
  rintro ⟨dict, rest⟩ -
  refine bind_ne_panic (orNetwork_asDict_ne_panic _ _) fun d _ => ?_
  refine bind_ne_panic (readMetadataInt_ne_panic _ _ _ _) fun msgType _ => ?_
  refine bind_ne_panic (readMetadataInt_ne_panic _ _ _ _) fun piece _ => ?_
  split_ifs
  · nofun
  · nofun
  · refine bind_ne_panic (readMetadataInt_ne_panic _ _ _ _)
      fun totalSize _ => ?_
    split_ifs <;> nofun
  · nofun
  · nofun

/-! ## Outgoing peer exchange -/

def pexMaxEntriesPerDirection : ℕ := 50

/-- `split_v4_v6` and `encode_compact_v4`: the compact entries of version 4,
with their number. -/
def compactsV4 (addrs : List SocketAddr) : ℕ × Bytes :=
  let entries := addrs.filterMap fun a =>
    match a.ip with
    | .v4 o => some (o.toList ++ toBytesBe 2 a.port.toNat)
    | .v6 _ => none
  (entries.length, entries.flatten)

/-- `split_v4_v6` and `encode_compact_v6`. -/
def compactsV6 (addrs : List SocketAddr) : ℕ × Bytes :=
  let entries := addrs.filterMap fun a =>
    match a.ip with
    | .v4 _ => none
    | .v6 o => some (o.toList ++ toBytesBe 2 a.port.toNat)
  (entries.length, entries.flatten)

/-- An entry of the dictionary for a list of addresses that is not empty, with
its flags for the added ones. -/
def pexField (key : String) (flags : Option String) (list : ℕ × Bytes)
    (d : List (Bytes × BencodeValue)) : List (Bytes × BencodeValue) :=
  if list.1 = 0 then d
  else
    let d := SortedMap.insert (ascii key) (.bytes list.2) d
    match flags with
    | none => d
    | some f =>
      SortedMap.insert (ascii f) (.bytes (List.replicate list.1 0)) d

def buildPexPayload (added dropped : List SocketAddr) : Bytes :=
  let d := pexField "added" (some "added.f") (compactsV4 added) []
  let d := pexField "added6" (some "added6.f") (compactsV6 added) d
  let d := pexField "dropped" none (compactsV4 dropped) d
  let d := pexField "dropped6" none (compactsV6 dropped) d
  (BencodeValue.dict d).toBytes

end Extension

end RustyTorrent
