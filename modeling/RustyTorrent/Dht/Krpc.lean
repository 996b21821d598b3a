import RustyTorrent.Peer.Extension
import RustyTorrent.Metainfo.Torrent

/-!
# KRPC messages

`dht/krpc.rs`: the queries, responses and errors of the DHT and their bencoded
form, with the module's own bencode writer.  A contact records when it was
last seen; the clock of `Contact::new` is a parameter of the readers, asked
once for each chunk.
-/

namespace RustyTorrent.Dht

open Decimal Metainfo Extension

/-! ## Messages -/

abbrev NodeId := Digest

structure Contact where
  id : NodeId
  addr : SocketAddr
  lastSeen : ℕ
  deriving DecidableEq

inductive Query where
  | ping (id : NodeId)
  | findNode (id target : NodeId)
  | getPeers (id : NodeId) (infoHash : Digest)
  | announcePeer (id : NodeId) (infoHash : Digest) (port : UInt16)
      (token : Bytes) (impliedPort : Bool)
  deriving DecidableEq

inductive Response where
  | id (id : NodeId)
  | nodes (id : NodeId) (nodes : List Contact)
  | peers (id : NodeId) (token : Bytes) (values : List SocketAddr)
  | peersNodes (id : NodeId) (token : Bytes) (nodes : List Contact)
  deriving DecidableEq

inductive Message where
  | query (transactionId : Bytes) (query : Query)
  | response (transactionId : Bytes) (response : Response)
  | error (transactionId : Bytes) (code : Int64) (message : Utf8.Str)
  deriving DecidableEq

/-! ## The module's own bencode writer -/

/-- `build_dict`: the entries inserted one after the other. -/
def buildDict (entries : List (Bytes × BencodeValue)) : BencodeValue :=
  .dict (entries.foldl (fun d e => SortedMap.insert e.1 e.2 d) [])

/-- The byte-string case of `encode_into`, also used for keys. -/
def encodeBytesInto (b out : Bytes) : Bytes :=
  out ++ decimal b.length ++ [asciiByte ':'] ++ b

mutual

/-- `encode_into`: the output after a value is appended to it. -/
def encodeInto : BencodeValue → Bytes → Bytes
  | .int i, out =>
    out ++ [asciiByte 'i'] ++ decimalInt i.toInt ++ [asciiByte 'e']
  | .bytes b, out => encodeBytesInto b out
  | .list items, out =>
    encodeItemsInto items (out ++ [asciiByte 'l']) ++ [asciiByte 'e']
  | .dict d, out =>
    encodeEntriesInto d (out ++ [asciiByte 'd']) ++ [asciiByte 'e']

/-- The loop over the members of a list. -/
def encodeItemsInto : List BencodeValue → Bytes → Bytes
  | [], out => out
  | v :: vs, out => encodeItemsInto vs (encodeInto v out)

/-- The loop over the entries of a dictionary. -/
def encodeEntriesInto : List (Bytes × BencodeValue) → Bytes → Bytes
  | [], out => out
  | (k, v) :: d, out =>
    encodeEntriesInto d (encodeInto v (encodeBytesInto k out))

end

def encode (v : BencodeValue) : Bytes := encodeInto v []

/-! ## Compact contacts -/

/-- The compact form of an address of version 4: octets and port. -/
def compactV4 (octets : Vector UInt8 4) (port : UInt16) : Bytes :=
  octets.toList ++ toBytesBe 2 port.toNat

/-- What `nodes_to_bytes` writes for one contact; version 6 is skipped. -/
def nodeToBytes (c : Contact) : Bytes :=
  match c.addr.ip with
  | .v4 o => c.id.1 ++ compactV4 o c.addr.port
  | .v6 _ => []

def nodesToBytes (nodes : List Contact) : Bytes := nodes.flatMap nodeToBytes

/-- An address of version 4. -/
def v4 (b : Bytes) : IpAddr := .v4 (octets 4 b)

/-- One chunk of the node string; port zero is skipped. -/
def parseNode (now : ℕ) (chunk : Bytes) : Option Contact :=
  if h : (chunk.take 20).length = 20 then
    (compactEntry 4 v4 (chunk.drop 20)).map fun addr =>
      ⟨⟨chunk.take 20, h⟩, addr, now⟩
  else none

def parseNodesBytes (clock : ℕ → ℕ) (buf : Bytes) :
    Outcome Error (List Contact) := do
  Outcome.check (buf.length % 26 = 0)
    (.network s!"nodes length {buf.length} not multiple of 26")
  return (chunksExact 26 buf).zipIdx.filterMap fun e =>
    parseNode (clock e.2) e.1

/-- What `values_to_list` writes for one address; version 6 is skipped. -/
def valueToBytes (addr : SocketAddr) : Option BencodeValue :=
  match addr.ip with
  | .v4 o => some (.bytes (compactV4 o addr.port))
  | .v6 _ => none

def valuesToList (values : List SocketAddr) : BencodeValue :=
  .list (values.filterMap valueToBytes)

/-- One member of the `values` list: other lengths and port zero are
skipped. -/
def parseValue (item : BencodeValue) : Outcome Error (Option SocketAddr) := do
  let b ← item.asBytes
  return if b.length = 6 then compactEntry 4 v4 b else none

def parseValuesList (v : BencodeValue) : Outcome Error (List SocketAddr) := do
  let list ← v.asList
  let out ← Outcome.traverse parseValue list
  return out.reduceOption

/-! ## Encoding -/

/-- The dictionary of a query: its arguments and the name of its method. -/
def queryDict (transactionId : Bytes) (method : String) (args : BencodeValue) :
    BencodeValue :=
  buildDict [(ascii "a", args), (ascii "q", .bytes (ascii method)),
    (ascii "t", .bytes transactionId), (ascii "y", .bytes (ascii "q"))]

/-- The dictionary encoded for a query. -/
def Query.toValue (transactionId : Bytes) : Query → BencodeValue
  | .ping id =>
    queryDict transactionId "ping" (buildDict [(ascii "id", .bytes id.1)])
  | .findNode id target =>
    queryDict transactionId "find_node"
      (buildDict [(ascii "id", .bytes id.1),
        (ascii "target", .bytes target.1)])
  | .getPeers id infoHash =>
    queryDict transactionId "get_peers"
      (buildDict [(ascii "id", .bytes id.1),
        (ascii "info_hash", .bytes infoHash.1)])
  | .announcePeer id infoHash port token impliedPort =>
    queryDict transactionId "announce_peer"
      (buildDict [(ascii "id", .bytes id.1),
        (ascii "implied_port", .int (if impliedPort then 1 else 0)),
        (ascii "info_hash", .bytes infoHash.1),
        (ascii "port", .int (Int64.ofNat port.toNat)),
        (ascii "token", .bytes token)])

/-- The dictionary under `r`. -/
def Response.toValue : Response → BencodeValue
  | .id own => buildDict [(ascii "id", .bytes own.1)]
  | .nodes own closer =>
    buildDict [(ascii "id", .bytes own.1),
      (ascii "nodes", .bytes (nodesToBytes closer))]
  | .peers own token values =>
    buildDict [(ascii "id", .bytes own.1), (ascii "token", .bytes token),
      (ascii "values", valuesToList values)]
  | .peersNodes own token closer =>
    buildDict [(ascii "id", .bytes own.1),
      (ascii "nodes", .bytes (nodesToBytes closer)),
      (ascii "token", .bytes token)]

/-- The dictionary encoded for a message. -/
def Message.toValue : Message → BencodeValue
  | .query transactionId q => q.toValue transactionId
  | .response transactionId r =>
    buildDict [(ascii "r", r.toValue),
      (ascii "t", .bytes transactionId), (ascii "y", .bytes (ascii "r"))]
  | .error transactionId code message =>
    buildDict [(ascii "e", .list [.int code, .bytes message.1]),
      (ascii "t", .bytes transactionId), (ascii "y", .bytes (ascii "e"))]

def Message.encode (m : Message) : Bytes := Dht.encode m.toValue

/-! ## Decoding -/

/-- `dict.get(key).ok_or_else(|| Error::Network(missing))`. -/
def required (dict : List (Bytes × BencodeValue)) (key missing : String) :
    Outcome Error BencodeValue :=
  Outcome.ofOption (.network missing) (SortedMap.get dict (ascii key))

/-- Remote bytes as they are shown in an error text. -/
def shown (b : Bytes) : String :=
  (Fragment.shown
    (Util.sanitizeRemoteText (Utf8.chars (Utf8.fromUtf8Lossy b)))).display

def bytes20From (dict : List (Bytes × BencodeValue)) (key : String) :
    Outcome Error Digest := do
  let v ← required dict key s!"krpc: missing {shown (ascii key)}"
  let bytes ← v.asBytes
  if h : bytes.length = 20 then return ⟨bytes, h⟩
  else
    networkErr
      s!"krpc: {shown (ascii key)} must be 20 bytes, got {bytes.length}"

def nodeIdFrom (dict : List (Bytes × BencodeValue)) (key : String) :
    Outcome Error NodeId :=
  bytes20From dict key

/-- `.and_then(|v| v.as_int().ok()).unwrap_or(0)`. -/
def intOrZero (dict : List (Bytes × BencodeValue)) (key : String) : Int64 :=
  match SortedMap.get dict (ascii key) with
  | some (.int i) => i
  | _ => 0

/-- `.and_then(|v| v.as_bytes().ok())`. -/
def bytesOf (dict : List (Bytes × BencodeValue)) (key : String) :
    Option Bytes :=
  match SortedMap.get dict (ascii key) with
  | some (.bytes b) => some b
  | _ => none

/-- `u16::try_from(port).unwrap_or(0)`. -/
def portOf (port : Int64) : UInt16 :=
  if 0 ≤ port.toInt ∧ port.toInt < 2 ^ 16 then UInt16.ofNat port.toInt.toNat
  else 0

/-- `.map(f).transpose()`. -/
def transposed {α β : Type} (f : α → Outcome Error β) :
    Option α → Outcome Error (Option β)
  | none => .ok none
  | some a => do return some (← f a)

/-- The part of `decode` that reads the query of a method. -/
def decodeQuery (qname : Bytes) (args : List (Bytes × BencodeValue)) :
    Outcome Error Query := do
  let id ← nodeIdFrom args "id"
  if qname = ascii "ping" then return .ping id
  else if qname = ascii "find_node" then
    let target ← nodeIdFrom args "target"
    return .findNode id target
  else if qname = ascii "get_peers" then
    let infoHash ← bytes20From args "info_hash"
    return .getPeers id infoHash
  else if qname = ascii "announce_peer" then
    let infoHash ← bytes20From args "info_hash"
    let port := intOrZero args "port"
    let tokenV ← required args "token" "ap: missing token"
    let token ← tokenV.asBytes
    let impliedPort : Bool := intOrZero args "implied_port" ≠ 0
    return .announcePeer id infoHash (portOf port) token impliedPort
  else networkErr s!"krpc: unknown query {shown qname}"

/-- Which response the present fields make; values win over nodes. -/
def assemble (id : NodeId) :
    Option (List Contact) → Option (List SocketAddr) → Option Bytes → Response
  | none, none, none => .id id
  | some nodes, none, none => .nodes id nodes
  | none, some values, some token => .peers id token values
  | some nodes, none, some token => .peersNodes id token nodes
  | some _, some values, some token => .peers id token values
  | _, _, _ => .id id

/-- The part of `decode` that reads the dictionary under `r`. -/
def decodeResponse (clock : ℕ → ℕ) (r : List (Bytes × BencodeValue)) :
    Outcome Error Response := do
  let id ← nodeIdFrom r "id"
  let nodes ← transposed (parseNodesBytes clock) (bytesOf r "nodes")
  let values ← transposed parseValuesList (SortedMap.get r (ascii "values"))
  return assemble id nodes values (bytesOf r "token")

/-- `.as_str().unwrap_or("")`. -/
def strOrEmpty (v : BencodeValue) : Utf8.Str :=
  match v with
  | .bytes b => (Utf8.Str.ofBytes b).getD ⟨[], rfl⟩
  | _ => ⟨[], rfl⟩

/-- The part of `decode` that reads the list under `e`. -/
def decodeError (errList : List BencodeValue) :
    Outcome Error (Int64 × Utf8.Str) := do
  Outcome.check (decide (2 ≤ errList.length))
    (.network "krpc: malformed error")
  let codeV ← Outcome.index 0 errList
  let code ← codeV.asInt
  let messageV ← Outcome.index 1 errList
  return (code, strOrEmpty messageV)

/-- `Message::decode` on the parsed value. -/
def Message.ofValue (clock : ℕ → ℕ) (v : BencodeValue) :
    Outcome Error Message := do
  let dict ← v.asDict
  let txidV ← required dict "t" "krpc: missing t"
  let txid ← txidV.asBytes
  let tyV ← required dict "y" "krpc: missing y"
  let ty ← tyV.asBytes
  if ty = ascii "q" then
    let qnameV ← required dict "q" "krpc: missing q"
    let qname ← qnameV.asBytes
    let argsV ← required dict "a" "krpc: missing a"
    let args ← argsV.asDict
    return .query txid (← decodeQuery qname args)
  else if ty = ascii "r" then
    let rV ← required dict "r" "krpc: missing r"
    let r ← rV.asDict
    return .response txid (← decodeResponse clock r)
  else if ty = ascii "e" then
    let errV ← required dict "e" "krpc: missing e"
    let errList ← errV.asList
    let e ← decodeError errList
    return .error txid e.1 e.2
  else networkErr s!"krpc: unknown y {shown ty}"

def Message.decode (clock : ℕ → ℕ) (buf : Bytes) : Outcome Error Message := do
  let v ← (parseAll buf).mapErr fun e => .network s!"krpc: {e.display}"
  Message.ofValue clock v

end RustyTorrent.Dht
