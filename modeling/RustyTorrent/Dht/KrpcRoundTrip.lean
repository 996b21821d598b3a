import RustyTorrent.Dht.Krpc
import RustyTorrent.Metainfo.BencodeRoundTrip
import RustyTorrent.Metainfo.TorrentReader
import Mathlib.Data.List.ReduceOption

/-!
# Reading back KRPC messages

The writer of `dht/krpc.rs` produces what `BencodeValue::to_bytes` produces, so
the bencode reader returns the dictionary that was encoded; the rest of the
round trip is about that dictionary.  Contacts come back with the time at
which they were read.
-/

namespace RustyTorrent.Dht

open Decimal Metainfo Extension BencodeValue Outcome Message SortedMap Int64

/-! ## The two writers -/

theorem encodeBytesInto_eq (b out : Bytes) :
    encodeBytesInto b out = out ++ stringToBytes b := by
  simp [encodeBytesInto, stringToBytes]

mutual

theorem encodeInto_eq :
    ∀ (v : BencodeValue) (out : Bytes), encodeInto v out = out ++ v.toBytes
  | .int i, out => by simp [encodeInto, toBytes]
  | .bytes b, out => by rw [encodeInto, toBytes, encodeBytesInto_eq]
  | .list items, out => by
    rw [encodeInto, toBytes, encodeItemsInto_eq items]
    simp
  | .dict d, out => by
    rw [encodeInto, toBytes, encodeEntriesInto_eq d]
    simp

theorem encodeItemsInto_eq : ∀ (items : List BencodeValue) (out : Bytes),
      encodeItemsInto items out = out ++ itemsToBytes items
  | [], out => by simp [encodeItemsInto, itemsToBytes]
  | v :: vs, out => by
    rw [encodeItemsInto, itemsToBytes, encodeInto_eq v,
      encodeItemsInto_eq vs, List.append_assoc]

theorem encodeEntriesInto_eq :
    ∀ (d : List (Bytes × BencodeValue)) (out : Bytes),
      encodeEntriesInto d out = out ++ entriesToBytes d
  | [], out => by simp [encodeEntriesInto, entriesToBytes]
  | (k, v) :: d, out => by
    rw [encodeEntriesInto, entriesToBytes, encodeInto_eq v,
      encodeBytesInto_eq, encodeEntriesInto_eq d]
    simp

end

theorem encode_eq (v : BencodeValue) : encode v = v.toBytes := by
  rw [encode, encodeInto_eq, List.nil_append]

/-! ## Dictionaries -/

theorem nested_buildDict {entries : List (Bytes × BencodeValue)} {depth : ℕ}
    (h : ∀ e ∈ entries, Nested depth e.2) :
    Nested (depth + 1) (buildDict entries) := by
  obtain ⟨hsorted, hmem⟩ := foldl_insert_spec entries
  exact nested_dict hsorted fun e he => h e (hmem e he)

/-! ## Compact contacts -/

/-- An address that has a compact form: version 4 with a port. -/
def Compact (addr : SocketAddr) : Prop :=
  (∃ o, addr.ip = .v4 o) ∧ addr.port ≠ 0

/-- A contact as it was, except for when it was seen. -/
def Contact.untimed (c : Contact) : Contact := { c with lastSeen := 0 }

theorem length_compactV4 (o : Vector UInt8 4) (port : UInt16) :
    (compactV4 o port).length = 6 := by
  simp [compactV4]

theorem compactEntry_compactV4 (o : Vector UInt8 4) {port : UInt16}
    (hport : port ≠ 0) :
    compactEntry 4 v4 (compactV4 o port) = some ⟨.v4 o, port⟩ := by
  rw [compactV4, compactEntry_compact, if_neg hport, v4, octets_toList]

theorem length_nodeToBytes {c : Contact} (hc : Compact c.addr) :
    (nodeToBytes c).length = 26 := by
  obtain ⟨⟨o, ho⟩, -⟩ := hc
  simp [nodeToBytes, ho, length_compactV4, c.id.2]

theorem parseNode_nodeToBytes {c : Contact} (hc : Compact c.addr) (now : ℕ) :
    parseNode now (nodeToBytes c) = some { c with lastSeen := now } := by
  obtain ⟨id, ⟨ip, port⟩, seen⟩ := c
  obtain ⟨⟨o, rfl⟩, hport⟩ := hc
  have htake : (id.1 ++ compactV4 o port).take 20 = id.1 :=
    List.take_left' id.2
  have hdrop : (id.1 ++ compactV4 o port).drop 20 = compactV4 o port :=
    List.drop_left' id.2
  simp only [parseNode, nodeToBytes, htake, hdrop, id.2, dif_pos,
    compactEntry_compactV4 o hport, Option.map_some]

theorem parseNodesBytes_nodesToBytes {nodes : List Contact}
    (hnodes : ∀ c ∈ nodes, Compact c.addr) (clock : ℕ → ℕ) :
    parseNodesBytes clock (nodesToBytes nodes) =
      .ok (nodes.zipIdx.map fun e => { e.1 with lastSeen := clock e.2 }) := by
  have hlens : ∀ c ∈ nodes, (nodeToBytes c).length = 26 :=
    fun c hc => length_nodeToBytes (hnodes c hc)
  have hlen : (nodesToBytes nodes).length = nodes.length * 26 :=
    length_flatMap_of_forall hlens
  have hchunks : chunksExact 26 (nodesToBytes nodes) =
      nodes.map nodeToBytes :=
    chunksExact_flatMap (by decide) hlens
  have hmod : (nodesToBytes nodes).length % 26 = 0 := by
    rw [hlen, Nat.mul_mod_left]
  simp only [parseNodesBytes, hmod, decide_true, check, if_true,
    ok_bind, pure_eq, hchunks, List.zipIdx_map,
    List.filterMap_map]
  congr 1
  rw [← List.filterMap_eq_map]
  apply List.filterMap_congr
  intro e he
  exact parseNode_nodeToBytes (hnodes e.1 (List.fst_mem_of_mem_zipIdx he)) _

theorem parseValue_valueToBytes {addr : SocketAddr} (h : Compact addr) :
    ∃ v, valueToBytes addr = some v ∧ parseValue v = .ok (some addr) := by
  obtain ⟨ip, port⟩ := addr
  obtain ⟨⟨o, rfl⟩, hport⟩ := h
  refine ⟨.bytes (compactV4 o port), rfl, ?_⟩
  simp only [parseValue, asBytes, ok_bind, length_compactV4, if_true,
    compactEntry_compactV4 o hport, pure_eq]

theorem parseValuesList_valuesToList {values : List SocketAddr}
    (hvalues : ∀ addr ∈ values, Compact addr) :
    parseValuesList (valuesToList values) = .ok values := by
  have htrav : Outcome.traverse parseValue (values.filterMap valueToBytes) =
      .ok (values.map some) := by
    induction values with
    | nil => rfl
    | cons addr values ih =>
      obtain ⟨v, hv, hread⟩ :=
        parseValue_valueToBytes (hvalues addr (by simp))
      rw [List.filterMap_cons_some hv, Outcome.traverse, hread,
        ih fun a ha => hvalues a (by simp [ha])]
      rfl
  rw [parseValuesList, valuesToList, asList, ok_bind, htrav]
  simp [List.reduceOption]

/-! ## Messages -/

/-- A response without the times of its contacts. -/
def Response.untimed : Response → Response
  | .id own => .id own
  | .nodes own closer => .nodes own (closer.map Contact.untimed)
  | .peers own token values => .peers own token values
  | .peersNodes own token closer =>
    .peersNodes own token (closer.map Contact.untimed)

/-- A message without the times of its contacts. -/
def Message.untimed : Message → Message
  | .query txid q => .query txid q
  | .response txid r => .response txid r.untimed
  | .error txid code text => .error txid code text

/-- Every address in the response has a compact form. -/
def Response.Compact : Response → Prop
  | .id _ => True
  | .nodes _ closer => ∀ c ∈ closer, Dht.Compact c.addr
  | .peers _ _ values => ∀ addr ∈ values, Dht.Compact addr
  | .peersNodes _ _ closer => ∀ c ∈ closer, Dht.Compact c.addr

/-- Every address in the message has a compact form. -/
def Message.Compact : Message → Prop
  | .response _ r => r.Compact
  | _ => True

theorem untimed_stamped (nodes : List Contact) (clock : ℕ → ℕ) :
    (nodes.zipIdx.map fun e : Contact × ℕ =>
        { e.1 with lastSeen := clock e.2 }).map Contact.untimed =
      nodes.map Contact.untimed := by
  have hfst := congrArg (List.map Contact.untimed) (List.zipIdx_map_fst 0 nodes)
  rw [List.map_map] at hfst ⊢
  exact hfst

theorem bytes20From_eq {d : List (Bytes × BencodeValue)} {key : String}
    (id : Digest) (h : get d (ascii key) = some (.bytes id.1)) :
    bytes20From d key = .ok id := by
  simp [bytes20From, required, h, ofOption, asBytes, id.2]

theorem portOf_ofNat (port : UInt16) : portOf (ofNat port.toNat) = port := by
  have hlt := port.toNat_lt
  have hval : (ofNat port.toNat).toInt = port.toNat :=
    toInt_ofNat_of_lt (by omega)
  rw [portOf, hval, if_pos (by omega), Int.toNat_natCast, UInt16.ofNat_toNat]

/-! ## The encoded dictionary is read back -/

theorem nested_valuesToList (values : List SocketAddr) :
    Nested 1 (valuesToList values) := by
  apply nested_list
  intro v hv
  obtain ⟨addr, -, haddr⟩ := List.mem_filterMap.mp hv
  unfold valueToBytes at haddr
  split at haddr
  · cases haddr
    exact nested_bytes 0 _
  · cases haddr

theorem nested_queryDict {txid : Bytes} {name : String} {args : BencodeValue}
    (h : Nested 1 args) : Nested 2 (queryDict txid name args) :=
  nested_buildDict (by simp [h])

variable (clock : ℕ → ℕ) (txid : Bytes)

theorem Query.nested_toValue (q : Query) : Nested 2 (q.toValue txid) := by
  cases q <;> exact nested_queryDict (nested_buildDict (by simp))

theorem Response.nested_toValue (r : Response) : Nested 2 r.toValue := by
  cases r <;> exact nested_buildDict (by simp [nested_valuesToList])

theorem Message.nested_toValue (m : Message) : Nested 3 m.toValue := by
  cases m with
  | query txid q => exact (q.nested_toValue txid).mono (by decide)
  | response txid r => exact nested_buildDict (by simp [r.nested_toValue])
  | error txid code text =>
    have hlist : Nested 1 (.list [.int code, .bytes text.1]) :=
      nested_list (by simp)
    exact nested_buildDict (by simp [hlist.mono])

theorem ofValue_queryDict {clock : ℕ → ℕ} {txid : Bytes} {name : String}
    {args : List (Bytes × BencodeValue)} {q : Query}
    (h : decodeQuery (ascii name) args = .ok q) :
    ofValue clock (queryDict txid name (.dict args)) = .ok (.query txid q) := by
  change (do return query txid (← decodeQuery (ascii name) args)) = _
  rw [h]
  rfl

theorem ofValue_query (q : Query) :
    ofValue clock (q.toValue txid) = .ok (.query txid q) := by
  cases q with
  | ping own =>
    apply ofValue_queryDict
    rw [decodeQuery, nodeIdFrom, bytes20From_eq own rfl]
    rfl
  | findNode own target =>
    apply ofValue_queryDict
    rw [decodeQuery, nodeIdFrom, bytes20From_eq own rfl, nodeIdFrom,
      bytes20From_eq target rfl]
    rfl
  | getPeers own infoHash =>
    apply ofValue_queryDict
    rw [decodeQuery, nodeIdFrom, bytes20From_eq own rfl,
      bytes20From_eq infoHash rfl]
    rfl
  | announcePeer own infoHash port token impliedPort =>
    apply ofValue_queryDict
    rw [decodeQuery, nodeIdFrom, bytes20From_eq own rfl,
      bytes20From_eq infoHash rfl]
    have hport : portOf (ofNat port.toNat) = port := portOf_ofNat port
    cases impliedPort
    · exact congrArg ok (congrArg
        (fun p => Query.announcePeer own infoHash p token false) hport)
    · exact congrArg ok (congrArg
        (fun p => Query.announcePeer own infoHash p token true) hport)

theorem decodeResponse_eq {clock : ℕ → ℕ} {d : List (Bytes × BencodeValue)}
    {own : NodeId} {nodes : Option (List Contact)}
    {values : Option (List SocketAddr)} {token : Option Bytes}
    (hid : get d (ascii "id") = some (.bytes own.1))
    (hnodes : transposed (parseNodesBytes clock) (bytesOf d "nodes") =
      .ok nodes)
    (hvalues : transposed parseValuesList (get d (ascii "values")) = .ok values)
    (htoken : bytesOf d "token" = token) :
    decodeResponse clock d = .ok (assemble own nodes values token) := by
  rw [decodeResponse, nodeIdFrom, bytes20From_eq own hid, ok_bind, hnodes,
    ok_bind, hvalues, ok_bind, htoken]
  rfl

theorem transposed_nodes {nodes : List Contact}
    (hnodes : ∀ c ∈ nodes, Compact c.addr) (clock : ℕ → ℕ) :
    transposed (parseNodesBytes clock) (some (nodesToBytes nodes)) =
      .ok (some (nodes.zipIdx.map fun e =>
        { e.1 with lastSeen := clock e.2 })) := by
  rw [transposed, parseNodesBytes_nodesToBytes hnodes]
  rfl

theorem ofValue_response {r : Response} (h : r.Compact) :
    ∃ r', ofValue clock (response txid r).toValue =
        .ok (.response txid r') ∧ r'.untimed = r.untimed := by
  have key : ∀ {d : List (Bytes × BencodeValue)} {r' : Response},
      r.toValue = .dict d → decodeResponse clock d = .ok r' →
        ofValue clock (response txid r).toValue = .ok (.response txid r') := by
    intro d r' hd hr'
    rw [toValue, hd]
    change (do return response txid (← decodeResponse clock d)) = _
    rw [hr']
    rfl
  cases r with
  | id own => exact ⟨_, key rfl (decodeResponse_eq rfl rfl rfl rfl), rfl⟩
  | nodes own closer =>
    refine ⟨_, key rfl
      (decodeResponse_eq rfl (transposed_nodes h clock) rfl rfl), ?_⟩
    exact congrArg (Response.nodes own) (untimed_stamped closer clock)
  | peers own token values =>
    have hvalues : transposed parseValuesList (some (valuesToList values)) =
        .ok (some values) := by
      rw [transposed, parseValuesList_valuesToList h]
      rfl
    exact ⟨_, key rfl (decodeResponse_eq rfl rfl hvalues rfl), rfl⟩
  | peersNodes own token closer =>
    refine ⟨_, key rfl
      (decodeResponse_eq rfl (transposed_nodes h clock) rfl rfl), ?_⟩
    exact congrArg (Response.peersNodes own token)
      (untimed_stamped closer clock)

theorem ofValue_error (code : Int64) (text : Utf8.Str) :
    ofValue clock (error txid code text).toValue =
      .ok (.error txid code text) := by
  have htext : strOrEmpty (.bytes text.1) = text := by
    rw [strOrEmpty, Utf8.Str.ofBytes_val]
    rfl
  exact congrArg ok (congrArg (error txid code) htext)

theorem ofValue_toValue {m : Message} (h : m.Compact) :
    ∃ m', ofValue clock m.toValue = .ok m' ∧ m'.untimed = m.untimed := by
  cases m with
  | query txid q => exact ⟨_, ofValue_query clock txid q, rfl⟩
  | response txid r =>
    obtain ⟨r', hr', hsame⟩ := ofValue_response clock txid h
    exact ⟨_, hr', congrArg (response txid) hsame⟩
  | error txid code text => exact ⟨_, ofValue_error clock txid code text, rfl⟩

/-- A message whose addresses all have a compact form and whose encoding is a
`Vec` is read back from it, up to when its contacts were seen; and the writer
used for it is the bencode writer, on every value. -/
theorem decode_encode_untimed : (∀ (clock : ℕ → ℕ) (m : Message), m.Compact →
      m.encode.length < 2 ^ 63 →
      ∃ m', Message.decode clock m.encode = .ok m' ∧ m'.untimed = m.untimed) ∧
    ∀ v : BencodeValue, encode v = v.toBytes := by
  refine ⟨fun clock m hm hlen => ?_, encode_eq⟩
  have henc : m.encode = m.toValue.toBytes := encode_eq m.toValue
  rw [henc] at hlen
  have hread : parseAll m.encode = .ok m.toValue := by
    rw [henc]
    exact parseAll_toBytes (m.nested_toValue.mono (by decide)) hlen
  obtain ⟨m', hm', hsame⟩ := ofValue_toValue clock hm
  refine ⟨m', ?_, hsame⟩
  rw [Message.decode, hread]
  exact hm'

/-- A response that lists one contact. -/
def contactReply : Message :=
  .response (ascii "aa") (.peersNodes Digest.zeroed (ascii "tok")
    [⟨Digest.zeroed, ⟨.v4 #v[192, 0, 2, 7], 6881⟩, 42⟩])

theorem decode_encode_untimed_contactReply :
    ∃ m', Message.decode (fun _ => 99) contactReply.encode = .ok m' ∧
      m'.untimed = contactReply.untimed := by
  refine decode_encode_untimed.1 _ contactReply ?_ (by decide +kernel)
  rintro c hc
  rw [List.mem_singleton.mp hc]
  exact ⟨⟨_, rfl⟩, by decide⟩

end RustyTorrent.Dht
