import RustyTorrent.Peer.Utp.Packet
import RustyTorrent.Support.ByteStream
import RustyTorrent.Support.Outcome

/-!
# The uTP packet codec

`peer/utp/packet.rs`: a header of twenty bytes, the chain of extensions and
the payload.  Each entry of the chain holds the kind of the entry after it;
the kind of the first entry stands in the header.  An access of `decode` to
a byte that is not there unwinds.
-/

namespace RustyTorrent.Utp

open Outcome List PacketType Nat

def headerLen : ℕ := 20

def version : UInt8 := 1

def extNone : UInt8 := 0

def PacketType.toNibble : PacketType → UInt8
  | .data => 0
  | .fin => 1
  | .state => 2
  | .reset => 3
  | .syn => 4

def PacketType.fromNibble (v : UInt8) : Outcome Error PacketType :=
  if v = 0 then .ok .data
  else if v = 1 then .ok .fin
  else if v = 2 then .ok .state
  else if v = 3 then .ok .reset
  else if v = 4 then .ok .syn
  else .err (.network s!"utp: unknown packet type {v.toNat}")

/-! ## Encoding -/

/-- The kind of the first entry of a chain. -/
def firstKind (extensions : List Extension) : UInt8 :=
  (extensions.head?.map Extension.kind).getD extNone

def encodeExtensionChain : List Extension → Bytes
  | [] => []
  | ext :: rest =>
    firstKind rest :: UInt8.ofNat ext.data.length ::
      (ext.data ++ encodeExtensionChain rest)

namespace Packet

/-- The byte of the type and the version. -/
def typeVer (p : Packet) : UInt8 :=
  (p.packetType.toNibble <<< 4) ||| (version &&& 0x0F)

def encode (p : Packet) : Bytes :=
  p.typeVer :: firstKind p.extensions ::
    (toBytesBe 2 p.connectionId.toNat ++
      (toBytesBe 4 p.timestampMicros.toNat ++
        (toBytesBe 4 p.timestampDiffMicros.toNat ++
          (toBytesBe 4 p.wndSize.toNat ++
            (toBytesBe 2 p.seqNr.toNat ++
              (toBytesBe 2 p.ackNr.toNat ++
                (encodeExtensionChain p.extensions ++ p.payload)))))))

end Packet

/-! ## Decoding -/

/-- `from_be_bytes` of the bytes at a place. -/
def readBe (start width : ℕ) (buf : Bytes) : Outcome Error ℕ := do
  let bytes ← slice start (start + width) buf
  .ok (ofBytesBe bytes)

/-- The loop of `decode` from the entry at `cursor` on: the entries and the
place where the chain ends. -/
def decodeChain (buf : Bytes) (cursor : ℕ) (nextExt : UInt8) :
    Outcome Error (List Extension × ℕ) :=
  if nextExt = extNone then .ok ([], cursor)
  else if buf.length < cursor + 2 then
    .err (.network "utp: truncated extension chain header")
  else do
    let kind ← index cursor buf
    let len ← index (cursor + 1) buf
    if buf.length < cursor + 2 + len.toNat then
      .err (.network (s!"utp: extension body overflows packet: cursor=" ++
        s!"{cursor + 2} len={len.toNat} bufsize={buf.length}"))
    else do
      let data ← slice (cursor + 2) (cursor + 2 + len.toNat) buf
      let rest ← decodeChain buf (cursor + 2 + len.toNat) kind
      .ok (⟨nextExt, data⟩ :: rest.1, rest.2)
  termination_by buf.length - cursor

def Packet.decode (buf : Bytes) : Outcome Error Packet :=
  if buf.length < headerLen then
    .err (.network (s!"utp: packet too short: {buf.length} bytes, " ++
      s!"need at least {headerLen}"))
  else do
    let typeVer ← index 0 buf
    let packetType ← PacketType.fromNibble (typeVer >>> 4)
    if typeVer &&& 0x0F ≠ version then
      .err (.network (s!"utp: unsupported version " ++
        s!"{(typeVer &&& 0x0F).toNat}, expected {version.toNat}"))
    else do
      let firstExt ← index 1 buf
      let connectionId ← readBe 2 2 buf
      let timestampMicros ← readBe 4 4 buf
      let timestampDiffMicros ← readBe 8 4 buf
      let wndSize ← readBe 12 4 buf
      let seqNr ← readBe 16 2 buf
      let ackNr ← readBe 18 2 buf
      let chain ← decodeChain buf headerLen firstExt
      let payload ← sliceFrom chain.2 buf
      .ok
        { packetType := packetType
          connectionId := UInt16.ofNat connectionId
          timestampMicros := UInt32.ofNat timestampMicros
          timestampDiffMicros := UInt32.ofNat timestampDiffMicros
          wndSize := UInt32.ofNat wndSize
          seqNr := UInt16.ofNat seqNr
          ackNr := UInt16.ofNat ackNr
          extensions := chain.1
          payload := payload }

/-! ## Type and version -/

theorem PacketType.fromNibble_ne_panic (v : UInt8) : fromNibble v ≠ .panic := by
  unfold fromNibble
  split_ifs
  all_goals exact nofun

theorem PacketType.fromNibble_eq_ok {v : UInt8} {t : PacketType} :
    fromNibble v = .ok t ↔ v = t.toNibble := by
  unfold fromNibble
  split_ifs with h0 h1 h2 h3 h4
  all_goals subst_vars
  all_goals cases t
  all_goals simp_all [toNibble]

theorem Packet.typeVer_shiftRight (p : Packet) :
    p.typeVer >>> 4 = p.packetType.toNibble := by
  unfold typeVer
  cases p.packetType
  all_goals decide

theorem Packet.typeVer_and (p : Packet) : p.typeVer &&& 0x0F = version := by
  unfold typeVer
  cases p.packetType
  all_goals decide

/-- A byte with the version in its low half is the one written for its
type. -/
theorem Packet.typeVer_eq {b : UInt8} {p : Packet}
    (htype : b >>> 4 = p.packetType.toNibble) (hver : b &&& 0x0F = version) :
    p.typeVer = b := by
  have hhigh : b.toNat / 16 = p.packetType.toNibble.toNat := by
    rw [← htype, UInt8.toNat_shiftRight, shiftRight_eq_div_pow]
    rfl
  have hlow : b.toNat % 16 = 1 := by
    have hand := congrArg UInt8.toNat hver
    rw [UInt8.toNat_and] at hand
    exact (and_two_pow_sub_one_eq_mod b.toNat 4).symm.trans hand
  apply UInt8.toNat_inj.mp
  have hb : b.toNat = 16 * p.packetType.toNibble.toNat + 1 := by omega
  rw [hb, typeVer]
  cases p.packetType
  all_goals rfl

/-! ## The chain -/

/-- An extension the wire can carry. -/
def Extension.Encodable (e : Extension) : Prop :=
  e.kind ≠ extNone ∧ e.data.length ≤ 255

/-- A packet whose extensions the wire can carry. -/
def Packet.Encodable (p : Packet) : Prop :=
  ∀ e ∈ p.extensions, e.Encodable

instance (e : Extension) : Decidable e.Encodable :=
  inferInstanceAs (Decidable (_ ∧ _))

instance (p : Packet) : Decidable p.Encodable :=
  inferInstanceAs (Decidable (∀ e ∈ p.extensions, e.Encodable))

theorem decodeChain_ne_panic (buf : Bytes) (cursor : ℕ) (nextExt : UInt8) :
    decodeChain buf cursor nextExt ≠ .panic := by
  fun_induction decodeChain buf cursor nextExt with
  | case1 | case2 => exact nofun
  | case3 cursor nextExt hkind hlen ih =>
    rw [index_of_lt (by omega), index_of_lt (by omega), ok_bind, ok_bind]
    split
    next => exact nofun
    next hbody =>
      rw [slice_of_le (by omega) (by omega), ok_bind]
      exact bind_ne_panic (ih _ _ hbody) nofun

theorem decodeChain_entry (front later : Bytes) (kind : UInt8) {nextExt : UInt8}
    {data : Bytes} (hnext : nextExt ≠ extNone) (hlen : data.length ≤ 255) :
    decodeChain (front ++ kind :: UInt8.ofNat data.length :: (data ++ later))
        front.length nextExt =
      (do
        let rest ← decodeChain
          (front ++ kind :: UInt8.ofNat data.length :: (data ++ later))
          (front.length + 2 + data.length) kind
        .ok (⟨nextExt, data⟩ :: rest.1, rest.2)) := by
  have hbyte : (UInt8.ofNat data.length).toNat = data.length :=
    UInt8.toNat_ofNat_of_lt' (lt_succ_of_le hlen)
  generalize hbuf :
    front ++ kind :: UInt8.ofNat data.length :: (data ++ later) = buf
  have hsize : front.length + 2 + data.length ≤ buf.length := by
    rw [← hbuf]
    simp
    omega
  have hkind : buf[front.length]? = some kind := by
    rw [← hbuf]
    simp
  have hcount : buf[front.length + 1]? = some (UInt8.ofNat data.length) := by
    rw [← hbuf, getElem?_append_right (by omega)]
    simp
  have hdata : (buf.drop (front.length + 2)).take data.length = data := by
    rw [← hbuf, ← drop_drop, drop_left]
    simp
  rw [decodeChain, if_neg hnext, if_neg (by omega), index_eq_ok.mpr hkind,
    index_eq_ok.mpr hcount, ok_bind, ok_bind, hbyte, if_neg (by omega),
    slice_of_le (by omega) hsize, ok_bind, Nat.add_sub_cancel_left, hdata]

theorem decodeChain_encode {extensions : List Extension}
    (h : ∀ e ∈ extensions, e.Encodable) (front payload : Bytes) :
    decodeChain (front ++ (encodeExtensionChain extensions ++ payload))
        front.length (firstKind extensions) =
      .ok (extensions,
        front.length + (encodeExtensionChain extensions).length) := by
  induction extensions generalizing front with
  | nil => simp [decodeChain, firstKind, encodeExtensionChain]
  | cons ext rest ih =>
    obtain ⟨hkind, hlen⟩ := h ext (by simp)
    have hrest := ih (fun e he => h e (by simp [he]))
      (front ++ firstKind rest :: UInt8.ofNat ext.data.length :: ext.data)
    have hentry := decodeChain_entry front
      (encodeExtensionChain rest ++ payload) (firstKind rest) hkind hlen
    simp only [append_assoc, cons_append, length_append, length_cons] at hrest
    simp only [encodeExtensionChain, append_assoc, cons_append,
      length_append, length_cons]
    refine hentry.trans ?_
    rw [show front.length + 2 + ext.data.length =
      front.length + (ext.data.length + 1 + 1) by omega, hrest, ok_bind]
    simp only [add_assoc, add_comm 1]

/-- What the loop accepts is the chain it returns, in front of what follows
it. -/
theorem encode_decodeChain {buf : Bytes} {cursor : ℕ} {nextExt : UInt8}
    {extensions : List Extension} {stop : ℕ}
    (h : decodeChain buf cursor nextExt = .ok (extensions, stop))
    (hcursor : cursor ≤ buf.length) :
    nextExt = firstKind extensions ∧ stop ≤ buf.length ∧ buf.drop cursor =
        encodeExtensionChain extensions ++ buf.drop stop ∧
      ∀ e ∈ extensions, e.Encodable := by
  fun_induction decodeChain buf cursor nextExt generalizing extensions stop with
  | case1 cursor =>
    obtain ⟨rfl, rfl⟩ : [] = extensions ∧ cursor = stop := by simpa using h
    exact ⟨rfl, hcursor, rfl, by simp⟩
  | case2 => cases h
  | case3 cursor nextExt hkind hlen ih =>
    have hfirst : cursor < buf.length := by omega
    have hsecond : cursor + 1 < buf.length := by omega
    rw [index_of_lt hfirst, index_of_lt hsecond, ok_bind, ok_bind] at h
    split at h
    next => cases h
    next hbody =>
      rw [slice_of_le (by omega) (by omega), ok_bind,
        Nat.add_sub_cancel_left] at h
      obtain ⟨⟨later, stop'⟩, hlater, heq⟩ := bind_eq_ok.mp h
      obtain ⟨rfl, rfl⟩ : _ :: later = extensions ∧ stop' = stop := by
        simpa using heq
      obtain ⟨hnext, hstop, hdrop, hall⟩ := ih _ _ hbody hlater (by omega)
      generalize hcount : buf[cursor + 1] = count at *
      have hdata : ((buf.drop (cursor + 2)).take count.toNat).length =
          count.toNat := by
        rw [length_take, length_drop]
        omega
      have hsplit := take_append_drop count.toNat (buf.drop (cursor + 2))
      rw [drop_drop] at hsplit
      refine ⟨rfl, hstop, ?_, ?_⟩
      · rw [encodeExtensionChain, hdata, UInt8.ofNat_toNat, ← hnext,
          drop_eq_getElem_cons hfirst,
          drop_eq_getElem_cons hsecond, hcount, cons_append,
          cons_append, append_assoc, ← hdrop, hsplit]
      · rintro e (_ | ⟨_, he⟩)
        · exact ⟨hkind, hdata.le.trans (le_of_lt_succ count.toNat_lt)⟩
        · exact hall e he

/-! ## The header -/

theorem drop_field {buf field later : Bytes} {start width : ℕ}
    (h : buf.drop start = field ++ later) (hwidth : field.length = width) :
    buf.drop (start + width) = later := by
  rw [← drop_drop, h, drop_left' hwidth]

theorem readBe_of_drop {buf later : Bytes} {start width n : ℕ}
    (h : buf.drop start = toBytesBe width n ++ later) (hn : n < 256 ^ width)
    (hend : start + width ≤ buf.length) : readBe start width buf = .ok n := by
  rw [readBe, slice_of_le (by omega) hend, ok_bind, Nat.add_sub_cancel_left,
    h, take_left' (length_toBytesBe ..), ofBytesBe_toBytesBe,
    mod_eq_of_lt hn]

namespace Packet

/-- The header of a packet behind any first two bytes. -/
def header (p : Packet) (typeVer firstExt : UInt8) : Bytes :=
  typeVer :: firstExt ::
    (toBytesBe 2 p.connectionId.toNat ++
      (toBytesBe 4 p.timestampMicros.toNat ++
        (toBytesBe 4 p.timestampDiffMicros.toNat ++
          (toBytesBe 4 p.wndSize.toNat ++
            (toBytesBe 2 p.seqNr.toNat ++ toBytesBe 2 p.ackNr.toNat)))))

variable (p : Packet)

theorem length_header (typeVer firstExt : UInt8) :
    (p.header typeVer firstExt).length = headerLen := by
  simp [header, headerLen]

theorem encode_eq :
    p.encode = p.header p.typeVer (firstKind p.extensions) ++
      (encodeExtensionChain p.extensions ++ p.payload) := by
  simp [encode, header]

/-- Whatever its type and its rest are, a datagram of some length starts with
the header of a packet. -/
theorem exists_header {buf : Bytes} (h : headerLen ≤ buf.length) :
    ∃ (p : Packet) (typeVer firstExt : UInt8) (rest : Bytes),
      buf = p.header typeVer firstExt ++ rest := by
  match buf, h with
  | typeVer :: firstExt :: tail, h =>
    have hlen : 18 ≤ tail.length := Nat.le_of_add_le_add_right (b := 2) h
    have hcut (start width : ℕ) (hend : start + width ≤ 18) :
        ofBytesBe ((tail.drop start).take width) < 256 ^ width ∧
        toBytesBe width (ofBytesBe ((tail.drop start).take width)) ++
          tail.drop (start + width) = tail.drop start := by
      have hwidth : ((tail.drop start).take width).length = width := by
        rw [length_take, length_drop]
        omega
      have hlt := ofBytesBe_lt ((tail.drop start).take width)
      have hsame := toBytesBe_ofBytesBe ((tail.drop start).take width)
      rw [hwidth] at hlt hsame
      rw [hsame, ← drop_drop, take_append_drop]
      exact ⟨hlt, rfl⟩
    have hword (start : ℕ) (hend : start + 2 ≤ 18) : ∃ n : UInt16,
        toBytesBe 2 n.toNat ++ tail.drop (start + 2) = tail.drop start := by
      obtain ⟨hlt, heq⟩ := hcut start 2 hend
      exact ⟨.ofNat _, by rwa [UInt16.toNat_ofNat_of_lt' hlt]⟩
    have hlong (start : ℕ) (hend : start + 4 ≤ 18) : ∃ n : UInt32,
        toBytesBe 4 n.toNat ++ tail.drop (start + 4) = tail.drop start := by
      obtain ⟨hlt, heq⟩ := hcut start 4 hend
      exact ⟨.ofNat _, by rwa [UInt32.toNat_ofNat_of_lt' hlt]⟩
    obtain ⟨connectionId, h0⟩ := hword 0 (by decide)
    obtain ⟨timestampMicros, h2⟩ := hlong 2 (by decide)
    obtain ⟨timestampDiffMicros, h6⟩ := hlong 6 (by decide)
    obtain ⟨wndSize, h10⟩ := hlong 10 (by decide)
    obtain ⟨seqNr, h14⟩ := hword 14 (by decide)
    obtain ⟨ackNr, h16⟩ := hword 16 (by decide)
    refine ⟨⟨.data, connectionId, timestampMicros, timestampDiffMicros,
      wndSize, seqNr, ackNr, [], []⟩, typeVer, firstExt, tail.drop 18, ?_⟩
    simp only [header, cons_append, append_assoc]
    rw [h16, h14, h10, h6, h2, h0, drop_zero]

theorem decode_header (typeVer firstExt : UInt8) (rest : Bytes) :
    let buf := p.header typeVer firstExt ++ rest
    decode buf = (do
      let packetType ← fromNibble (typeVer >>> 4)
      if typeVer &&& 0x0F ≠ version then
        .err (.network (s!"utp: unsupported version " ++
          s!"{(typeVer &&& 0x0F).toNat}, expected {version.toNat}"))
      else do
        let chain ← decodeChain buf headerLen firstExt
        let payload ← sliceFrom chain.2 buf
        .ok { p with
          packetType := packetType
          extensions := chain.1
          payload := payload }) := by
  intro buf
  have hlen : headerLen ≤ buf.length := by
    rw [length_append, length_header]
    omega
  have hbuf : buf = p.header typeVer firstExt ++ rest := rfl
  simp only [header, cons_append, append_assoc] at hbuf
  have h2 : buf.drop 2 = toBytesBe 2 p.connectionId.toNat ++ _ :=
    congrArg (drop 2) hbuf
  have h4 : buf.drop 4 = toBytesBe 4 p.timestampMicros.toNat ++ _ :=
    drop_field h2 (length_toBytesBe ..)
  have h8 : buf.drop 8 = toBytesBe 4 p.timestampDiffMicros.toNat ++ _ :=
    drop_field h4 (length_toBytesBe ..)
  have h12 : buf.drop 12 = toBytesBe 4 p.wndSize.toNat ++ _ :=
    drop_field h8 (length_toBytesBe ..)
  have h16 : buf.drop 16 = toBytesBe 2 p.seqNr.toNat ++ _ :=
    drop_field h12 (length_toBytesBe ..)
  have h18 : buf.drop 18 = toBytesBe 2 p.ackNr.toNat ++ _ :=
    drop_field h16 (length_toBytesBe ..)
  have hend {n : ℕ} (h : n ≤ 20) : n ≤ buf.length := h.trans hlen
  have hfirst : (index 0 buf : Outcome Error UInt8) = .ok typeVer := rfl
  have hsecond : (index 1 buf : Outcome Error UInt8) = .ok firstExt := rfl
  rw [decode, if_neg (not_lt.mpr hlen), hfirst, ok_bind, hsecond,
    readBe_of_drop h2 p.connectionId.toNat_lt (hend (by omega)),
    readBe_of_drop h4 p.timestampMicros.toNat_lt (hend (by omega)),
    readBe_of_drop h8 p.timestampDiffMicros.toNat_lt (hend (by omega)),
    readBe_of_drop h12 p.wndSize.toNat_lt (hend (by omega)),
    readBe_of_drop h16 p.seqNr.toNat_lt (hend (by omega)),
    readBe_of_drop h18 p.ackNr.toNat_lt (hend (by omega))]
  simp only [ok_bind, UInt16.ofNat_toNat, UInt32.ofNat_toNat]

/-! ## The codec -/

theorem decode_encode {p : Packet} (h : p.Encodable) :
    decode p.encode = .ok p := by
  have hchain := decodeChain_encode h
    (p.header p.typeVer (firstKind p.extensions)) p.payload
  rw [length_header] at hchain
  have hend : headerLen + (encodeExtensionChain p.extensions).length ≤
      p.encode.length := by
    rw [encode_eq, length_append, length_header, length_append]
    omega
  have hpayload : p.encode.drop
      (headerLen + (encodeExtensionChain p.extensions).length) =
      p.payload := by
    rw [encode_eq, ← drop_drop, drop_left' (length_header ..), drop_left]
  rw [encode_eq] at hend hpayload ⊢
  rw [decode_header, fromNibble_eq_ok.mpr p.typeVer_shiftRight,
    ok_bind, if_neg (not_not.mpr p.typeVer_and), hchain, ok_bind,
    sliceFrom_of_le hend, ok_bind, hpayload]

theorem encode_decode {buf : Bytes} {p : Packet} (h : decode buf = .ok p) :
    p.encode = buf ∧ p.Encodable := by
  by_cases hlen : buf.length < headerLen
  · rw [decode, if_pos hlen] at h
    cases h
  obtain ⟨q, typeVer, firstExt, rest, rfl⟩ := exists_header (not_lt.mp hlen)
  rw [decode_header] at h
  obtain ⟨packetType, htype, h⟩ := bind_eq_ok.mp h
  split at h
  next => cases h
  next hver =>
    obtain ⟨⟨extensions, stop⟩, hchain, h⟩ := bind_eq_ok.mp h
    obtain ⟨payload, hpayload, h⟩ := bind_eq_ok.mp h
    obtain ⟨hfirst, hstop, hdrop, hall⟩ :=
      encode_decodeChain hchain (not_lt.mp hlen)
    rw [sliceFrom_of_le hstop] at hpayload
    cases hpayload
    cases h
    rw [drop_left' (length_header ..)] at hdrop
    rw [encode_eq, typeVer_eq (fromNibble_eq_ok.mp htype)
      (not_not.mp hver), ← hfirst, ← hdrop]
    exact ⟨rfl, hall⟩

theorem decode_ne_panic (buf : Bytes) : decode buf ≠ .panic := by
  by_cases hlen : buf.length < headerLen
  · rw [decode, if_pos hlen]
    exact nofun
  obtain ⟨q, typeVer, firstExt, rest, rfl⟩ := exists_header (not_lt.mp hlen)
  rw [decode_header]
  refine bind_ne_panic (fromNibble_ne_panic _) fun packetType _ => ?_
  split
  next => exact nofun
  next =>
    refine bind_ne_panic (decodeChain_ne_panic _ _ _) ?_
    rintro ⟨extensions, stop⟩ hchain
    obtain ⟨-, hstop, -⟩ := encode_decodeChain hchain (not_lt.mp hlen)
    rw [sliceFrom_of_le hstop]
    exact nofun

/-- The codec is a bijection between the packets whose extensions the wire
can carry and the datagrams it accepts, and it reads no byte that is not
there. -/
theorem codec_exact : (∀ p : Packet, p.Encodable → decode p.encode = .ok p) ∧
      (∀ (buf : Bytes) (p : Packet), decode buf = .ok p →
        p.encode = buf ∧ p.Encodable) ∧
      ∀ buf : Bytes, decode buf ≠ .panic :=
  ⟨fun _ h => decode_encode h, fun _ _ h => encode_decode h, decode_ne_panic⟩

/-- A DATA packet with two extensions. -/
def twoExtensions : Packet where
  packetType := .data
  connectionId := 7
  timestampMicros := 1000
  timestampDiffMicros := 20
  wndSize := 1048576
  seqNr := 65535
  ackNr := 3
  extensions := [⟨1, [5, 0, 0, 0]⟩, ⟨2, []⟩]
  payload := [10, 20, 30]

theorem codec_exact_twoExtensions : twoExtensions.Encodable ∧
      decode twoExtensions.encode = .ok twoExtensions ∧
      decode twoExtensions.encode ≠ .panic := by
  have h : twoExtensions.Encodable := by decide
  exact ⟨h, codec_exact.1 _ h, codec_exact.2.2 _⟩

end Packet

end RustyTorrent.Utp
