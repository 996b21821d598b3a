import RustyTorrent.Error
import RustyTorrent.Support.ByteStream

/-!
# The peer wire protocol

`peer/message.rs`: the messages, their encoder and decoder, and the framing
with a four-byte length.  A stream is the list of chunks that single reads
return; `Reader` adds how the stream ends.
-/

namespace RustyTorrent.Peer

/-- `BLOCK_SIZE`: 16 KiB. -/
def blockSize : ℕ := 16384

inductive Message where
  | keepAlive
  | choke
  | unchoke
  | interested
  | notInterested
  | have_ (index : UInt32)
  | bitfield (bytes : Bytes)
  | request (index begin_ length : UInt32)
  | piece (index begin_ : UInt32) (data : Bytes)
  | cancel (index begin_ length : UInt32)
  | extended (extId : UInt8) (payload : Bytes)
  | haveAll
  | haveNone
  | rejectRequest (index begin_ length : UInt32)
  | allowedFast (index : UInt32)
  | suggestPiece (index : UInt32)
  deriving DecidableEq, Repr

/-- `u32::to_be_bytes`. -/
def be32 (n : UInt32) : Bytes := toBytesBe 4 n.toNat

/-- `u32::from_be_bytes` of the four bytes at an offset. -/
def u32At (offset : ℕ) (p : Bytes) : UInt32 :=
  UInt32.ofNat (ofBytesBe ((p.drop offset).take 4))

namespace Message

def idChoke : UInt8 := 0
def idUnchoke : UInt8 := 1
def idInterested : UInt8 := 2
def idNotInterested : UInt8 := 3
def idHave : UInt8 := 4
def idBitfield : UInt8 := 5
def idRequest : UInt8 := 6
def idPiece : UInt8 := 7
def idCancel : UInt8 := 8
def idExtended : UInt8 := 20
def idSuggest : UInt8 := 13
def idHaveAll : UInt8 := 14
def idHaveNone : UInt8 := 15
def idReject : UInt8 := 16
def idAllowedFast : UInt8 := 17

/-- `tag`.  The length is a `u32`, so it is taken modulo `2 ^ 32`. -/
def tag (id : UInt8) (payload : Bytes) : Bytes :=
  toBytesBe 4 (1 + payload.length) ++ id :: payload

def encode : Message → Bytes
  | .keepAlive => toBytesBe 4 0
  | .choke => tag idChoke []
  | .unchoke => tag idUnchoke []
  | .interested => tag idInterested []
  | .notInterested => tag idNotInterested []
  | .have_ i => tag idHave (be32 i)
  | .bitfield b => tag idBitfield b
  | .request i b l => tag idRequest (be32 i ++ be32 b ++ be32 l)
  | .piece i b data => tag idPiece (be32 i ++ be32 b ++ data)
  | .cancel i b l => tag idCancel (be32 i ++ be32 b ++ be32 l)
  | .extended e payload => tag idExtended (e :: payload)
  | .haveAll => tag idHaveAll []
  | .haveNone => tag idHaveNone []
  | .rejectRequest i b l => tag idReject (be32 i ++ be32 b ++ be32 l)
  | .allowedFast i => tag idAllowedFast (be32 i)
  | .suggestPiece i => tag idSuggest (be32 i)

/-- `ensure_empty`, followed by the message it guards. -/
def ensureEmpty (p : Bytes) (msg : Message) : Except Error Message :=
  if p = [] then .ok msg
  else .error
    (.network s!"expected empty payload, got {p.length} bytes")

def decodeIndexBeginLength (p : Bytes) (id : UInt8) :
    Except Error Message :=
  if p.length ≠ 12 then
    .error (.network s!"request/cancel payload {p.length}")
  else if id = idCancel then
    .ok (.cancel (u32At 0 p) (u32At 4 p) (u32At 8 p))
  else .ok (.request (u32At 0 p) (u32At 4 p) (u32At 8 p))

/-- `decode`: a frame without its length prefix. -/
def decode : Bytes → Except Error Message
  | [] => .ok .keepAlive
  | id :: p =>
    if id = idChoke then ensureEmpty p .choke
    else if id = idUnchoke then ensureEmpty p .unchoke
    else if id = idInterested then ensureEmpty p .interested
    else if id = idNotInterested then ensureEmpty p .notInterested
    else if id = idHave then
      if p.length ≠ 4 then
        .error (.network s!"have payload {p.length} != 4")
      else .ok (.have_ (u32At 0 p))
    else if id = idBitfield then .ok (.bitfield p)
    else if id = idRequest then decodeIndexBeginLength p idRequest
    else if id = idPiece then
      if p.length < 8 then .error (.network s!"piece short: {p.length}")
      else .ok (.piece (u32At 0 p) (u32At 4 p) (p.drop 8))
    else if id = idCancel then decodeIndexBeginLength p idCancel
    else if id = idExtended then
      match p with
      | [] => .error (.network "extended payload empty")
      | extId :: payload => .ok (.extended extId payload)
    else if id = idHaveAll then ensureEmpty p .haveAll
    else if id = idHaveNone then ensureEmpty p .haveNone
    else if id = idReject then
      if p.length ≠ 12 then
        .error (.network s!"reject payload {p.length} != 12")
      else .ok (.rejectRequest (u32At 0 p) (u32At 4 p) (u32At 8 p))
    else if id = idAllowedFast ∨ id = idSuggest then
      if p.length ≠ 4 then
        .error (.network
          s!"fast extension piece index payload {p.length} != 4")
      else if id = idAllowedFast then .ok (.allowedFast (u32At 0 p))
      else .ok (.suggestPiece (u32At 0 p))
    else .error (.network s!"unknown message id {id.toNat}")

end Message

/-! ## Framing -/

/-- How the remote side's byte stream ends: closed, with an I/O error, or
with the remote side going silent. -/
inductive StreamEnd where
  | closed
  | reset
  | timedOut
  | silent
  deriving DecidableEq, Repr

/-- The reading half of a connection: the chunks still to arrive. -/
structure Reader where
  chunks : List Bytes
  ending : StreamEnd
  deriving DecidableEq, Repr

namespace Reader

/-- The bytes still to arrive. -/
def bytes (r : Reader) : Bytes := r.chunks.flatten

/-- Why a read stopped short: the text of the `io::Error`, or no answer. -/
inductive Stopped where
  | failed (text : String)
  | pending
  deriving DecidableEq, Repr

def stopped (r : Reader) : Stopped :=
  match r.ending with
  | .closed => .failed "early eof"
  | .reset => .failed "Connection reset by peer (os error 104)"
  | .timedOut => .failed "Connection timed out (os error 110)"
  | .silent => .pending

def readExact (n : ℕ) (r : Reader) : Except Stopped (Bytes × Reader) :=
  match ByteStream.readExact n r.chunks with
  | some (b, left) => .ok (b, { r with chunks := left })
  | none => .error r.stopped

end Reader

/-- What a framed read waits for or fails with. -/
inductive FrameError where
  | failed (e : Error)
  | pending
  deriving DecidableEq, Repr

/-- `map_err` of the two reads of a frame. -/
def FrameError.ofStopped (what : String) : Reader.Stopped → FrameError
  | .failed text => .failed (.network s!"{what}: {text}")
  | .pending => .pending

/-- `read_frame_into`: the frame's body, in the caller's buffer.  The buffer is
cleared and resized before the body is read into all of it, so what it held
before plays no part. -/
def readFrameInto (r : Reader) (maxLen : ℕ) (_buf : Bytes) :
    Except FrameError (Bytes × Reader) :=
  match r.readExact 4 with
  | .error s => .error (.ofStopped "frame len" s)
  | .ok (lenBuf, r) =>
    let len := ofBytesBe lenBuf
    if maxLen < len then
      .error (.failed (.network s!"frame too large: {len}"))
    else if len = 0 then .ok ([], r)
    else
      match r.readExact len with
      | .error s => .error (.ofStopped "frame body" s)
      | .ok (buf, r) => .ok (buf, r)

/-- `read_frame`: a keep-alive is returned before the length is checked. -/
def readFrame (r : Reader) (maxLen : ℕ) :
    Except FrameError (Bytes × Reader) :=
  match r.readExact 4 with
  | .error s => .error (.ofStopped "frame len" s)
  | .ok (lenBuf, r) =>
    let len := ofBytesBe lenBuf
    if len = 0 then .ok ([], r)
    else if maxLen < len then
      .error (.failed (.network s!"frame too large: {len}"))
    else
      match r.readExact len with
      | .error s => .error (.ofStopped "frame body" s)
      | .ok (buf, r) => .ok (buf, r)

/-- `write_frame`: the bytes handed to the writer. -/
def writeFrame (payload : Bytes) : Bytes :=
  toBytesBe 4 payload.length ++ payload

/-- `write_message`: the bytes handed to the writer, built in one pass for a
piece. -/
def writeMessage : Message → Bytes
  | .piece index begin_ data =>
    toBytesBe 4 (1 + 8 + data.length) ++ [Message.idPiece] ++
      be32 index ++ be32 begin_ ++ data
  | msg => msg.encode

/-! ## Bitfields -/

/-- The loop of `bitfield_to_bytes` over the bits from number `i` on. -/
def setBits : ℕ → List Bool → Bytes → Bytes
  | _, [], bytes => bytes
  | i, bit :: bf, bytes =>
    setBits (i + 1) bf
      (if bit then bytes.modify (i / 8) (· ||| (0x80 >>> UInt8.ofNat (i % 8)))
       else bytes)

def bitfieldToBytes (bf : List Bool) : Bytes :=
  setBits 0 bf (List.replicate ((bf.length + 7) / 8) 0)

end RustyTorrent.Peer
