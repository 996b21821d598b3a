import RustyTorrent.Metainfo.Torrent
import RustyTorrent.Peer.Extension
import RustyTorrent.Peer.Message
import RustyTorrent.Support.Pool

/-!
# Fetching the info dictionary from a peer

`peer/metadata_fetch.rs`: `exchange_metadata`, which requests the pieces of an
info dictionary from one peer and assembles them, and the process-wide budget
its buffers are reserved against.

An exchange is the state machine its awaits cut it into: a `Phase` is the
point at which the exchange is suspended, together with the locals that are
live there.  The bytes of the peer are a `Reader`, so a read that times out is
one whose bytes end in silence.  Between two awaits only the operations on the
shared counter are visible to other exchanges, and each of them is a step of
its own.  The log of an exchange records what it wrote, read, and copied.
-/

namespace RustyTorrent.Peer.MetadataFetch

open Metainfo Extension

def globalMetadataBudget : ℕ := 256 * 1024 * 1024

def fetchMaxFrameLen : ℕ := metadataPieceSize + 1024

def extHandshakeMaxFrames : ℕ := 64

def extNoiseFrameSlack : ℕ := 64

/-! ## The frame budget -/

structure FrameBudget where
  remaining : ℕ
  deriving DecidableEq, Repr

namespace FrameBudget

def new (limit : ℕ) : FrameBudget := ⟨limit⟩

def spend (b : FrameBudget) : Outcome Error FrameBudget :=
  if b.remaining = 0 then
    .err (.protocol ("ut_metadata bootstrap: peer frame budget exhausted " ++
      "(too many non-advancing frames)"))
  else .ok ⟨b.remaining - 1⟩

/-- `widen`, with its saturating addition. -/
def widen (b : FrameBudget) (dataFrames : ℕ) : FrameBudget :=
  ⟨min (2 ^ 64 - 1) (b.remaining + (dataFrames + extNoiseFrameSlack))⟩

end FrameBudget

/-! ## The shared counter -/

/-- `METADATA_BYTES_IN_FLIGHT`: its value, and the values it had before.  A
relaxed load may still observe one of those. -/
structure InFlight where
  value : ℕ
  earlier : List ℕ
  deriving DecidableEq, Repr

namespace InFlight

/-- A write to the counter. -/
def store (c : InFlight) (v : ℕ) : InFlight := ⟨v, c.value :: c.earlier⟩

/-- The values a relaxed load can return. -/
def Observable (c : InFlight) (v : ℕ) : Prop := v ∈ c.value :: c.earlier

instance (c : InFlight) (v : ℕ) : Decidable (c.Observable v) :=
  inferInstanceAs (Decidable (v ∈ c.value :: c.earlier))

/-- `fetch_sub` in `drop`, which wraps around. -/
def fetchSub (c : InFlight) (n : ℕ) : InFlight :=
  c.store ((c.value + 2 ^ 64 - n) % 2 ^ 64)

end InFlight

/-- The round of the loop in `try_acquire` up to its exchange: the value to
store, unless the addition overflows or the budget is exceeded. -/
def nextInFlight (cur bytes : ℕ) : Option ℕ :=
  if 2 ^ 64 ≤ cur + bytes then none
  else if globalMetadataBudget < cur + bytes then none
  else some (cur + bytes)

/-! ## One exchange -/

/-- What an exchange does to its connection and its buffer. -/
inductive Effect where
  | wrote (msg : Message)
  | read (frame : Bytes)
  | spent
  | copied (piece offset len : ℕ)
  deriving DecidableEq, Repr

/-- How an exchange ends: it returns, or its task is aborted. -/
inductive Ending where
  | returned (result : Outcome Error Bytes)
  | aborted
  deriving DecidableEq, Repr

/-- What the peer's handshake fixed: the locals of `exchange_metadata` while
it reserves memory. -/
structure Terms where
  theirId : UInt8
  totalSize : UInt32
  budget : FrameBudget
  deriving DecidableEq, Repr

/-- The locals of the piece loop. -/
structure Assembly where
  theirId : UInt8
  totalSize : UInt32
  budget : FrameBudget
  assembled : Bytes
  received : List Bool
  deriving DecidableEq, Repr

def numPieces (totalSize : UInt32) : ℕ :=
  Outcome.divCeil totalSize.toNat metadataPieceSize

/-- The locals at the first round of the piece loop. -/
def Terms.assembly (t : Terms) : Assembly where
  theirId := t.theirId
  totalSize := t.totalSize
  budget := t.budget.widen (numPieces t.totalSize)
  assembled := List.replicate t.totalSize.toNat 0
  received := List.replicate (numPieces t.totalSize) false

/-- Where an exchange is suspended.  `greeting` and `requesting` await a
write, `awaitHandshake` and `awaitResponse` a frame.  `reserving` is before
the load of `try_acquire`, `swapping` before its exchange of `cur` for `next`.
`leaving` is before the drop of the reservation. -/
inductive Phase where
  | greeting
  | awaitHandshake (budget : FrameBudget)
  | reserving (t : Terms)
  | swapping (t : Terms) (cur next : ℕ)
  | requesting (a : Assembly)
  | awaitResponse (a : Assembly)
  | leaving (bytes : ℕ) (e : Ending)
  | ended (e : Ending)
  deriving DecidableEq, Repr

/-- A call of `exchange_metadata`: its arguments, what it has read of its
stream, the handshake of its peer, and where it is.  Of the address only its
redacted text is used. -/
structure Fetch where
  infoHash : Digest
  addr : String
  anonymous : Bool
  stream : Reader
  peerInfo : Option PeerExtensionInfo
  phase : Phase
  log : List Effect
  deriving DecidableEq, Repr

namespace Fetch

/-- The call up to its first await. -/
def start (infoHash : Digest) (addr : String) (anonymous : Bool)
    (stream : Reader) : Fetch where
  infoHash := infoHash
  addr := addr
  anonymous := anonymous
  stream := stream
  peerInfo := none
  phase := .greeting
  log := [.wrote (.extended extHandshakeId (buildHandshakePayload anonymous))]

def moveTo (f : Fetch) (p : Phase) : Fetch := { f with phase := p }

/-- Return before memory is reserved. -/
def finish (f : Fetch) (result : Outcome Error Bytes) : Fetch :=
  f.moveTo (.ended (.returned result))

/-- Return from the piece loop: the reservation is dropped on the way. -/
def leave (f : Fetch) (a : Assembly) (result : Outcome Error Bytes) : Fetch :=
  f.moveTo (.leaving a.totalSize.toNat (.returned result))

def record (f : Fetch) (effects : List Effect) : Fetch :=
  { f with log := f.log ++ effects }

end Fetch

/-! ### Reading frames -/

/-- What one round of a skip loop did: how much it read and recorded, and the
payload it was waiting for, if this was it. -/
structure Round where
  stream : Reader
  effects : List Effect
  result : Outcome Error (FrameBudget × Option Bytes)

/-- The exchange after a round. -/
def Fetch.consume (f : Fetch) (r : Round) : Fetch :=
  { f.record r.effects with stream := r.stream }

/-- The payload of a frame under the awaited extension id.  Keep-alives, other
messages and other ids are skipped. -/
def wantedPayload (wanted : UInt8) (frame : Bytes) :
    Outcome Error (Option Bytes) :=
  if frame = [] then .ok none
  else
    match Message.decode frame with
    | .error e => .err e
    | .ok (.extended extId payload) =>
      if extId = wanted then .ok (some payload) else .ok none
    | .ok _ => .ok none

/-- One round of the loops of `read_extension_handshake` and
`read_metadata_response`: a frame is read, spent, and looked at. -/
def readRound (timeoutText frameText : String) (wanted : UInt8)
    (stream : Reader) (budget : FrameBudget) : Round :=
  match readFrame stream fetchMaxFrameLen with
  | .error .pending => ⟨stream, [], .err (.network timeoutText)⟩
  | .error (.failed e) =>
    ⟨stream, [], .err (.network s!"{frameText}: {e.display}")⟩
  | .ok (frame, rest) =>
    match budget.spend with
    | .ok budget =>
      ⟨rest, [.read frame, .spent], do
        let payload ← wantedPayload wanted frame
        return (budget, payload)⟩
    | .err e => ⟨rest, [.read frame], .err e⟩
    | .panic => ⟨rest, [.read frame], .panic⟩

/-- A round of `read_extension_handshake`. -/
def readExtensionHandshake (stream : Reader) (budget : FrameBudget) : Round :=
  readRound "ext handshake read timeout" "ext handshake frame"
    extHandshakeId stream budget

/-- A round of `read_metadata_response`. -/
def readMetadataResponse (stream : Reader) (budget : FrameBudget) : Round :=
  readRound "ut_metadata read timeout" "ut_metadata frame"
    ourUtMetadataId stream budget

/-! ### Assembling the pieces -/

def pieceExpectedLen (pieceIdx numPieces : ℕ) (totalSize : UInt32) : ℕ :=
  if pieceIdx + 1 = numPieces then
    let r := totalSize.toNat % metadataPieceSize
    if r = 0 then metadataPieceSize else r
  else metadataPieceSize

/-- `buf[a..b].copy_from_slice(&data)`, which unwinds when the range is not in
the buffer or the lengths differ. -/
def copyFromSlice (a b : ℕ) (data buf : Bytes) : Outcome Error Bytes :=
  if a ≤ b ∧ b ≤ buf.length ∧ data.length = b - a then
    .ok (buf.take a ++ data ++ buf.drop b)
  else .panic

/-- The copy of a piece into the buffer, and the note that it has arrived. -/
def Assembly.store (a : Assembly) (idx expectedLen : ℕ) (data : Bytes) :
    Outcome Error Assembly := do
  let off := idx * metadataPieceSize
  let assembled ← copyFromSlice off (off + expectedLen) data a.assembled
  let received ← Outcome.update idx true a.received
  return { a with assembled := assembled, received := received }

namespace Fetch

section Steps

variable (sha1Of : Bytes → Digest) (f : Fetch)

/-- The head of the piece loop and what follows the loop. -/
def loopHead (a : Assembly) : Fetch :=
  if a.received.any (!·) then
    match a.received.findIdx? (!·) with
    | none => f.leave a .panic
    | some next =>
      let req := Message.extended a.theirId
        (buildMetadataRequest (UInt32.ofNat next))
      (f.record [.wrote req]).moveTo (.requesting a)
  else if sha1Of a.assembled ≠ f.infoHash then
    f.leave a (.err (.network ("fetched metadata hash mismatch: peer " ++
      f.addr ++ " sent garbage that didn't verify")))
  else f.leave a (.ok a.assembled)

/-- The body of the piece loop after a response. -/
def accept (a : Assembly) : MetadataResponse → Fetch
  | .data piece peerTotal data =>
    if peerTotal ≠ a.totalSize then
      f.leave a (.err (.network ("peer total_size changed mid-fetch: was " ++
        s!"{a.totalSize}, now {peerTotal}")))
    else
      let idx := piece.toNat
      let n := numPieces a.totalSize
      if n ≤ idx then
        f.leave a (.err (.network s!"piece {idx} out of range (have {n})"))
      else
        let expectedLen := pieceExpectedLen idx n a.totalSize
        if data.length ≠ expectedLen then
          f.leave a (.err (.network
            s!"piece {idx} length {data.length} != expected {expectedLen}"))
        else
          let f := f.record
            [.copied idx (idx * metadataPieceSize) expectedLen]
          match a.store idx expectedLen data with
          | .ok a => f.loopHead sha1Of a
          | .err e => f.leave a (.err e)
          | .panic => f.leave a .panic
  | .reject piece =>
    f.leave a (.err (.network s!"peer rejected ut_metadata piece {piece}"))
  | .other => f.loopHead sha1Of a

/-- What follows the peer's handshake, up to the reservation. -/
def resolve (budget : FrameBudget) (info : PeerExtensionInfo) : Fetch :=
  let f := { f with peerInfo := some info }
  match info.theirUtMetadataId, info.metadataSize with
  | none, _ => f.finish (.err (.network
      "peer doesn't advertise ut_metadata in extension handshake"))
  | some _, none => f.finish (.err (.network
      "peer doesn't advertise metadata_size — can't bootstrap"))
  | some theirId, some totalSize =>
    f.moveTo (.reserving ⟨theirId, totalSize, budget⟩)

/-- A round of waiting for the peer's handshake. -/
def pollHandshake (budget : FrameBudget) : Fetch :=
  let r := readExtensionHandshake f.stream budget
  let f := f.consume r
  match r.result with
  | .ok (budget, none) => f.moveTo (.awaitHandshake budget)
  | .ok (budget, some payload) =>
    match parseHandshakePayload payload with
    | .ok info => f.resolve budget info
    | .err e => f.finish (.err e)
    | .panic => f.finish .panic
  | .err e => f.finish (.err e)
  | .panic => f.finish .panic

/-- A round of waiting for a piece. -/
def pollResponse (a : Assembly) : Fetch :=
  let r := readMetadataResponse f.stream a.budget
  let f := f.consume r
  match r.result with
  | .ok (budget, none) =>
    f.moveTo (.awaitResponse { a with budget := budget })
  | .ok (budget, some payload) =>
    let a := { a with budget := budget }
    match parseMetadataResponse payload with
    | .ok resp => f.accept sha1Of a resp
    | .err e => f.leave a (.err e)
    | .panic => f.leave a .panic
  | .err e => f.leave a (.err e)
  | .panic => f.leave a .panic

/-- The loop of `try_acquire` after it has observed the counter: it goes on
to its exchange, or the exchange of metadata is refused. -/
def observe (t : Terms) (cur : ℕ) : Fetch :=
  match nextInFlight cur t.totalSize.toNat with
  | some next => f.moveTo (.swapping t cur next)
  | none => f.finish (.err (.network (s!"metadata fetch refused: " ++
      s!"{t.totalSize} bytes would exceed the global budget")))

/-- The end of the two writes, with the text of the error of a failed one. -/
def written : Option String → Fetch
  | none =>
    match f.phase with
    | .greeting => f.moveTo (.awaitHandshake (.new extHandshakeMaxFrames))
    | .requesting a => f.moveTo (.awaitResponse a)
    | _ => f
  | some text =>
    match f.phase with
    | .greeting =>
      f.finish (.err (.network s!"ext handshake write: {text}"))
    | .requesting a =>
      f.leave a (.err (.network s!"ut_metadata request: {text}"))
    | _ => f

/-- The end of a read. -/
def polled : Fetch :=
  match f.phase with
  | .awaitHandshake budget => f.pollHandshake budget
  | .awaitResponse a => f.pollResponse sha1Of a
  | _ => f

/-- The task is aborted at an await: its locals are dropped. -/
def abort : Fetch :=
  match f.phase with
  | .greeting => f.moveTo (.ended .aborted)
  | .awaitHandshake _ => f.moveTo (.ended .aborted)
  | .requesting a => f.moveTo (.leaving a.totalSize.toNat .aborted)
  | .awaitResponse a => f.moveTo (.leaving a.totalSize.toNat .aborted)
  | _ => f

end Steps

end Fetch

/-! ## Concurrent exchanges -/

/-- What happens to an exchange: a write or a read ends, the counter is
loaded, a compare-and-exchange is tried, one fails (also spuriously) with a
value it observed, a reservation is dropped, the task is aborted. -/
inductive Event where
  | written (failure : Option String)
  | polled
  | load (observed : ℕ)
  | exchange
  | exchangeFailed (observed : ℕ)
  | release
  | abort
  deriving DecidableEq, Repr

/-- The effect of an event on the counter and on the exchange. -/
def step (sha1Of : Bytes → Digest) (c : InFlight) (f : Fetch) :
    Event → InFlight × Fetch
  | .written failure => (c, f.written failure)
  | .polled => (c, f.polled sha1Of)
  | .load observed =>
    match f.phase with
    | .reserving t => (c, f.observe t observed)
    | _ => (c, f)
  | .exchange =>
    match f.phase with
    | .swapping t cur next =>
      if c.value = cur then (c.store next, f.loopHead sha1Of t.assembly)
      else (c, f.observe t c.value)
    | _ => (c, f)
  | .exchangeFailed observed =>
    match f.phase with
    | .swapping t _ _ => (c, f.observe t observed)
    | _ => (c, f)
  | .release =>
    match f.phase with
    | .leaving bytes e => (c.fetchSub bytes, f.moveTo (.ended e))
    | _ => (c, f)
  | .abort => (c, f.abort)

/-- A load and a failed exchange observe a value the counter has had. -/
def mayObserve (c : InFlight) : Event → Prop
  | .load observed => c.Observable observed
  | .exchangeFailed observed => c.Observable observed
  | _ => True

instance (c : InFlight) : (e : Event) → Decidable (mayObserve c e)
  | .load observed => inferInstanceAs (Decidable (c.Observable observed))
  | .exchangeFailed observed =>
    inferInstanceAs (Decidable (c.Observable observed))
  | .written _ => inferInstanceAs (Decidable True)
  | .polled => inferInstanceAs (Decidable True)
  | .exchange => inferInstanceAs (Decidable True)
  | .release => inferInstanceAs (Decidable True)
  | .abort => inferInstanceAs (Decidable True)

/-- Any number of exchanges, with any peers, over one counter. -/
def behaviour (sha1Of : Bytes → Digest) :
    Pool.Behaviour InFlight Fetch Event where
  initial f := ∃ infoHash addr anonymous stream,
    f = Fetch.start infoHash addr anonymous stream
  may := mayObserve
  step := step sha1Of

/-- The counter before any exchange has started. -/
def idle : Pool InFlight Fetch := ⟨⟨0, []⟩, []⟩

end RustyTorrent.Peer.MetadataFetch
