import RustyTorrent.Peer.Utp.Inputs

/-!
# One stream at a time

Connections, streams and commands meet in the driver's tables, but each event
does to a stream and its connection something that can be said without the
others.  `Endpoint.view` is that part of the state, and `localNext` what an
event does to it: it touches the stream, hands the connection an input and may
let the stream surface, each if it does so at all.  `next_acts` says so of all
events; besides, a new stream may have come, and the commands that the driver
puts into the channel are those of a stream that it has dropped.
-/

namespace RustyTorrent.Utp

open List Option AList UtpStream

/-! ## Views -/

/-- A stream with its connection, if it still has one. -/
structure View where
  entry : Option Entry
  stream : UtpStream

namespace View

/-- A driver step for the connection. -/
def drive (v : View) (input : Input) (waiting : ℕ → Bool) (now : ℕ) : View :=
  match v.entry with
  | some e =>
    let r := e.drive v.stream input waiting now
    ⟨r.entry, r.stream⟩
  | none => v

/-- A held inbound stream goes to `accept` once the return path is
confirmed. -/
def surface (v : View) (listening : Bool) : View :=
  match v.entry with
  | some e =>
    if e.conn.returnPathConfirmed ∧ v.stream.holder = .accept then
      ⟨some e, (v.stream.handOver listening).1⟩
    else v
  | none => v

/-- An action on the stream. -/
def act (v : View) (f : UtpStream → UtpStream) : View :=
  { v with stream := f v.stream }

/-- A driver step if there is an input. -/
def driveWith (v : View) (r : Option (Input × ℕ)) (waiting : ℕ → Bool) :
    View :=
  match r with
  | none => v
  | some (input, now) => v.drive input waiting now

variable {v : View} {e : Entry}

theorem drive_of_none (h : v.entry = none) (input : Input)
    (waiting : ℕ → Bool) (now : ℕ) : v.drive input waiting now = v := by
  rw [drive, h]

theorem drive_of_some (h : v.entry = some e) (input : Input)
    (waiting : ℕ → Bool) (now : ℕ) :
    v.drive input waiting now = ⟨(e.drive v.stream input waiting now).entry,
        (e.drive v.stream input waiting now).stream⟩ := by
  rw [drive, h]

theorem driveWith_of_none (h : v.entry = none) (r : Option (Input × ℕ))
    (waiting : ℕ → Bool) : v.driveWith r waiting = v := by
  unfold driveWith
  split
  · rfl
  · exact drive_of_none h _ _ _

theorem surface_of_none (h : v.entry = none) (listening : Bool) :
    v.surface listening = v := by
  rw [surface, h]

theorem drive_key (v : View) (input : Input) (waiting : ℕ → Bool)
    (now : ℕ) : (v.drive input waiting now).stream.key = v.stream.key := by
  unfold drive
  split
  · exact (Entry.drive_passed _ _ _ _ _).key
  · rfl

section

variable (v : View) (listening : Bool)

theorem surface_cases :
    v.surface listening = v ∨ v.stream.holder = .accept ∧
      v.surface listening = v.act fun st => (st.handOver listening).1 := by
  unfold surface
  split
  next e he =>
    split_ifs with hheld
    · right
      rw [act, he]
      exact ⟨hheld.2, rfl⟩
    · exact .inl rfl
  next => exact .inl rfl

theorem surface_entry : (v.surface listening).entry = v.entry := by
  rcases v.surface_cases listening with heq | ⟨-, heq⟩
  · rw [heq]
  · rw [heq]
    rfl

theorem surface_gate : (v.surface listening).stream.gate = v.stream.gate := by
  rcases v.surface_cases listening with heq | ⟨-, heq⟩
  · rw [heq]
  · rw [heq]
    exact v.stream.handOver_gate listening

end

end View

namespace Endpoint

open View

variable {s s' s'' : Endpoint} {a : Event} {key : ConnKey} {e e' : Entry}
  {st : UtpStream} {i now : ℕ} {v : View} {input : Input}

/-- The stream with a number and its connection. -/
def view (s : Endpoint) (i : ℕ) : Option View :=
  (s.streams[i]?).map fun st =>
    ⟨(s.conns.lookup st.key).filter fun e => e.stream = i, st⟩

/-- Every connection has a stream with its key. -/
def Keyed (s : Endpoint) : Prop :=
  ∀ key e, s.conns.lookup key = some e →
    ∃ st, s.streams[e.stream]? = some st ∧ st.key = key

/-- Whether the connection under a key, if any, takes a block. -/
def accepts (s : Endpoint) (key : ConnKey) (data : Bytes) : Bool :=
  (s.conns.lookup key).any fun e => (e.conn.enqueueSendBlock data).2

/-- What an event hands to the connection under a key, and when. -/
def inputOf (s : Endpoint) (key : ConnKey) : Event → Option (Input × ℕ)
  | .datagram p peer now _ =>
    if key = (peer, p.connectionId) ∨
        p.packetType = .syn ∧ s.contains (peer, p.connectionId) = false ∧
          key = (peer, p.connectionId + 1) then
      some (.packet p (nowMicros now - p.timestampMicros), now)
    else none
  | .command now _ =>
    match s.commands with
    | .send target data _ :: _ =>
      if key = target then some (.block data, now) else none
    | .close target :: _ =>
      if key = target then some (.close, now) else none
    | _ => none
  | .tick target now => if key = target then some (.tick, now) else none
  | _ => none

/-- What an event does to a stream before the step of the driver: it is
refunded or used by the application. -/
def touch (s : Endpoint) (i : ℕ) (a : Event) (st : UtpStream) : UtpStream :=
  match a with
  | .command _ _ =>
    match s.commands with
    | .send key data writer :: _ =>
      if !s.accepts key data ∧ writer = i then st.refund data.length
      else st
    | _ => st
  | .read id room => if id = i then (st.pollRead room).1 else st
  | .peek id => if id = i then st.peekFirstByte.1 else st
  | .write id buf => if id = i then (st.pollWrite id buf).1 else st
  | .shutdown id => if id = i then st.pollShutdown.1 else st
  | .drop id => if id = i then st.drop.1 else st
  | _ => st

/-- Whether an event is a packet with the identifier of a connection, after
which a held stream may surface. -/
def addresses (key : ConnKey) : Event → Bool
  | .datagram p peer _ _ => key = (peer, p.connectionId)
  | _ => false

/-- What an event does to the stream numbered `i` and its connection. -/
def localNext (s : Endpoint) (i : ℕ) (v : View) (a : Event) : View :=
  let v' := (v.act (s.touch i a)).driveWith (s.inputOf v.stream.key a)
    s.waiting
  if addresses v.stream.key a then v'.surface s.listening else v'

theorem find_eq_some : s.find key = some (e, st) ↔
      s.conns.lookup key = some e ∧ s.streams[e.stream]? = some st := by
  unfold find
  cases s.conns.lookup key with
  | none => simp
  | some e₀ =>
    simp only [bind_some, map_eq_some_iff, Prod.mk.injEq, some.injEq]
    constructor
    · rintro ⟨st₀, hst, rfl, rfl⟩
      exact ⟨rfl, hst⟩
    · rintro ⟨rfl, hst⟩
      exact ⟨st, hst, rfl, rfl⟩

theorem view_eq_some : s.view i = some v ↔ s.streams[i]? = some v.stream ∧
      v.entry = (s.conns.lookup v.stream.key).filter fun e => e.stream = i := by
  unfold view
  rw [map_eq_some_iff]
  constructor
  · rintro ⟨st, hst, rfl⟩
    exact ⟨hst, rfl⟩
  · rintro ⟨hst, hentry⟩
    refine ⟨v.stream, hst, ?_⟩
    rw [← hentry]

theorem view_entry_eq_some (h : s.view i = some v) : v.entry = some e ↔
      s.conns.lookup v.stream.key = some e ∧ e.stream = i := by
  rw [(view_eq_some.mp h).2, filter_eq_some_iff, decide_eq_true_eq]

theorem Keyed.find_iff (h : s.Keyed) : s.find key = some (e, st) ↔
      s.view e.stream = some ⟨some e, st⟩ ∧ st.key = key := by
  rw [find_eq_some]
  constructor
  · rintro ⟨hlookup, hst⟩
    obtain ⟨st', hst', hkey⟩ := h key e hlookup
    cases hst.symm.trans hst'
    refine ⟨view_eq_some.mpr ⟨hst, ?_⟩, hkey⟩
    rw [hkey, hlookup, filter_some, if_pos (by simp)]
  · rintro ⟨hview, rfl⟩
    obtain ⟨hlookup, -⟩ := (view_entry_eq_some hview).mp rfl
    exact ⟨hlookup, (view_eq_some.mp hview).1⟩

theorem view_lt (h : s.view i = some v) : i < s.streams.length :=
  (List.getElem?_eq_some_iff.mp (view_eq_some.mp h).1).1

theorem view_isSome (hi : i < s.streams.length) : ∃ v, s.view i = some v := by
  rw [view, getElem?_eq_getElem hi]
  exact ⟨_, rfl⟩

theorem contains_of_view (hv : s.view i = some v) (he : v.entry = some e) :
    s.contains v.stream.key = true := by
  rw [contains, ((view_entry_eq_some hv).mp he).1]
  rfl

theorem Keyed.lookup_eq_none (h : s.Keyed) (hfind : s.find key = none) :
    s.conns.lookup key = none := by
  cases hlookup : s.conns.lookup key with
  | none => rfl
  | some e =>
    obtain ⟨st, hst, -⟩ := h key e hlookup
    rw [find_eq_some.mpr ⟨hlookup, hst⟩] at hfind
    cases hfind

theorem Keyed.stream_lt (h : s.Keyed) (he : s.conns.lookup key = some e) :
    e.stream < s.streams.length := by
  obtain ⟨st, hst, -⟩ := h key e he
  exact (List.getElem?_eq_some_iff.mp hst).1

theorem Keyed.view_of_lookup (h : s.Keyed) (he : s.conns.lookup key = some e) :
    ∃ v, s.view e.stream = some v ∧ v.entry = some e ∧ v.stream.key = key := by
  obtain ⟨st, hst, hkey⟩ := h key e he
  obtain ⟨hview, hkey⟩ := h.find_iff.mp (find_eq_some.mpr ⟨he, hst⟩)
  exact ⟨_, hview, rfl, hkey⟩

/-! ## Steps of the driver -/

variable {r : Collected} {before : List Command}

theorem absorb_put (s : Endpoint) (key : ConnKey) (st' : UtpStream)
    (hr : ∀ e₂ ∈ r.entry, e₂.stream = e'.stream) :
    (s.put key e' st').absorb key e'.stream r = s.absorb key e'.stream r := by
  have herase : (s.conns.insert key e').erase key = s.conns.erase key :=
    ext (kerase_cons_eq rfl)
  unfold absorb
  cases hentry : r.entry with
  | none => simp [put, remove, herase]
  | some e₂ => simp [put, hr e₂ hentry]

theorem put_collectAfter (hfind : s.find key = some (e, st))
    (hid : e'.stream = e.stream) (st' : UtpStream) (now : ℕ) :
    ((s.put key e' st').collectAfter key now).1 =
      s.absorb key e.stream (e'.collect st' s.waiting now) := by
  have hlt := (List.getElem?_eq_some_iff.1 (find_eq_some.1 hfind).2).1
  have hfind' : (s.put key e' st').find key = some (e', st') := by
    refine find_eq_some.2 ⟨lookup_insert _, ?_⟩
    rw [← hid] at hlt
    exact List.getElem?_set_self hlt
  unfold collectAfter
  rw [hfind', ← hid]
  exact absorb_put s key st' fun e₂ he₂ => Entry.collect_stream he₂

/-- The step of the driver for one connection. -/
def drive (s : Endpoint) (key : ConnKey) (input : Input) (now : ℕ) :
    Endpoint :=
  match s.find key with
  | none => s
  | some (e, st) => s.absorb key e.stream (e.drive st input s.waiting now)

theorem drive_of_find_none (h : s.find key = none) (input : Input)
    (now : ℕ) : s.drive key input now = s := by
  rw [drive, h]

theorem collectAfter_fed (hnone : s.find key = none → s' = s)
    (hsome : ∀ e st, s.find key = some (e, st) →
      s' = s.put key (e.feed now input) (st.feed e.conn now input)) :
    (s'.collectAfter key now).1 = s.drive key input now := by
  cases hfind : s.find key with
  | none =>
    rw [hnone hfind, collectAfter, hfind, drive_of_find_none hfind]
  | some r =>
    obtain ⟨e, st⟩ := r
    have hid : (e.feed now input).stream = e.stream := rfl
    rw [hsome e st hfind, put_collectAfter hfind hid, drive, hfind]
    rfl

section

variable (s : Endpoint) (key : ConnKey)

theorem handle_eq_drive (p : Packet) (diff : UInt32) (now : ℕ) :
    (s.handle key p diff now).1 = s.drive key (.packet p diff) now := by
  refine collectAfter_fed (fun hfind => ?_) fun e st hfind => ?_
  · rw [receive, hfind]
  · rw [receive, hfind]
    rfl

theorem closeConn_collectAfter (now : ℕ) :
    ((s.closeConn key).collectAfter key now).1 = s.drive key .close now := by
  refine collectAfter_fed (fun hfind => ?_) fun e st hfind => ?_
  · rw [closeConn, hfind]
  · rw [closeConn, hfind]
    rfl

theorem onTick_eq_drive (now : ℕ) :
    ∃ sent, s.onTick key now = { s.drive key .tick now with sent := sent } := by
  unfold onTick conclude
  cases hfind : s.find key with
  | none =>
    rw [collectAfter, hfind, drive_of_find_none hfind]
    exact ⟨_, rfl⟩
  | some r =>
    obtain ⟨e, st⟩ := r
    have hid : (e.feed now .tick).stream = e.stream := rfl
    have hdrive : ((s.put key (e.feed now .tick) st).collectAfter key
        now).1 = s.drive key .tick now := by
      rw [put_collectAfter hfind hid, drive, hfind]
      rfl
    rw [← hdrive]
    exact ⟨_, rfl⟩

end

/-- A refused block is refunded first. -/
def settle (s : Endpoint) (key : ConnKey) (data : Bytes) (writer : ℕ) :
    Endpoint :=
  if s.accepts key data then s
  else s.onStream writer fun st => (st.refund data.length, [])

theorem streams_set_self (hst : s.streams[i]? = some st) :
    s.streams.set i st = s.streams := by
  obtain ⟨hlt, rfl⟩ := List.getElem?_eq_some_iff.mp hst
  exact set_getElem_self hlt

section OnStream

variable (w : ℕ) (f : UtpStream → UtpStream × List Command)

@[simp] theorem onStream_conns : (s.onStream w f).conns = s.conns := by
  unfold onStream
  split <;> rfl

@[simp] theorem onStream_waiting : (s.onStream w f).waiting = s.waiting := by
  unfold onStream
  split <;> rfl

theorem onStream_streams (i : ℕ) :
    (s.onStream w f).streams[i]? =
      (s.streams[i]?).map fun st => if w = i then (f st).1 else st := by
  unfold onStream
  cases hw : s.streams[w]? with
  | none =>
    dsimp only
    by_cases hi : w = i
    · rw [← hi, hw]
      rfl
    · simp [hi]
  | some st =>
    have hlt := (List.getElem?_eq_some_iff.mp hw).1
    by_cases hi : w = i
    · subst hi
      simp [enqueue, List.getElem?_set_self hlt, hw]
    · simp [enqueue, List.getElem?_set_ne hi, hi]

theorem find_onStream (hfind : s.find key = some (e, st)) :
    (s.onStream w f).find key =
      some (e, if w = e.stream then (f st).1 else st) := by
  obtain ⟨hlookup, hst⟩ := find_eq_some.mp hfind
  refine find_eq_some.mpr ⟨?_, ?_⟩
  · rw [onStream_conns, hlookup]
  · rw [onStream_streams, hst]
    rfl

theorem find_onStream_none (hfind : s.find key = none) :
    (s.onStream w f).find key = none := by
  simp only [find, bind_eq_none_iff, map_eq_none_iff] at hfind ⊢
  intro e hlookup
  rw [onStream_conns] at hlookup
  rw [onStream_streams, hfind e hlookup]
  rfl

theorem put_onStream (hfind : s.find key = some (e, st))
    (hid : e'.stream = e.stream) :
    (s.put key e' st).onStream w f = (s.onStream w f).put key e'
        (if w = e.stream then (f st).1 else st) := by
  have hst := (find_eq_some.mp hfind).2
  have hst' := (find_eq_some.mp (find_onStream w f hfind)).2
  have hleft : s.put key e' st = { s with conns := s.conns.insert key e' } := by
    rw [put, hid, streams_set_self hst]
  have hright : (s.onStream w f).put key e'
      (if w = e.stream then (f st).1 else st) =
      { s.onStream w f with conns := s.conns.insert key e' } := by
    rw [put, hid, streams_set_self hst', onStream_conns]
  rw [hleft, hright]
  unfold onStream
  dsimp only
  split <;> rfl

variable {f} in
theorem view_onStream (hf : ∀ st, (f st).1.key = st.key) (i : ℕ) :
    (s.onStream w f).view i = (s.view i).map fun v =>
      v.act fun st => if w = i then (f st).1 else st := by
  rw [view, view, onStream_streams, Option.map_map, Option.map_map,
    onStream_conns]
  refine congrArg (Option.map · _) (funext fun st => ?_)
  by_cases hw : w = i
  · simp only [Function.comp_apply, if_pos hw, act]
    rw [hf]
  · simp only [Function.comp_apply, if_neg hw, act]

theorem onStream_length :
    (s.onStream w f).streams.length = s.streams.length := by
  unfold onStream
  split
  · rfl
  · exact length_set

theorem onStream_commands (s : Endpoint) :
    (s.onStream w f).commands = s.commands ∧ s.streams[w]? = none ∨
      ∃ st, s.streams[w]? = some st ∧
        (s.onStream w f).commands = s.commands ++ (f st).2 := by
  unfold onStream
  cases s.streams[w]? with
  | none => exact .inl ⟨rfl, rfl⟩
  | some st => exact .inr ⟨st, rfl, rfl⟩

variable {f} in
theorem Keyed.onStream (h : s.Keyed) (hf : ∀ st, (f st).1.key = st.key) :
    (s.onStream w f).Keyed := by
  intro key e he
  rw [onStream_conns] at he
  obtain ⟨st, hst, hkey⟩ := h key e he
  refine ⟨_, by rw [onStream_streams, hst]; rfl, ?_⟩
  split_ifs
  · rw [hf, hkey]
  · exact hkey

end OnStream

theorem enqueueBlock_collectAfter (h : s.Keyed) (key : ConnKey)
    (data : Bytes) (writer now : ℕ) :
    ((s.enqueueBlock key data writer).collectAfter key now).1 =
      (s.settle key data writer).drive key (.block data) now := by
  unfold enqueueBlock settle
  cases hfind : s.find key with
  | none =>
    have hrefused : ¬ s.accepts key data = true := by
      simp [accepts, h.lookup_eq_none hfind]
    have hnone := find_onStream_none writer
      (fun st => (st.refund data.length, [])) hfind
    rw [if_neg hrefused]
    exact collectAfter_fed (fun _ => rfl) fun e st hsome =>
      absurd (hnone.symm.trans hsome) nofun
  | some r =>
    obtain ⟨e, st⟩ := r
    have haccepts : s.accepts key data = (e.conn.enqueueSendBlock data).2 := by
      rw [accepts, (find_eq_some.mp hfind).1]
      rfl
    rw [haccepts]
    dsimp only
    split_ifs
    · refine collectAfter_fed (fun hnone => ?_) fun e' st' hsome => ?_
      · cases hfind.symm.trans hnone
      · rw [hfind, some.injEq, Prod.mk.injEq] at hsome
        obtain ⟨rfl, rfl⟩ := hsome
        rfl
    · have hfind' := find_onStream writer
        (fun st => (st.refund data.length, [])) hfind
      refine collectAfter_fed (fun hnone => ?_) fun e' st' hsome => ?_
      · cases hfind'.symm.trans hnone
      · rw [hfind', some.injEq, Prod.mk.injEq] at hsome
        obtain ⟨rfl, rfl⟩ := hsome
        have hid : (e.feed now (.block data)).stream = e.stream := rfl
        exact put_onStream writer _ hfind hid

theorem lookup_absorb (s : Endpoint) (key : ConnKey) (i : ℕ)
    (r : Collected) (key' : ConnKey) :
    (s.absorb key i r).conns.lookup key' =
      if key' = key then r.entry else s.conns.lookup key' := by
  unfold absorb
  cases hentry : r.entry with
  | none =>
    dsimp only [enqueue, remove]
    split_ifs with hkey
    · rw [hkey, lookup_erase]
    · rw [lookup_erase_ne hkey]
  | some e' =>
    dsimp only [enqueue, put]
    split_ifs with hkey
    · rw [hkey, lookup_insert]
    · rw [lookup_insert_ne hkey]

theorem streams_absorb (hr : ∀ e' ∈ r.entry, e'.stream = e.stream) :
    (s.absorb key e.stream r).streams = s.streams.set e.stream r.stream := by
  unfold absorb
  cases hentry : r.entry with
  | none => rfl
  | some e' =>
    dsimp only [enqueue, put]
    rw [hr e' hentry]

section

variable (h : s.Keyed) (hfind : s.find key = some (e, st))
  (hr : ∀ e' ∈ r.entry, e'.stream = e.stream) (hkey : r.stream.key = st.key)

include h hfind hr hkey

theorem Keyed.absorb : (s.absorb key e.stream r).Keyed := by
  obtain ⟨hlookup, hst⟩ := find_eq_some.mp hfind
  obtain ⟨-, hstkey⟩ := h.find_iff.mp hfind
  have hlt := (List.getElem?_eq_some_iff.mp hst).1
  intro key' e' he'
  rw [lookup_absorb] at he'
  rw [streams_absorb hr]
  by_cases hk : key' = key
  · rw [if_pos hk] at he'
    rw [hr e' he', hk]
    exact ⟨_, List.getElem?_set_self hlt, hkey.trans hstkey⟩
  · rw [if_neg hk] at he'
    obtain ⟨st', hst', hkey'⟩ := h key' e' he'
    have hne : e.stream ≠ e'.stream := by
      intro heq
      rw [← heq, hst, some.injEq] at hst'
      rw [← hst', hstkey] at hkey'
      exact hk hkey'.symm
    refine ⟨st', ?_, hkey'⟩
    rw [List.getElem?_set_ne hne]
    exact hst'

theorem view_absorb (i : ℕ) :
    (s.absorb key e.stream r).view i =
      if i = e.stream then some ⟨r.entry, r.stream⟩ else s.view i := by
  obtain ⟨hlookup, hst⟩ := find_eq_some.mp hfind
  obtain ⟨-, hstkey⟩ := h.find_iff.mp hfind
  have hlt := (List.getElem?_eq_some_iff.mp hst).1
  rw [view, streams_absorb hr]
  by_cases hi : i = e.stream
  · subst hi
    rw [if_pos rfl, List.getElem?_set_self hlt, map_some,
      lookup_absorb, if_pos (hkey.trans hstkey)]
    cases hentry : r.entry with
    | none => rfl
    | some e' =>
      rw [filter_some, if_pos (by simpa using hr e' hentry)]
  · rw [if_neg hi, List.getElem?_set_ne (Ne.symm hi), view]
    refine congrArg (Option.map · _) (funext fun st' => ?_)
    rw [lookup_absorb]
    split_ifs with hk
    · -- under this key there is the connection of another stream
      have hold : (s.conns.lookup key).filter (fun e' => e'.stream = i) =
          none := by
        rw [hlookup, filter_some, if_neg (by simpa using Ne.symm hi)]
      have hnew : r.entry.filter (fun e' => e'.stream = i) = none := by
        cases hentry : r.entry with
        | none => rfl
        | some e' =>
          rw [filter_some, if_neg]
          rw [hr e' hentry]
          simpa using Ne.symm hi
      rw [hk, hold, hnew]
    · rfl

end

/-! ## What a step does to every stream -/

/-- A step that does `f` to every stream and its connection.  The commands it
puts into the channel are those of streams that it has dropped. -/
structure Acts (s s' : Endpoint) (f : ℕ → View → View) : Prop where
  keyed : s'.Keyed
  length : s'.streams.length = s.streams.length
  view : ∀ i v, s.view i = some v → s'.view i = some (f i v)
  gone : ∀ i v, s.view i = some v → v.stream.holder = .gone →
    (f i v).stream.holder = .gone
  commands : ∃ new, s'.commands = s.commands ++ new ∧
    (∀ c ∈ new, ∃ target, c = .close target) ∧
    (new ≠ [] → ∃ i v, s.view i = some v ∧ v.stream.holder ≠ .gone ∧
      (f i v).stream.holder = .gone)

theorem Acts.congr {f g : ℕ → View → View} (h : Acts s s' f)
    (heq : ∀ i v, s.view i = some v → f i v = g i v) : Acts s s' g where
  keyed := h.keyed
  length := h.length
  view i v hv := by rw [← heq i v hv]; exact h.view i v hv
  gone i v hv hgone := by rw [← heq i v hv]; exact h.gone i v hv hgone
  commands := by
    obtain ⟨new, hnew, hcloses, hdropped⟩ := h.commands
    refine ⟨new, hnew, hcloses, fun hne => ?_⟩
    obtain ⟨i, v, hv, hheld, hgone⟩ := hdropped hne
    exact ⟨i, v, hv, hheld, heq i v hv ▸ hgone⟩

theorem Acts.trans {f g : ℕ → View → View} (h : Acts s s' f)
    (h' : Acts s' s'' g) : Acts s s'' fun i v => g i (f i v) where
  keyed := h'.keyed
  length := h'.length.trans h.length
  view i v hv := h'.view i _ (h.view i v hv)
  gone i v hv hgone := h'.gone i _ (h.view i v hv) (h.gone i v hv hgone)
  commands := by
    obtain ⟨new, hnew, hcloses, hdropped⟩ := h.commands
    obtain ⟨new', hnew', hcloses', hdropped'⟩ := h'.commands
    refine ⟨new ++ new', by rw [hnew', hnew, append_assoc], ?_, ?_⟩
    · intro c hc
      rcases mem_append.mp hc with hc | hc
      · exact hcloses c hc
      · exact hcloses' c hc
    · intro hne
      by_cases hfirst : new = []
      · obtain ⟨i, v', hv', hheld, hgone⟩ := hdropped' fun hnil =>
          hne (by rw [hfirst, hnil]; rfl)
        obtain ⟨v, hv⟩ := view_isSome (h.length ▸ view_lt hv')
        rw [h.view i v hv, some.injEq] at hv'
        subst hv'
        exact ⟨i, v, hv, fun hbefore => hheld (h.gone i v hv hbefore), hgone⟩
      · obtain ⟨i, v, hv, hheld, hgone⟩ := hdropped hfirst
        exact ⟨i, v, hv, hheld, h'.gone i _ (h.view i v hv) hgone⟩

theorem acts_refl (h : s.Keyed) : Acts s s fun _ v => v :=
  ⟨h, rfl, fun _ _ hv => hv, fun _ _ _ hgone => hgone,
    [], (append_nil _).symm, nofun, fun hne => absurd rfl hne⟩

/-- A change of the views of one key that leaves streams without a connection
alone, and the connection that there is. -/
theorem acts_same (h : s.Keyed) {f : View → View}
    (hf : ∀ v : View, v.entry = none → f v = v)
    (hown : ∀ e st, s.find key = some (e, st) → f ⟨some e, st⟩ = ⟨some e, st⟩) :
    Acts s s fun _ v => if v.stream.key = key then f v else v := by
  refine (acts_refl h).congr fun i v hv => ?_
  split_ifs with hkey
  · cases he : v.entry with
    | none => exact (hf v he).symm
    | some e =>
      have hid := ((view_entry_eq_some hv).mp he).2
      have hview : s.view e.stream = some ⟨some e, v.stream⟩ := by
        rw [hid, hv, ← he]
      have hsame := hown e v.stream (h.find_iff.mpr ⟨hview, hkey⟩)
      rw [← he] at hsame
      exact hsame.symm
  · rfl

theorem acts_absorb (h : s.Keyed) (hfind : s.find key = some (e, st))
    (hr : ∀ e' ∈ r.entry, e'.stream = e.stream)
    (hpassed : st.Passed r.stream r.commands) {f : View → View}
    (hf : ∀ v : View, v.entry = none → f v = v)
    (hown : f ⟨some e, st⟩ = ⟨r.entry, r.stream⟩) :
    Acts s (s.absorb key e.stream r) fun _ v =>
      if v.stream.key = key then f v else v := by
  obtain ⟨hview, hkey⟩ := h.find_iff.mp hfind
  have hact (i : ℕ) (v : View) (hv : s.view i = some v) :
      i = e.stream ∧ v = ⟨some e, st⟩ ∨
        i ≠ e.stream ∧ (if v.stream.key = key then f v else v) = v := by
    by_cases hi : i = e.stream
    · rw [hi, hview, some.injEq] at hv
      exact .inl ⟨hi, hv.symm⟩
    · refine .inr ⟨hi, ?_⟩
      split_ifs with hk
      · refine hf v ?_
        rw [(view_eq_some.mp hv).2, hk, (find_eq_some.mp hfind).1,
          filter_some, if_neg (by simpa using Ne.symm hi)]
      · rfl
  refine ⟨h.absorb hfind hr hpassed.key, ?_, ?_, ?_, r.commands, ?_, ?_, ?_⟩
  · rw [streams_absorb hr, length_set]
  · intro i v hv
    rw [view_absorb h hfind hr hpassed.key]
    rcases hact i v hv with ⟨hi, rfl⟩ | ⟨hi, hsame⟩
    · rw [if_pos hi, if_pos hkey, hown]
    · rw [if_neg hi, hsame, hv]
  · intro i v hv hgone
    rcases hact i v hv with ⟨-, rfl⟩ | ⟨-, hsame⟩
    · rw [if_pos hkey, hown]
      exact hpassed.gone hgone
    · rw [hsame]
      exact hgone
  · unfold absorb
    split <;> rfl
  · exact fun c hc => ⟨_, hpassed.closes c hc⟩
  · intro hne
    obtain ⟨hheld, hgone⟩ := hpassed.dropped hne
    refine ⟨_, _, hview, hheld, ?_⟩
    rw [if_pos hkey, hown]
    exact hgone

theorem acts_drive (h : s.Keyed) (key : ConnKey) (input : Input) (now : ℕ) :
    Acts s (s.drive key input now) fun _ v =>
      if v.stream.key = key then v.drive input s.waiting now else v := by
  have hf (v : View) (hv : v.entry = none) :
      v.drive input s.waiting now = v := drive_of_none hv _ _ _
  rw [drive]
  cases hfind : s.find key with
  | none => exact acts_same h hf (by simp [hfind])
  | some r =>
    obtain ⟨e, st⟩ := r
    exact acts_absorb h hfind (fun _ he' => Entry.drive_stream he')
      (e.drive_passed st input s.waiting now) hf rfl

theorem acts_surface (h : s.Keyed) (key : ConnKey) :
    Acts s (s.surface key) fun _ v =>
      if v.stream.key = key then v.surface s.listening else v := by
  have hf (v : View) (hv : v.entry = none) : v.surface s.listening = v :=
    surface_of_none hv _
  rw [surface]
  cases hfind : s.find key with
  | none => exact acts_same h hf (by simp [hfind])
  | some r =>
    obtain ⟨e, st⟩ := r
    dsimp only
    split_ifs with hheld
    · refine acts_absorb h hfind (r := ⟨some e,
        (st.handOver s.listening).1, (st.handOver s.listening).2, []⟩)
        (fun _ he' => by cases he'; rfl)
        (handOver_passed (by rw [hheld.2]; nofun) _) hf ?_
      exact if_pos hheld
    · refine acts_same h hf fun e' st' hsome => ?_
      rw [hfind, some.injEq, Prod.mk.injEq] at hsome
      obtain ⟨rfl, rfl⟩ := hsome
      exact if_neg hheld

theorem view_install (hfree : s.contains key = false) (conn : Connection)
    (holder : Holder) (diff : UInt32) (i : ℕ) :
    (s.install key conn holder diff).view i =
      if i = s.streams.length then
        some ⟨some ⟨conn, s.streams.length, 0, diff⟩, .new key holder⟩
      else s.view i := by
  have hnone : s.conns.lookup key = none := by simpa [contains] using hfree
  unfold view install
  dsimp only
  by_cases hi : i = s.streams.length
  · rw [if_pos hi, hi, getElem?_concat_length, map_some]
    have hkey : (new key holder).key = key := rfl
    rw [hkey, lookup_insert, filter_some, if_pos (by simp)]
  · rw [if_neg hi]
    have hold : (s.streams ++ [new key holder])[i]? =
        s.streams[i]? := by
      by_cases hlt : i < s.streams.length
      · exact getElem?_append_left hlt
      · rw [getElem?_eq_none (by simp; omega),
          getElem?_eq_none (by omega)]
    rw [hold]
    refine congrArg (Option.map · _) (funext fun st => ?_)
    by_cases hk : st.key = key
    · rw [hk, lookup_insert, hnone, filter_some,
        if_neg (by simpa using Ne.symm hi)]
      rfl
    · rw [lookup_insert_ne hk]

theorem Keyed.install (h : s.Keyed) (key : ConnKey) (conn : Connection)
    (holder : Holder) (diff : UInt32) :
    (s.install key conn holder diff).Keyed := by
  intro key' e he
  by_cases hk : key' = key
  · rw [hk] at he ⊢
    rw [Endpoint.install, lookup_insert, some.injEq] at he
    rw [← he]
    exact ⟨_, getElem?_concat_length, rfl⟩
  · rw [Endpoint.install, lookup_insert_ne hk] at he
    obtain ⟨st, hst, hkey⟩ := h key' e he
    refine ⟨st, ?_, hkey⟩
    rw [← hst]
    exact getElem?_append_left (h.stream_lt he)

/-! ## New streams -/

/-- A stream that was just created, with its connection: a dial or an inbound
connection. -/
inductive Born (i : ℕ) : View → Prop where
  | dial (peer : SocketAddr) (recvId : UInt16) (now number : ℕ) :
      Born i ⟨some ⟨(Connection.newInitiator recvId now).1, i, 0, 0⟩,
        .new (peer, recvId) (.dial number)⟩
  | inbound {syn state : Packet} {now : ℕ} {initSeq : UInt16}
      {conn : Connection} (peer : SocketAddr) (diff : UInt32)
      (h : Connection.newReceiverWithSeq syn now initSeq =
        some (conn, state)) :
      Born i ⟨some ⟨conn, i, 0, diff⟩,
        .new (peer, syn.connectionId + 1) .accept⟩

/-! ## Events -/

/-- The effect of an event on connections, streams and channels, without the
packets it sends. -/
def step (s : Endpoint) : Event → Endpoint
  | .datagram p peer now initSeq =>
    let diff := nowMicros now - p.timestampMicros
    let key : ConnKey := (peer, p.connectionId)
    let recvKey : ConnKey := (peer, p.connectionId + 1)
    if s.contains key then (s.drive key (.packet p diff) now).surface key
    else if p.packetType = .syn then
      if s.contains recvKey then s.drive recvKey (.packet p diff) now
      else if maxConns ≤ s.conns.entries.length then s
      else
        match Connection.newReceiverWithSeq p now initSeq with
        | some (conn, _) => s.install recvKey conn .accept diff
        | none => s
    else s
  | .command now recvId =>
    match s.commands with
    | [] => s
    | .connect peer dial :: rest =>
      { s with commands := rest }.install (peer, recvId)
        (Connection.newInitiator recvId now).1 (.dial dial) 0
    | .send key data writer :: rest =>
      ({ s with commands := rest }.settle key data writer).drive key
        (.block data) now
    | .close key :: rest => { s with commands := rest }.drive key .close now
  | .tick key now => s.drive key .tick now
  | a => s.next a

theorem next_eq_step (h : s.Keyed) (a : Event) :
    ∃ sent, s.next a = { s.step a with sent := sent } := by
  cases a with
  | datagram p peer now initSeq =>
    simp only [next, onDatagram, step, handle_eq_drive]
    split_ifs
    · exact ⟨_, rfl⟩
    · exact ⟨_, rfl⟩
    · exact ⟨_, rfl⟩
    · cases Connection.newReceiverWithSeq p now initSeq with
      | none | some r => exact ⟨_, rfl⟩
    · exact ⟨_, rfl⟩
  | command now recvId =>
    simp only [next, step]
    cases s.commands with
    | nil => exact ⟨s.sent, rfl⟩
    | cons c rest =>
      cases c with
      | connect peer dial => exact ⟨_, rfl⟩
      | send key data writer =>
        have hpop : Keyed { s with commands := rest } := h
        simp only [onCommand, conclude]
        rw [enqueueBlock_collectAfter hpop]
        exact ⟨_, rfl⟩
      | close key =>
        simp only [onCommand, conclude]
        rw [closeConn_collectAfter]
        exact ⟨_, rfl⟩
  | tick key now => exact onTick_eq_drive s key now
  | connect | giveUp | dropSocket | read | peek | write | shutdown | drop =>
    exact ⟨_, rfl⟩

/-- The channel once the command of an event was taken from it. -/
def pending (s : Endpoint) : Event → List Command
  | .command _ _ => s.commands.tail
  | _ => s.commands

/-- A command is taken from the channel. -/
def Event.isCommand : Event → Bool
  | .command _ _ => true
  | _ => false

/-- The stream that the application uses in an event. -/
def Event.user : Event → Option ℕ
  | .read id _ | .peek id | .write id _ | .shutdown id | .drop id => some id
  | _ => none

theorem inputOf_eq_some (h : s.inputOf key a = some (input, now)) :
    (∃ p peer initSeq, a = .datagram p peer now initSeq ∧
      input = .packet p (nowMicros now - p.timestampMicros) ∧
      (key = (peer, p.connectionId) ∨ p.packetType = .syn ∧
        s.contains (peer, p.connectionId) = false ∧
        key = (peer, p.connectionId + 1))) ∨
    (∃ recvId data writer rest, a = .command now recvId ∧
      s.commands = .send key data writer :: rest ∧ input = .block data) ∨
    (∃ recvId rest, a = .command now recvId ∧
      s.commands = .close key :: rest ∧ input = .close) ∨
    a = .tick key now ∧ input = .tick := by
  unfold inputOf at h
  split at h
  next p peer t initSeq =>
    split_ifs at h with hkey
    cases h
    exact .inl ⟨p, peer, initSeq, rfl, rfl, hkey⟩
  next t recvId =>
    split at h
    next target data writer rest hcommands =>
      split_ifs at h with hkey
      cases h
      exact .inr (.inl ⟨recvId, data, writer, rest, rfl, hkey ▸ hcommands, rfl⟩)
    next target rest hcommands =>
      split_ifs at h with hkey
      cases h
      exact .inr (.inr (.inl ⟨recvId, rest, rfl, hkey ▸ hcommands, rfl⟩))
    next => cases h
  next target t =>
    split_ifs at h with hkey
    cases h
    rw [hkey]
    exact .inr (.inr (.inr ⟨rfl, rfl⟩))
  next => cases h

theorem touch_cases (s : Endpoint) (i : ℕ) (a : Event) (st : UtpStream) :
    (∃ queue rem sent, s.touch i a st =
      { st with queue := queue, readRem := rem, shutdownSent := sent }) ∨
    (∃ now recvId key data rest, a = .command now recvId ∧
      s.commands = .send key data i :: rest ∧ s.accepts key data = false ∧
      s.touch i a st = st.refund data.length) ∨
    (∃ buf, a = .write i buf ∧ s.touch i a st = (st.pollWrite i buf).1) ∨
    a = .drop i ∧ s.touch i a st = st.drop.1 := by
  have hidle : ∃ queue rem sent, st =
      { st with queue := queue, readRem := rem, shutdownSent := sent } :=
    ⟨_, _, _, rfl⟩
  unfold touch
  split
  next now recvId =>
    split
    next key data writer rest hcommands =>
      split_ifs with hrefund
      · obtain ⟨hrefused, rfl⟩ := hrefund
        exact .inr (.inl ⟨now, recvId, key, data, rest, rfl, hcommands,
          by simpa using hrefused, rfl⟩)
      · exact .inl hidle
    next => exact .inl hidle
  next id room =>
    obtain ⟨queue, rem, heq⟩ := st.pollRead_frame room
    split_ifs
    · exact .inl ⟨queue, rem, _, heq⟩
    · exact .inl hidle
  next id =>
    obtain ⟨queue, rem, heq⟩ := st.peekFirstByte_frame
    split_ifs
    · exact .inl ⟨queue, rem, _, heq⟩
    · exact .inl hidle
  next id buf =>
    split_ifs with hid
    · subst hid
      exact .inr (.inr (.inl ⟨buf, rfl, rfl⟩))
    · exact .inl hidle
  next id =>
    obtain ⟨sent, heq⟩ := st.pollShutdown_frame
    split_ifs
    · exact .inl ⟨_, _, sent, heq⟩
    · exact .inl hidle
  next id =>
    split_ifs with hid
    · subst hid
      exact .inr (.inr (.inr ⟨rfl, rfl⟩))
    · exact .inl hidle
  next => exact .inl hidle

theorem touch_of_input (h : s.inputOf key a = some (input, now)) (i : ℕ)
    (st : UtpStream) : ∃ gate, s.touch i a st = { st with gate := gate } := by
  rcases inputOf_eq_some h with ⟨p, peer, initSeq, rfl, -⟩ |
    ⟨recvId, data, writer, rest, rfl, hcommands, -⟩ |
    ⟨recvId, rest, rfl, hcommands, -⟩ | ⟨rfl, -⟩
  · exact ⟨_, rfl⟩
  · rw [touch, hcommands]
    dsimp only
    split_ifs <;> exact ⟨_, rfl⟩
  · rw [touch, hcommands]
    exact ⟨_, rfl⟩
  · exact ⟨_, rfl⟩

/-- An event that does nothing to a stream by itself and finds no connection
of it. -/
theorem localNext_of_idle (htouch : s.touch i a = id)
    (h : v.entry = none ∨ s.inputOf v.stream.key a = none ∧
      addresses v.stream.key a = false) : s.localNext i v a = v := by
  have hact : v.act (s.touch i a) = v := by
    rw [htouch]
    rfl
  rw [localNext, hact]
  rcases h with he | ⟨hinput, haddress⟩
  · rw [driveWith_of_none he, surface_of_none he, ite_self]
  · rw [hinput, haddress]
    rfl

@[simp] theorem drive_listening (s : Endpoint) (key : ConnKey) (input : Input)
    (now : ℕ) : (s.drive key input now).listening = s.listening := by
  unfold drive absorb
  split
  · rfl
  · split <;> rfl

variable {f : UtpStream → UtpStream × List Command}

theorem acts_onStream (h : s.Keyed) (w : ℕ)
    (hf : ∀ st, (f st).1.key = st.key ∧ (f st).1.holder = st.holder ∧
      (f st).2 = []) :
    Acts s (s.onStream w f) fun i v =>
      v.act fun st => if w = i then (f st).1 else st where
  keyed := h.onStream w fun st => (hf st).1
  length := onStream_length w f
  view i v hv := by
    rw [view_onStream w (fun st => (hf st).1), hv]
    rfl
  gone i v hv hgone := by
    dsimp only [act]
    split_ifs
    · exact (hf v.stream).2.1.trans hgone
    · exact hgone
  commands := by
    refine ⟨[], ?_, nofun, fun hne => absurd rfl hne⟩
    rcases onStream_commands w f s with ⟨hsame, -⟩ | ⟨st, -, hmore⟩
    · rw [hsame, append_nil]
    · rw [hmore, (hf st).2.2]

theorem acts_settle (h : s.Keyed) (key : ConnKey) (data : Bytes) (writer : ℕ) :
    Acts s (s.settle key data writer) fun i v => v.act fun st =>
      if !s.accepts key data ∧ writer = i then st.refund data.length
      else st := by
  unfold settle
  cases s.accepts key data with
  | true =>
    refine (acts_refl h).congr fun i v _ => ?_
    simp [act]
  | false =>
    refine (acts_onStream h writer fun _ => ⟨rfl, rfl, rfl⟩).congr
      fun i v _ => ?_
    simp

theorem settle_waiting (s : Endpoint) (key : ConnKey) (data : Bytes)
    (writer : ℕ) : (s.settle key data writer).waiting = s.waiting := by
  unfold settle
  split_ifs
  · rfl
  · exact onStream_waiting _ _

/-- What an event may put into the channel: a write its block, a dial its
request, and everything else the Close of a stream that the application uses
or that the driver has dropped. -/
def Issued (s : Endpoint) (a : Event) (new : List Command) : Prop :=
  (∃ id buf st, a = .write id buf ∧ s.streams[id]? = some st ∧
      new = (st.pollWrite id buf).2.1) ∨
    (∀ id buf, a ≠ .write id buf) ∧ ∀ c ∈ new,
      (∃ peer dial, a = .connect peer ∧ c = .connect peer dial) ∨
      (∃ target, c = .close target) ∧
        (a.user.isSome = true ∨ ∃ i v, s.view i = some v ∧
          v.stream.holder ≠ .gone ∧
          (s.localNext i v a).stream.holder = .gone)

/-- All that an event makes of an endpoint: it does something to each stream
and its connection, there may be a new stream, and commands may have come to
the channel. -/
structure Steps (s s' : Endpoint) (a : Event) : Prop where
  keyed : s'.Keyed
  view : ∀ i v, s.view i = some v → s'.view i = some (s.localNext i v a)
  fresh : s'.streams.length = s.streams.length ∨
    s'.streams.length = s.streams.length + 1 ∧
      ∃ v, s'.view s.streams.length = some v ∧ Born s.streams.length v
  commands : ∃ new, s'.commands = s.pending a ++ new ∧ s.Issued a new

theorem Acts.steps (h : Acts { s with commands := s.pending a } s'
      fun i v => s.localNext i v a) (hwrite : ∀ id buf, a ≠ .write id buf) :
    Steps s s' a := by
  obtain ⟨new, hnew, hcloses, hdropped⟩ := h.commands
  refine ⟨h.keyed, h.view, .inl h.length, new, hnew, .inr ⟨hwrite, ?_⟩⟩
  exact fun c hc => .inr ⟨hcloses c hc, .inr (hdropped (ne_nil_of_mem hc))⟩

theorem steps_install (h : s.Keyed) (hfree : s.contains key = false)
    {conn : Connection} {holder : Holder} {diff : UInt32}
    (hborn : Born s.streams.length
      ⟨some ⟨conn, s.streams.length, 0, diff⟩, .new key holder⟩)
    (hidle : ∀ i v, s.view i = some v → s.localNext i v a = v)
    (hwrite : ∀ id buf, a ≠ .write id buf) :
    Steps s ({ s with commands := s.pending a }.install key conn holder diff)
      a := by
  have hkeyed : Keyed { s with commands := s.pending a } := h
  have hview := view_install (s := { s with commands := s.pending a }) hfree
    conn holder diff
  refine ⟨hkeyed.install key conn holder diff, fun i v hv => ?_,
    .inr ⟨length_append, _, (hview _).trans (if_pos rfl), hborn⟩,
    [], (append_nil _).symm, .inr ⟨hwrite, nofun⟩⟩
  rw [hidle i v hv, hview, if_neg (view_lt hv).ne]
  exact hv

theorem steps_onStream (h : s.Keyed) (w : ℕ)
    (hlocal : ∀ i v, s.localNext i v a =
      v.act fun st => if w = i then (f st).1 else st)
    (hcommands : ∃ new, (s.onStream w f).commands = s.pending a ++ new ∧
      s.Issued a new) (hf : ∀ st, (f st).1.key = st.key)
    : Steps s (s.onStream w f) a where
  keyed := h.onStream w hf
  view i v hv := by
    rw [view_onStream w hf, hv, hlocal]
    rfl
  fresh := .inl (onStream_length w f)
  commands := hcommands

/-- What the application does to its stream, with the commands that come of
it. -/
theorem issued_of_user {id : ℕ} (hwrite : ∀ id buf, a ≠ .write id buf)
    (huser : a.user.isSome = true)
    (hf : ∀ st, ∀ c ∈ (f st).2, c = .close st.key) :
    ∃ new, (s.onStream id f).commands = s.commands ++ new ∧ s.Issued a new := by
  rcases onStream_commands id f s with ⟨hsame, -⟩ | ⟨st, -, hmore⟩
  · exact ⟨[], by rw [hsame, append_nil], .inr ⟨hwrite, nofun⟩⟩
  · exact ⟨_, hmore, .inr ⟨hwrite, fun c hc =>
      .inr ⟨⟨_, hf st c hc⟩, .inl huser⟩⟩⟩

theorem step_datagram (h : s.Keyed) (p : Packet) (peer : SocketAddr)
    (now : ℕ) (initSeq : UInt16) :
    Steps s (s.step (.datagram p peer now initSeq))
      (.datagram p peer now initSeq) := by
  have hidle (hknown : ¬s.contains (peer, p.connectionId))
      (hin : p.packetType = .syn →
        ¬s.contains (peer, p.connectionId + 1)) (i : ℕ) (v : View)
      (hv : s.view i = some v) :
      s.localNext i v (.datagram p peer now initSeq) = v := by
    refine localNext_of_idle rfl ?_
    cases he : v.entry with
    | none => exact .inl rfl
    | some e =>
      have hthere := contains_of_view hv he
      have hdirect : v.stream.key ≠ (peer, p.connectionId) :=
        fun heq => hknown (heq ▸ hthere)
      refine .inr ⟨if_neg ?_, by simp [addresses, hdirect]⟩
      rintro (heq | ⟨hsyn, -, heq⟩)
      · exact hdirect heq
      · exact hin hsyn (heq ▸ hthere)
  have hrefl (hsame : ∀ i v, s.view i = some v →
      s.localNext i v (.datagram p peer now initSeq) = v) :
      Steps s s (.datagram p peer now initSeq) := by
    refine Acts.steps ?_ nofun
    exact (acts_refl h).congr fun i v hv => (hsame i v hv).symm
  dsimp only [step]
  split_ifs with hknown hsyn hin hfull
  · refine Acts.steps ?_ nofun
    have hdrive := acts_drive h (peer, p.connectionId)
      (.packet p (nowMicros now - p.timestampMicros)) now
    refine (hdrive.trans (acts_surface hdrive.keyed _)).congr fun i v _ => ?_
    by_cases hdirect : v.stream.key = (peer, p.connectionId)
    · simp only [drive_key, drive_listening, localNext, inputOf,
        addresses, hdirect, true_or, if_true, decide_true]
      rfl
    · simp [localNext, inputOf, addresses, hdirect, hknown, driveWith,
        touch, act]
  · refine Acts.steps ?_ nofun
    refine (acts_drive h _ _ now).congr fun i v hv => ?_
    have hfree := Bool.eq_false_iff.mpr hknown
    by_cases hdirect : v.stream.key = (peer, p.connectionId)
    · have he : v.entry = none := by
        cases he : v.entry with
        | none => rfl
        | some e => exact absurd (hdirect ▸ contains_of_view hv he) hknown
      rw [localNext_of_idle rfl (.inl he), drive_of_none he, ite_self]
    · simp only [localNext, inputOf, addresses, hdirect, hsyn, hfree,
        decide_false, Bool.false_eq_true, if_false, true_and, false_or]
      split_ifs <;> rfl
  · exact hrefl (hidle hknown fun _ => hin)
  · have hsame := hidle hknown fun _ => hin
    cases hnew : Connection.newReceiverWithSeq p now initSeq with
    | none => exact hrefl hsame
    | some r =>
      obtain ⟨conn, state⟩ := r
      exact steps_install h (Bool.eq_false_iff.mpr hin)
        (.inbound peer _ hnew) hsame nofun
  · exact hrefl (hidle hknown fun heq => absurd heq hsyn)

theorem step_command (h : s.Keyed) {recvId : UInt16}
    (hmay : s.may (.command now recvId) = true) :
    Steps s (s.step (.command now recvId)) (.command now recvId) := by
  cases hcommands : s.commands with
  | nil =>
    rw [may, hcommands] at hmay
    cases hmay
  | cons c rest =>
    have hpending : s.pending (.command now recvId) = rest := by
      rw [pending, hcommands, tail_cons]
    have hpop : Keyed { s with commands := rest } := h
    cases c with
    | connect peer dial =>
      have hfree : s.contains (peer, recvId) = false := by
        rw [may, hcommands] at hmay
        simp only [freeRecvId, Bool.and_eq_true, Bool.not_eq_true'] at hmay
        exact hmay.1
      have hgrow := steps_install (a := .command now recvId) h hfree
        (.dial peer recvId now dial)
        (fun i v _ => by unfold localNext inputOf touch; rw [hcommands]; rfl)
        nofun
      rw [hpending] at hgrow
      simpa only [step, hcommands] using hgrow
    | send key data writer =>
      refine Acts.steps ?_ nofun
      unfold step localNext inputOf touch
      simp only [hpending, hcommands]
      have hsettle := acts_settle hpop key data writer
      refine (hsettle.trans (acts_drive hsettle.keyed key (.block data)
        now)).congr fun i v _ => ?_
      rw [settle_waiting]
      have hkey : (v.act fun st =>
          if !s.accepts key data ∧ writer = i then st.refund data.length
          else st).stream.key = v.stream.key := by
        dsimp only [act]
        split_ifs <;> rfl
      have haccepts : accepts { s with commands := rest } key data =
          s.accepts key data := rfl
      rw [haccepts, hkey]
      simp only [addresses, Bool.false_eq_true, if_false]
      by_cases hown : v.stream.key = key
      · rw [if_pos hown, if_pos hown]
        rfl
      · rw [if_neg hown, if_neg hown]
        rfl
    | close key =>
      refine Acts.steps ?_ nofun
      unfold step localNext inputOf touch
      simp only [hpending, hcommands]
      refine (acts_drive hpop key .close now).congr fun i v _ => ?_
      simp only [addresses, Bool.false_eq_true, if_false]
      split_ifs <;> rfl

theorem step_tick (h : s.Keyed) (key : ConnKey) (now : ℕ) :
    Steps s (s.step (.tick key now)) (.tick key now) := by
  refine Acts.steps ?_ nofun
  refine (acts_drive h key .tick now).congr fun i v _ => ?_
  simp only [localNext, inputOf, addresses, Bool.false_eq_true, if_false]
  split_ifs <;> rfl

theorem next_steps (h : s.Keyed) (hmay : s.may a = true) :
    Steps s (s.next a) a := by
  obtain ⟨sent, heq⟩ := next_eq_step h a
  suffices hstep : Steps s (s.step a) a by
    rw [heq]
    exact ⟨hstep.keyed, hstep.view, hstep.fresh, hstep.commands⟩
  cases a with
  | datagram p peer now initSeq => exact step_datagram h p peer now initSeq
  | command now recvId => exact step_command h hmay
  | tick key now => exact step_tick h key now
  | connect peer =>
    refine ⟨h, fun _ _ hv => hv, .inl rfl, [.connect peer s.dials.length],
      rfl, .inr ⟨nofun, fun c hc => ?_⟩⟩
    exact .inl ⟨_, _, rfl, mem_singleton.mp hc⟩
  | giveUp | dropSocket =>
    exact ⟨h, fun _ _ hv => hv, .inl rfl, [], (append_nil _).symm,
      .inr ⟨nofun, nofun⟩⟩
  | read id room =>
    refine steps_onStream h id (fun _ _ => rfl) (issued_of_user nofun rfl
      fun _ _ hc => absurd hc not_mem_nil) fun st => ?_
    obtain ⟨queue, rem, heq⟩ := st.pollRead_frame room
    exact (congrArg key heq :)
  | peek id =>
    refine steps_onStream h id (fun _ _ => rfl) (issued_of_user nofun rfl
      fun _ _ hc => absurd hc not_mem_nil) fun st => ?_
    obtain ⟨queue, rem, heq⟩ := st.peekFirstByte_frame
    exact (congrArg key heq :)
  | write id buf =>
    refine steps_onStream h id (fun _ _ => rfl) ?_ fun st => ?_
    · rcases onStream_commands id _ s with ⟨-, hnone⟩ | ⟨st, hst, hmore⟩
      · simp [may, atApplication, hnone] at hmay
      · exact ⟨_, hmore, .inl ⟨id, buf, st, rfl, hst, rfl⟩⟩
    · obtain ⟨gate, heq, -⟩ := st.pollWrite_frame id buf
      exact (congrArg key heq :)
  | shutdown id =>
    refine steps_onStream h id (fun _ _ => rfl) (issued_of_user nofun rfl
      fun st c hc => ?_) fun st => ?_
    · unfold pollShutdown at hc
      split_ifs at hc
      · cases hc
      · exact mem_singleton.mp hc
    · obtain ⟨sent, heq⟩ := st.pollShutdown_frame
      exact (congrArg key heq :)
  | drop id =>
    refine steps_onStream h id (fun _ _ => rfl) (issued_of_user nofun rfl
      fun st c hc => ?_) fun _ => rfl
    unfold UtpStream.drop at hc
    split_ifs at hc
    · cases hc
    · exact mem_singleton.mp hc

theorem Keyed.next (h : s.Keyed) (hmay : s.may a = true) :
    (s.next a).Keyed := (next_steps h hmay).keyed

theorem keyed_start : start.Keyed := by
  intro key e h
  cases h

section

variable (h : s.Keyed) (hmay : s.may a = true)

include h hmay

theorem view_next (hv : s.view i = some v) :
    (s.next a).view i = some (s.localNext i v a) :=
  (next_steps h hmay).view i v hv

theorem streams_length_next : s.streams.length ≤ (s.next a).streams.length := by
  rcases (next_steps h hmay).fresh with hsame | ⟨hone, -⟩
  · exact hsame.ge
  · exact (Nat.le_succ _).trans hone.ge

theorem view_next_cases {v' : View} (hv' : (s.next a).view i = some v') :
    (∃ v, s.view i = some v ∧ v' = s.localNext i v a) ∨
      i = s.streams.length ∧ Born i v' := by
  have hlt := view_lt hv'
  by_cases hi : i < s.streams.length
  · obtain ⟨v, hv⟩ := view_isSome hi
    rw [view_next h hmay hv, some.injEq] at hv'
    exact .inl ⟨v, hv, hv'.symm⟩
  · rcases (next_steps h hmay).fresh with hsame | ⟨hone, v, hv, hborn⟩
    · omega
    · obtain rfl : i = s.streams.length := by omega
      rw [hv, some.injEq] at hv'
      exact .inr ⟨rfl, hv' ▸ hborn⟩

end

/-! ## The channel -/

theorem Issued.ne_send {new : List Command} (h : s.Issued a new)
    (hwrite : ∀ id buf, a ≠ .write id buf) {c : Command} (hc : c ∈ new)
    (key : ConnKey) (data : Bytes) (writer : ℕ) :
    c ≠ .send key data writer := by
  rcases h with ⟨id, buf, st, ha, -⟩ | ⟨-, hall⟩
  · exact absurd ha (hwrite id buf)
  · rcases hall c hc with ⟨peer, dial, -, rfl⟩ | ⟨⟨target, rfl⟩, -⟩
    · nofun
    · nofun

theorem next_commands (h : s.Keyed) (hmay : s.may a = true) :
    ∃ new, (s.next a).commands = s.pending a ++ new ∧ s.Issued a new :=
  (next_steps h hmay).commands

theorem isCommand_iff :
    a.isCommand = true ↔ ∃ now recvId, a = .command now recvId := by
  cases a <;> simp [Event.isCommand]

theorem pending_of_not_command (h : ¬ a.isCommand = true) :
    s.pending a = s.commands := by
  cases a <;> first | rfl | exact absurd rfl h

theorem mem_of_mem_pending {c : Command} (h : c ∈ s.pending a) :
    c ∈ s.commands := by
  unfold pending at h
  split at h
  · exact mem_of_mem_tail h
  · exact h

/-- A block in the channel is not empty when it gets there, and comes from the
stream it names. -/
theorem send_of_next (h : s.Keyed) (hmay : s.may a = true) {data : Bytes}
    {writer : ℕ} (hmem : .send key data writer ∈ (s.next a).commands) :
    .send key data writer ∈ s.commands ∨
      data ≠ [] ∧ writer < s.streams.length := by
  obtain ⟨new, hnew, hissued⟩ := next_commands h hmay
  rw [hnew, mem_append] at hmem
  rcases hmem with hold | hnow
  · exact .inl (mem_of_mem_pending hold)
  · right
    by_cases hwrite : ∀ id buf, a ≠ .write id buf
    · exact absurd rfl (hissued.ne_send hwrite hnow key data writer)
    · rcases hissued with ⟨id, buf, st, -, hst, rfl⟩ | ⟨hnot, -⟩
      · have hlt := (List.getElem?_eq_some_iff.mp hst).1
        obtain ⟨gate, -, -, ⟨-, hnone⟩ | ⟨block, hne, -, -, hone⟩⟩ :=
          st.pollWrite_frame id buf
        · rw [hnone] at hnow
          cases hnow
        · rw [hone, mem_singleton] at hnow
          cases hnow
          exact ⟨hne, hlt⟩
      · exact absurd hnot hwrite

end Endpoint

end RustyTorrent.Utp
