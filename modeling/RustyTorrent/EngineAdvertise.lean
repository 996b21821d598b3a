import RustyTorrent.EngineStart
import RustyTorrent.Peer.Bitfield

/-!
# What a new peer is told

The first message to a peer says which pieces we have.  A peer that knows the
fast extension is told that we have all pieces as soon as all *wanted* pieces
are present, so the message is wrong exactly if some piece that is not wanted
is missing then, or if a message that should name pieces is not delivered.
-/

namespace RustyTorrent.Engine

open Metainfo Piece Scheduler TorrentEngine PieceManager

/-- The piece `i` is among those a peer may conclude we have. -/
def PeerCommand.Says (i : ℕ) : PeerCommand → Prop
  | .haveAll => True
  | .bitfield bytes => (bytes.flatMap Peer.bitsMsb0).getD i false = true
  | _ => False

/-- The command that a record shows was sent to `addr`. -/
def Record.sentTo (addr : SocketAddr) : Record → Option PeerCommand
  | .effect (.send peer cmd) => if peer = addr then some cmd else none
  | _ => none

namespace Client

/-- The commands sent to `addr` since the log was `log`. -/
def sentSince (log : List Record) (addr : SocketAddr) (c : Client) :
    List PeerCommand :=
  (c.log.drop log.length).filterMap (Record.sentTo addr)

/-- From what a new peer is sent it concludes that we have exactly the pieces
of the local bitfield. -/
def AnswersTruly (env : Env) (c : Client) (addr : SocketAddr)
    (reserved : Vector UInt8 8) : Prop :=
  ∀ i < c.engine.torrent.numPieces,
    (∃ cmd ∈ sentSince c.log addr
        (c.next env (.peer (.connected addr reserved))), cmd.Says i) ↔
      c.engine.pm.Present i

/-- The channel to `addr` takes the next command. -/
def reaches (env : Env) (c : Client) (addr : SocketAddr) : Bool :=
  c.engine.peers.handle addr && env.accepts c.engine.asked

/-- Some piece is missing although all wanted pieces are present. -/
def MissesUnwanted (c : Client) : Prop :=
  (∀ i < c.engine.torrent.numPieces,
    c.engine.pm.isWanted i → c.engine.pm.Present i) ∧
  ∃ i < c.engine.torrent.numPieces, ¬ c.engine.pm.Present i

end Client

/-! ## The message -/

namespace TorrentEngine

variable {env : Env} {e : TorrentEngine}

/-- The message that `greet` tries to send. -/
def greeting (pm : PieceManager) (peerFast : Bool) : Option PeerCommand :=
  if peerFast && pm.isComplete then some .haveAll
  else if peerFast && decide (pm.completeCount = 0) then some .haveNone
  else if 0 < pm.completeCount then
    some (.bitfield (Peer.bitfieldToBytes pm.localBitfield))
  else none

theorem effects_sendTo (addr : SocketAddr) (cmd : PeerCommand) :
    (e.sendTo env addr cmd).effects =
      if e.peers.handle addr && env.accepts e.asked then
        e.effects ++ [.send addr cmd]
      else e.effects := by
  unfold sendTo trySend
  by_cases hslot : e.peers.handle addr
  · by_cases haccepts : env.accepts e.asked <;> simp [hslot, haccepts]
  · simp [hslot]

theorem effects_greet (addr : SocketAddr) (peerFast : Bool) :
    (e.greet env addr peerFast).effects =
      if e.peers.handle addr && env.accepts e.asked then
        e.effects ++ (greeting e.pm peerFast).toList.map (.send addr)
      else e.effects := by
  unfold greet greeting
  split_ifs <;> simp_all [effects_sendTo]

end TorrentEngine

/-! ## What it says -/

section Greeting

variable {g : Geometry} {pm : PieceManager}

theorem completeCount_eq_zero_iff (h : pm.Fits g) :
    pm.completeCount = 0 ↔ ∀ i < g.numPieces, ¬ pm.Present i := by
  rw [completeCount, List.count_eq_zero, List.mem_iff_getElem?, not_exists]
  constructor
  · intro hnone i _
    exact hnone i
  · intro hnone i hi
    have hlt : i < g.numPieces := by
      rw [← h.localBits]
      exact (List.getElem?_eq_some_iff.mp hi).1
    exact hnone i hlt hi

theorem isComplete_iff (h : pm.Fits g) : pm.isComplete = true ↔
      ∀ i < g.numPieces, pm.isWanted i → pm.Present i := by
  have hbit : ∀ i, pm.localBits.getD i false = true ↔ pm.Present i := by
    intro i
    rw [PieceManager.Present, List.getD_eq_getElem?_getD]
    cases pm.localBits[i]? <;> simp
  simp only [isComplete, List.all_eq_true, List.mem_range,
    Bool.or_eq_true, Bool.not_eq_true', hbit, isWanted,
    h.numPieces]
  grind

theorem says_bitfield_iff (pm : PieceManager) (i : ℕ) : (PeerCommand.bitfield
      (Peer.bitfieldToBytes pm.localBitfield)).Says i ↔ pm.Present i := by
  rw [PeerCommand.Says, Peer.flatMap_bitfieldToBytes, PieceManager.Present,
    localBitfield, List.getD_eq_getElem?_getD]
  cases pm.localBits[i]? <;> simp

theorem greeting_says_iff (h : pm.Fits g) (peerFast : Bool) :
    (∀ i < g.numPieces,
      (∃ cmd ∈ greeting pm peerFast, cmd.Says i) ↔ pm.Present i) ↔
      ¬ (peerFast = true ∧ pm.isComplete = true ∧
        ∃ i < g.numPieces, ¬ pm.Present i) := by
  have hnone := completeCount_eq_zero_iff h
  constructor
  · rintro hclaims ⟨hfast, hcomplete, i, hi, hmissing⟩
    have hall : greeting pm peerFast = some .haveAll := by
      simp [greeting, hfast, hcomplete]
    exact hmissing ((hclaims i hi).mp ⟨.haveAll, hall, trivial⟩)
  · intro hnot i hi
    unfold greeting
    split_ifs with hall hzero hsome
    · rw [Bool.and_eq_true] at hall
      have hpresent : pm.Present i := by
        by_contra hmissing
        exact hnot ⟨hall.1, hall.2, i, hi, hmissing⟩
      exact ⟨fun _ => hpresent, fun _ => ⟨.haveAll, rfl, trivial⟩⟩
    · rw [Bool.and_eq_true, decide_eq_true_eq, hnone] at hzero
      simp [PeerCommand.Says, hzero.2 i hi]
    · simp [says_bitfield_iff]
    · have hzero : pm.completeCount = 0 := by omega
      simp [hnone.mp hzero i hi]

end Greeting

namespace Client

variable {g : Geometry} {env : Env} {c : Client}

theorem log_finish (e : TorrentEngine) (done : Bool) :
    ∃ tail, (c.finish e done).log =
        c.log ++ (e.effects.map Record.effect ++ tail) ∧
      ∀ r ∈ tail, ∃ request, r = Record.announce request := by
  unfold finish
  split
  · unfold stop announce
    split
    · exact ⟨[], by simp [absorb], nofun⟩
    · split
      next request _ =>
        exact ⟨[.announce request], by simp [absorb], by simp⟩
      next => exact ⟨[], by simp [absorb], nofun⟩
  · exact ⟨[], by simp [absorb], nofun⟩

theorem sentSince_finish (addr : SocketAddr) (e : TorrentEngine) (done : Bool) :
    sentSince c.log addr (c.finish e done) =
      e.effects.filterMap fun x => Record.sentTo addr (.effect x) := by
  obtain ⟨tail, hlog, htail⟩ := log_finish (c := c) e done
  have hnone : tail.filterMap (Record.sentTo addr) = [] := by
    rw [List.filterMap_eq_nil_iff]
    intro r hr
    obtain ⟨request, rfl⟩ := htail r hr
    rfl
  rw [sentSince, hlog, List.drop_left, List.filterMap_append, hnone,
    List.append_nil, List.filterMap_map]
  rfl

theorem sentSince_connected (hc : c.Ready g) (addr : SocketAddr)
    (reserved : Vector UInt8 8) :
    sentSince c.log addr (c.next env (.peer (.connected addr reserved))) =
      if c.reaches env addr then
        (greeting c.engine.pm
          (Peer.Handshake.supportsFastExtensions reserved)).toList
      else [] := by
  have hnext : c.next env (.peer (.connected addr reserved)) =
      c.finish (c.engine.onConnected env addr reserved) _ := rfl
  have heffects : (c.engine.noteConnected addr).effects = [] := hc.effects
  rw [hnext, sentSince_finish, onConnected,
    effects_greet, heffects, List.nil_append]
  have hreach : ((c.engine.noteConnected addr).peers.handle addr &&
      env.accepts (c.engine.noteConnected addr).asked) =
        c.reaches env addr := rfl
  have hpm : (c.engine.noteConnected addr).pm = c.engine.pm := rfl
  rw [hreach, hpm]
  split
  · cases greeting c.engine.pm _ with
    | none => rfl
    | some cmd => simp [Record.sentTo]
  · rfl

theorem answersTruly_iff_of_ready {t : TorrentFile} (ht : t.info.Accepted)
    (hc : c.Ready ht.geometry) (htorrent : c.engine.torrent = t)
    (addr : SocketAddr) (reserved : Vector UInt8 8) :
    AnswersTruly env c addr reserved ↔
      if c.reaches env addr then
        ¬ (Peer.Handshake.supportsFastExtensions reserved = true ∧
          c.MissesUnwanted)
      else ∀ i, ¬ c.engine.pm.Present i := by
  have hnum : c.engine.torrent.numPieces = ht.geometry.numPieces := by
    rw [htorrent]
    rfl
  have hfits := hc.shaped.fits
  rw [AnswersTruly, MissesUnwanted, sentSince_connected hc, hnum]
  split
  · rw [← isComplete_iff hfits, ← greeting_says_iff hfits]
    simp
  · simp only [List.not_mem_nil, false_and, exists_false, false_iff]
    constructor
    · intro hnone i hi
      have hlt : i < ht.geometry.numPieces := by
        rw [← hfits.localBits]
        exact (List.getElem?_eq_some_iff.mp hi).1
      exact hnone i hlt hi
    · exact fun hnone i _ => hnone i

/-- In every state that a session reaches, a peer that connects concludes from
our answer that we have exactly the pieces of the local bitfield, if and only
if: where the answer is delivered, the peer has no fast extension, or some
wanted piece is missing, or no piece is; where it is not delivered, no piece
is present. -/
theorem answersTruly_iff {t : TorrentFile} {peerId : Peer.PeerId}
    {cfg : EngineConfig} {wanted : Option (List Bool)} {already : List ℕ}
    {store : ℕ → Option Bytes} {seedPeers found : List SocketAddr}
    {c₀ : Client} (ht : t.info.Accepted)
    (hstart : Client.start env t peerId cfg wanted already store seedPeers
      found = .ok c₀) {as : List Action}
    (hrun : (session env).Allowed c₀ as) (addr : SocketAddr)
    (reserved : Vector UInt8 8) :
    AnswersTruly env ((session env).after c₀ as) addr reserved ↔
      if ((session env).after c₀ as).reaches env addr then
        ¬ (Peer.Handshake.supportsFastExtensions reserved = true ∧
          ((session env).after c₀ as).MissesUnwanted)
      else ∀ i, ¬ ((session env).after c₀ as).engine.pm.Present i := by
  have hstarted := started_of_start ht hstart
  have hready := hstarted.ready.after hrun
  have htorrent : ((session env).after c₀ as).engine.torrent = t :=
    (hstarted.ready.torrent_after hrun).trans hstarted.torrent
  generalize (session env).after c₀ as = c at hready htorrent ⊢
  exact answersTruly_iff_of_ready ht hready htorrent addr reserved

/-! ## A selection that is complete -/

/-- The peer `1.2.3.4:6881`. -/
def exampleAddr : SocketAddr := ⟨.v4 #v[1, 2, 3, 4], 6881⟩

/-- The first of two pieces is wanted and present; a peer with the fast
extension that connects is told that we have both. -/
theorem not_answersTruly_unselected :
    ∃ c₀, Client.start openEnv exampleTorrent zeroDigest openConfig
        (some [true, false]) [0] (fun _ => none) [] [] = .ok c₀ ∧
      (session openEnv).Allowed c₀ [.inbound exampleAddr] ∧
      ¬ AnswersTruly openEnv
        ((session openEnv).after c₀ [.inbound exampleAddr]) exampleAddr
        (Peer.Handshake.extensionBytesFrom true true) := by
  refine ⟨_, rfl, ⟨fun _ => rfl, trivial⟩, ?_⟩
  intro h
  have hsecond := (h 1 (by decide +kernel)).mp ⟨.haveAll, ?_, trivial⟩
  · revert hsecond
    decide +kernel
  · decide +kernel

/-- Without a selection the same peer is answered truly. -/
theorem answersTruly_unlimited :
    ∃ c₀, Client.start openEnv exampleTorrent zeroDigest openConfig none [0]
        (fun _ => none) [] [] = .ok c₀ ∧
      AnswersTruly openEnv
        ((session openEnv).after c₀ [.inbound exampleAddr]) exampleAddr
        (Peer.Handshake.extensionBytesFrom true true) := by
  obtain ⟨c₀, hstart, hrun, hreaches, hlt, hwanted, hmissing⟩ :
      ∃ c₀, Client.start openEnv exampleTorrent zeroDigest openConfig none
          [0] (fun _ => none) [] [] = .ok c₀ ∧
        (session openEnv).Allowed c₀ [.inbound exampleAddr] ∧
        let c := (session openEnv).after c₀ [.inbound exampleAddr]
        c.reaches openEnv exampleAddr = true ∧
          1 < c.engine.torrent.numPieces ∧ c.engine.pm.isWanted 1 = true ∧
          ¬ c.engine.pm.Present 1 :=
    ⟨_, rfl, ⟨fun _ => rfl, trivial⟩, by decide +kernel⟩
  refine ⟨c₀, hstart, (answersTruly_iff exampleTorrent_accepted hstart hrun
    exampleAddr _).mpr ?_⟩
  rw [if_pos hreaches]
  rintro ⟨-, hcomplete, -⟩
  exact hmissing (hcomplete 1 hlt hwanted)

end Client

end RustyTorrent.Engine
