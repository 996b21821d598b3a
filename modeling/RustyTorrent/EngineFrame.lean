import RustyTorrent.EngineLoop
import RustyTorrent.Piece.ManagerSteps

/-!
# Handlers that say nothing about our pieces

Most of what the engine does is asking for blocks and giving them back.  Such
a step changes neither what was received nor what is complete, credits no
download, leaves the cache alone and sends only commands that say nothing
about our pieces (`Quiet`).
-/

namespace RustyTorrent.Engine

open Metainfo Piece Scheduler Outcome List

/-- A command that neither announces pieces nor carries one. -/
def PeerCommand.Silent : PeerCommand → Prop
  | .have_ _ => False
  | .piece _ _ _ => False
  | .bitfield _ => False
  | .haveAll => False
  | .haveNone => False
  | _ => True

/-- A silent command is sent. -/
def Effect.Silent : Effect → Prop
  | .send _ cmd => cmd.Silent
  | _ => False

/-- What a quiet step keeps, apart from reservations and silent commands. -/
def TorrentEngine.held (e : TorrentEngine) :=
  (e.torrent, e.cfg, e.downloaded, e.uploadCache, e.pm, e.effects)

/-- The engine goes from `e` to `e'` without touching received data. -/
structure Quiet (g : Geometry) (e e' : TorrentEngine) : Prop where
  torrent : e'.torrent = e.torrent
  cfg : e'.cfg = e.cfg
  downloaded : e'.downloaded = e.downloaded
  uploadCache : e'.uploadCache = e.uploadCache
  pm : e.pm.Fits g → PieceManager.Reserves g e.pm e'.pm
  effects : ∃ new, e'.effects = e.effects ++ new ∧ ∀ x ∈ new, x.Silent

namespace Quiet

variable {g : Geometry} {e e' e'' : TorrentEngine}

theorem of_eq (h : e'.held = e.held) : Quiet g e e' := by
  simp only [TorrentEngine.held, Prod.mk.injEq] at h
  obtain ⟨htorrent, hcfg, hdownloaded, hcache, hpm, heffects⟩ := h
  refine ⟨htorrent, hcfg, hdownloaded, hcache, fun hfits => ?_, [], ?_, nofun⟩
  · rw [hpm]
    exact .refl hfits
  · rw [heffects, append_nil]

theorem refl (e : TorrentEngine) : Quiet g e e := .of_eq rfl

theorem trans (h : Quiet g e e') (h' : Quiet g e' e'') : Quiet g e e'' where
  torrent := h'.torrent.trans h.torrent
  cfg := h'.cfg.trans h.cfg
  downloaded := h'.downloaded.trans h.downloaded
  uploadCache := h'.uploadCache.trans h.uploadCache
  pm hfits := (h.pm hfits).trans (h'.pm (h.pm hfits).fits)
  effects := by
    obtain ⟨new, hnew, hsilent⟩ := h.effects
    obtain ⟨new', hnew', hsilent'⟩ := h'.effects
    refine ⟨new ++ new', by rw [hnew', hnew, append_assoc], ?_⟩
    intro x hx
    exact (mem_append.mp hx).elim (hsilent x) (hsilent' x)

theorem after (h : Quiet g e' e'') (heq : e'.held = e.held) : Quiet g e e'' :=
  .trans (.of_eq heq) h

theorem of_reserves {pm : PieceManager}
    (hpm : e.pm.Fits g → PieceManager.Reserves g e.pm pm) :
    Quiet g e { e with pm } where
  torrent := rfl
  cfg := rfl
  downloaded := rfl
  uploadCache := rfl
  pm := hpm
  effects := ⟨[], (append_nil _).symm, nofun⟩

end Quiet

namespace TorrentEngine

variable {g : Geometry} {env : Env} {e e' : TorrentEngine} {addr : SocketAddr}
  {endgame : Bool} {piece : ℕ}

theorem quiet_trySend {cmd : PeerCommand}
    {sent : Bool} (hsend : e.trySend env addr cmd = (e', sent))
    (hcmd : cmd.Silent) : Quiet g e e' := by
  unfold trySend at hsend
  split at hsend
  · cases hsend
    refine { torrent := rfl, cfg := rfl, downloaded := rfl,
             uploadCache := rfl, pm := .refl,
             effects := ⟨[.send addr cmd], rfl, ?_⟩ }
    rintro x hx
    rw [mem_singleton.mp hx]
    exact hcmd
  · cases hsend
    exact .of_eq rfl

theorem quiet_sendTo (addr : SocketAddr) (cmd : PeerCommand)
    (hcmd : cmd.Silent) : Quiet g e (e.sendTo env addr cmd) := by
  unfold sendTo
  split
  · exact quiet_trySend rfl hcmd
  · exact .refl e

theorem quiet_sendToAll (cmd : PeerCommand) (hcmd : cmd.Silent)
    (addrs : List SocketAddr) (e : TorrentEngine) :
    Quiet g e (sendToAll env cmd addrs e) := by
  induction addrs generalizing e with
  | nil => exact .refl e
  | cons addr rest ih => exact (quiet_sendTo addr cmd hcmd).trans (ih _)

/-! ## Requests -/

theorem quiet_unreserve {begin : ℕ}
    (hok : e.unreserve endgame piece begin = .ok e') : Quiet g e e' := by
  unfold unreserve at hok
  split at hok
  · cases hok
    exact .refl e
  · obtain ⟨pm, hpm, hok⟩ := bind_eq_ok.mp hok
    cases hok
    exact .of_reserves fun hfits => hfits.releaseBlock_reserves hpm

theorem quiet_nextBlock {block : Option (ℕ × ℕ)}
    (hok : e.nextBlock addr endgame piece = .ok (e', block)) :
    Quiet g e e' := by
  unfold nextBlock at hok
  split at hok
  · obtain ⟨blocks, -, hok⟩ := bind_eq_ok.mp hok
    cases hok
    exact .refl e
  · obtain ⟨⟨pm, block'⟩, hpm, hok⟩ := bind_eq_ok.mp hok
    cases hok
    exact .of_reserves fun hfits => hfits.reserveBlock_reserves hpm

theorem quiet_noteRequest (addr : SocketAddr) (endgame : Bool)
    (piece begin : ℕ) :
    Quiet g e (e.noteRequest env addr endgame piece begin) := by
  unfold noteRequest
  cases endgame <;> exact .of_eq rfl

theorem quiet_issue {begin length : ℕ} {sent : Bool}
    (hok : e.issue env addr endgame piece begin length = .ok (e', sent)) :
    Quiet g e e' := by
  have hasked : Quiet g e { e with asked := e.asked + 1 } :=
    .of_eq rfl
  unfold issue at hok
  split at hok
  · obtain ⟨e₁, he₁, hok⟩ := bind_eq_ok.mp hok
    cases hok
    exact hasked.trans (quiet_unreserve he₁)
  · refine hasked.trans ?_
    simp only at hok
    split at hok
    · split at hok
      next e₁ hsend =>
        cases hok
        exact (quiet_trySend hsend trivial).trans
          (quiet_noteRequest addr endgame piece begin)
      next e₁ hsend =>
        obtain ⟨e₂, he₂, hok⟩ := bind_eq_ok.mp hok
        cases hok
        exact (quiet_trySend hsend trivial).trans (quiet_unreserve he₂)
    · obtain ⟨e₁, he₁, hok⟩ := bind_eq_ok.mp hok
      cases hok
      exact quiet_unreserve he₁

theorem quiet_requestLoop {rounds : ℕ} {exhausted : List ℕ}
    (hok : requestLoop env addr endgame rounds exhausted e = .ok e') :
    Quiet g e e' := by
  induction rounds generalizing exhausted e with
  | zero =>
    cases hok
    exact .refl _
  | succ rounds ih =>
    rw [requestLoop] at hok
    split at hok
    · cases hok
      exact .refl _
    · obtain ⟨⟨picker, pick⟩, -, hok⟩ := bind_eq_ok.mp hok
      have hpicked : Quiet g e { e with picker, asked := e.asked + 1 } :=
        .of_eq rfl
      refine hpicked.trans ?_
      cases pick with
      | none =>
        cases hok
        exact .refl _
      | some piece =>
        simp only at hok
        split at hok
        · cases hok
          exact .refl _
        · obtain ⟨⟨e₁, block⟩, hblock, hok⟩ :=
            bind_eq_ok.mp hok
          refine (quiet_nextBlock hblock).trans ?_
          cases block with
          | none =>
            exact (ih hok).after rfl
          | some block =>
            obtain ⟨⟨e₂, sent⟩, hissue, hok⟩ :=
              bind_eq_ok.mp hok
            refine (quiet_issue hissue).trans ?_
            cases sent with
            | true => exact ih hok
            | false =>
              cases hok
              exact .refl _

theorem quiet_maybeRequestBlocks
    (hok : e.maybeRequestBlocks env addr = .ok e') : Quiet g e e' := by
  unfold maybeRequestBlocks at hok
  split_ifs at hok
  · cases hok
    exact .refl e
  · cases hok
    exact .refl e
  · exact quiet_requestLoop hok

theorem quiet_requestFromAll {addrs : List SocketAddr}
    (hok : requestFromAll env addrs e = .ok e') : Quiet g e e' := by
  induction addrs generalizing e with
  | nil =>
    cases hok
    exact .refl _
  | cons addr rest ih =>
    obtain ⟨e₁, he₁, hok⟩ := bind_eq_ok.mp hok
    exact (quiet_maybeRequestBlocks he₁).trans (ih hok)

theorem quiet_maybeExpressInterest (addr : SocketAddr) :
    Quiet g e (e.maybeExpressInterest env addr) := by
  unfold maybeExpressInterest
  simp only
  split_ifs
  · exact (quiet_sendTo addr .interested trivial).trans
      (.of_eq rfl)
  · exact .refl e
  · exact (quiet_sendTo addr .notInterested trivial).trans
      (.of_eq rfl)
  · exact .refl e
  · exact .refl e

/-! ## Peers that leave -/

theorem quiet_releaseBlocks {keys : List (UInt32 × UInt32)}
    (hok : releaseBlocks keys e = .ok e') : Quiet g e e' := by
  induction keys generalizing e with
  | nil =>
    cases hok
    exact .refl _
  | cons key rest ih =>
    obtain ⟨pm, hpm, hok⟩ := bind_eq_ok.mp hok
    have hreleased : Quiet g e { e with pm } :=
      .of_reserves fun hfits => hfits.releaseBlock_reserves hpm
    exact hreleased.trans ((ih hok).after rfl)

theorem quiet_releaseOutstandingFor
    (hok : e.releaseOutstandingFor env addr = .ok e') : Quiet g e e' :=
  (quiet_releaseBlocks hok).after rfl

theorem quiet_releaseAssigned
    (hok : e.releaseAssigned addr = .ok e') : Quiet g e e' := by
  unfold releaseAssigned at hok
  split at hok
  · cases hok
    exact .refl e
  · obtain ⟨pm, hpm, hok⟩ := bind_eq_ok.mp hok
    cases hok
    have hreleased : Quiet g e { e with pm } :=
      .of_reserves fun hfits => hfits.releasePieceInflight_reserves hpm
    exact hreleased.trans (.of_eq rfl)

theorem quiet_cleanupDisconnectedPeer
    (hok : e.cleanupDisconnectedPeer env addr = .ok e') : Quiet g e e' := by
  simp only [cleanupDisconnectedPeer, bind_eq_ok] at hok
  obtain ⟨e₁, he₁, e₂, he₂, hok⟩ := hok
  cases hok
  refine .trans ?_ ((quiet_releaseOutstandingFor he₂).trans (.of_eq rfl))
  exact (quiet_releaseAssigned he₁).after rfl

/-! ## The other handlers -/

theorem quiet_onDisconnected {violation : Bool}
    (hok : e.onDisconnected env addr violation = .ok e') : Quiet g e e' := by
  obtain ⟨e₁, he₁, hok⟩ := bind_eq_ok.mp hok
  cases hok
  refine .trans ?_ ((quiet_cleanupDisconnectedPeer he₁).trans (.of_eq rfl))
  cases violation <;> exact .of_eq rfl

theorem quiet_onRejectRequest {index begin_ : UInt32}
    (hok : e.onRejectRequest env addr index begin_ = .ok e') :
    Quiet g e e' := by
  have hfree : Quiet g e (e.freeSlot addr) :=
    .of_eq rfl
  refine hfree.trans ?_
  simp only [onRejectRequest] at hok
  split at hok
  · obtain ⟨e₁, he₁, hok⟩ := bind_eq_ok.mp hok
    exact (quiet_releaseBlocks he₁).trans (quiet_maybeRequestBlocks hok)
  · cases hok
    exact .refl _

theorem quiet_onChoke (hok : e.onChoke env addr = .ok e') : Quiet g e e' := by
  obtain ⟨e₁, he₁, hok⟩ := bind_eq_ok.mp hok
  refine .trans ?_ (quiet_releaseOutstandingFor hok)
  exact (quiet_releaseAssigned he₁).after rfl

theorem quiet_onInterested (addr : SocketAddr) :
    Quiet g e (e.onInterested env addr) := by
  unfold onInterested
  split
  · split
    next e₁ hsend =>
      exact (quiet_trySend hsend trivial).trans (.of_eq rfl)
    next e₁ hsend => exact quiet_trySend hsend trivial
  · exact .refl e

theorem quiet_dial (addrs : List SocketAddr) : Quiet g e (e.dial env addrs) :=
  .of_eq rfl

theorem quiet_onPex (found : List SocketAddr) :
    Quiet g e (e.onPex env found) := by
  unfold onPex
  split
  · exact .refl e
  · exact quiet_dial _

theorem quiet_onExtensionHandshake (addr : SocketAddr) (id : Option UInt8) :
    Quiet g e (e.onExtensionHandshake addr id) := by
  unfold onExtensionHandshake
  split
  · exact .refl e
  · cases id <;> exact .of_eq rfl

theorem quiet_applyChoke (cmd : PeerCommand) (hcmd : cmd.Silent)
    (unchoked : Bool) (addrs : List SocketAddr) (e : TorrentEngine) :
    Quiet g e (applyChoke env cmd unchoked addrs e) := by
  induction addrs generalizing e with
  | nil => exact .refl e
  | cons addr rest ih =>
    rw [applyChoke]
    split
    · split
      next e₁ hsend =>
        exact (quiet_trySend hsend hcmd).trans ((ih _).after rfl)
      next e₁ hsend => exact (quiet_trySend hsend hcmd).trans (ih _)
    · exact ih e

theorem quiet_reapStale {stale : List ((UInt32 × UInt32) × SocketAddr)}
    (hok : reapStale env stale e = .ok e') : Quiet g e e' := by
  induction stale generalizing e with
  | nil =>
    cases hok
    exact .refl _
  | cons entry rest ih =>
    simp only [reapStale, bind_eq_ok] at hok
    obtain ⟨e₁, he₁, e₂, he₂, hok⟩ := hok
    refine (quiet_releaseBlocks he₁).trans (.trans ?_ (ih hok))
    exact (quiet_maybeRequestBlocks he₂).after rfl

theorem quiet_rechoke : Quiet g e (e.rechoke env) := by
  refine .trans ?_ (quiet_applyChoke .choke trivial false _ _)
  exact (quiet_applyChoke .unchoke trivial true _ _).after rfl

theorem quiet_chokeTick (hok : e.chokeTick env = .ok e') : Quiet g e e' := by
  have hrechoke : Quiet g e (e.rechoke env) := quiet_rechoke
  exact hrechoke.trans ((quiet_reapStale hok).after rfl)

theorem quiet_resume (hok : e.resume env = .ok e') : Quiet g e e' :=
  (quiet_requestFromAll hok).after rfl

theorem quiet_sendPex (targets : List (SocketAddr × UInt8))
    (e : TorrentEngine) : Quiet g e (sendPex env targets e) := by
  induction targets generalizing e with
  | nil => exact .refl e
  | cons target rest ih =>
    have hasked : Quiet g e { e with asked := e.asked + 2 } :=
      .of_eq rfl
    refine hasked.trans ?_
    simp only [sendPex]
    split
    · exact ih _
    · split
      · split
        next e₁ hsend =>
          exact (quiet_trySend hsend trivial).trans ((ih _).after rfl)
        next e₁ hsend => exact (quiet_trySend hsend trivial).trans (ih _)
      · exact (ih _).after rfl

theorem quiet_sendPexToAll : Quiet g e (e.sendPexToAll env) :=
  (quiet_sendPex _ _).after rfl

end TorrentEngine

end RustyTorrent.Engine
