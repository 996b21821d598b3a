import RustyTorrent.EngineFrame

/-!
# What a handler can do

A handler is a chain of steps of a few kinds (`EngineStep`): quiet ones, a
block that is received, a piece that is verified or rejected, something told
to a peer about our pieces, and an upload that is served from the cache or
queued.  Every invariant of a session is a case analysis over these kinds.
-/

namespace RustyTorrent.Engine

open Metainfo Piece Scheduler Relation Outcome Quiet

/-- The handler has gone from `e` to `e'` with the effects `new`. -/
structure Extends (e e' : TorrentEngine) (new : List Effect) : Prop where
  torrent : e'.torrent = e.torrent
  cfg : e'.cfg = e.cfg
  effects : e'.effects = e.effects ++ new

/-- The block numbered `b` of piece `i` is received and credited. -/
structure Credited (g : Geometry) (i b : ℕ) (e e' : TorrentEngine) :
    Prop where
  silent : ∃ new, Extends e e' new ∧ ∀ x ∈ new, x.Silent
  uploadCache : e'.uploadCache = e.uploadCache
  pm : PieceManager.Adds g i b e.pm e'.pm
  buffered : e'.pm.Buffered g
  downloaded : e'.downloaded =
    saturatingAdd 64 e.downloaded (g.blockLength i b)

/-- What a command says about our pieces is true. -/
def PeerCommand.Truthful (pm : PieceManager) : PeerCommand → Prop
  | .have_ index => pm.localBits[index.toNat]? = some true
  | .bitfield bytes => bytes = Peer.bitfieldToBytes pm.localBits
  | .piece _ _ _ => False
  | _ => True

/-- A request that may be served: from a peer that is not choked, for a block
within a piece that is present. -/
structure Servable (g : Geometry) (a : Action) (start e : TorrentEngine)
    (addr : SocketAddr) (index begin_ length : UInt32) : Prop where
  request : a = .peer (.request addr index begin_ length)
  unchoked : start.weUnchoked.lookup addr = some true
  length_pos : 0 < length.toNat
  length_le : length.toNat ≤ Piece.blockSize
  present : e.pm.localBits[index.toNat]? = some true
  range : begin_.toNat + length.toNat ≤ g.size index.toNat

/-- One step of a handler that takes `a` and started with `start`. -/
inductive EngineStep (g : Geometry) (env : Env) (a : Action)
    (start e e' : TorrentEngine) : Prop where
  | quiet (h : Quiet g e e')
  | received {index : UInt32} {b : ℕ} (h : Credited g index.toNat b e e')
  | verified {index : UInt32} {b : ℕ} {e₁ : TorrentEngine} {data : Bytes}
      (h : Credited g index.toNat b e e₁)
      (hall : e₁.pm.AllReceived index.toNat)
      (hlen : data.length = g.size index.toNat)
      (hhash : e.torrent.info.pieceHashes[index.toNat]? =
        some (env.sha1Of data))
      (heq : e' = { e₁ with
        effects := e₁.effects ++ [.write index data]
        asked := e₁.asked + 1 })
  | mismatched {index : UInt32} {b : ℕ} {e₁ : TorrentEngine}
      (h : Credited g index.toNat b e e₁)
      (hall : e₁.pm.AllReceived index.toNat)
      (hext : Extends e₁ e' [.mismatch index])
      (hpm : PieceManager.Resets g index.toNat e₁.pm e'.pm)
      (hbuf : e'.pm.Buffered g)
      (hcache : e'.uploadCache = e₁.uploadCache.invalidate index)
      (hdownloaded : e'.downloaded = e₁.downloaded)
  | told {addr : SocketAddr} {cmd : PeerCommand}
      (h : cmd.Truthful e.pm)
      (heq : e' = { e with
        effects := e.effects ++ [.send addr cmd]
        asked := e.asked + 1 })
  | served {addr : SocketAddr} {index begin_ length : UInt32} {piece : Bytes}
      (h : Servable g a start e addr index begin_ length)
      (hhit : (e.uploadCache.get index).2 = some piece)
      (hend : begin_.toNat + length.toNat ≤ piece.length)
      (heq : e' = { e with
        uploadCache := (e.uploadCache.get index).1
        effects := e.effects ++ [.send addr (.piece index begin_
          ((piece.drop begin_.toNat).take length.toNat))] })
  | queued {addr : SocketAddr} {index begin_ length size : UInt32}
      (h : Servable g a start e addr index begin_ length)
      (hsize : size = UInt32.ofNat (g.size index.toNat))
      (heq : e' = { e with
        uploadCache := (e.uploadCache.get index).1
        effects := e.effects ++
          [.upload ⟨addr, index, begin_, length, size⟩] })

/-- The tables of an engine fit the cut, and so do its buffers. -/
structure Shaped (g : Geometry) (e : TorrentEngine) : Prop where
  fits : e.pm.Fits g
  buffered : e.pm.Buffered g

section Chains

variable {g : Geometry} {env : Env} {a : Action}
  {start e e' e'' : TorrentEngine}

theorem Quiet.shaped (h : Quiet g e e') (hs : Shaped g e) : Shaped g e' :=
  ⟨(h.pm hs.fits).fits, hs.buffered.reserves (h.pm hs.fits)⟩

theorem EngineStep.shaped (h : EngineStep g env a start e e')
    (hs : Shaped g e) : Shaped g e' := by
  cases h with
  | quiet h => exact h.shaped hs
  | received h => exact ⟨h.pm.fits, h.buffered⟩
  | verified h _ _ _ heq =>
    subst heq
    exact ⟨h.pm.fits, h.buffered⟩
  | mismatched _ _ _ hpm hbuf => exact ⟨hpm.fits, hbuf⟩
  | told _ heq | served _ _ _ heq | queued _ _ heq =>
    subst heq
    exact ⟨hs.fits, hs.buffered⟩

theorem EngineStep.torrent (h : EngineStep g env a start e e') :
    e'.torrent = e.torrent := by
  cases h with
  | quiet h => exact h.torrent
  | received h =>
    obtain ⟨new, hext, -⟩ := h.silent
    exact hext.torrent
  | verified h _ _ _ heq =>
    obtain ⟨new, hext, -⟩ := h.silent
    subst heq
    exact hext.torrent
  | mismatched h _ hext' =>
    obtain ⟨new, hext, -⟩ := h.silent
    exact hext'.torrent.trans hext.torrent
  | told _ heq | served _ _ _ heq | queued _ _ heq => rw [heq]

/-- A handler goes from `e` to `e'`. -/
abbrev EngineSteps (g : Geometry) (env : Env) (a : Action)
    (start : TorrentEngine) : TorrentEngine → TorrentEngine → Prop :=
  ReflTransGen (EngineStep g env a start)

theorem Quiet.steps (h : Quiet g e e') : EngineSteps g env a start e e' :=
  .single (.quiet h)

theorem EngineSteps.shaped (h : EngineSteps g env a start e e')
    (hs : Shaped g e) : Shaped g e' := by
  induction h with
  | refl => exact hs
  | tail _ hstep ih => exact hstep.shaped ih

end Chains

theorem Credited.quiet {g : Geometry} {i b : ℕ} {e e₁ e' : TorrentEngine}
    (h : Credited g i b e e₁) (hq : Quiet g e₁ e') : Credited g i b e e' := by
  obtain ⟨new, hext, hsilent⟩ := h.silent
  obtain ⟨new', heffects, hsilent'⟩ := hq.effects
  have hpm := hq.pm h.pm.fits
  refine { silent := ⟨new ++ new', ⟨?_, ?_, ?_⟩, ?_⟩, uploadCache := ?_,
           pm := h.pm.trans_reserves hpm,
           buffered := h.buffered.reserves hpm, downloaded := ?_ }
  · exact hq.torrent.trans hext.torrent
  · exact hq.cfg.trans hext.cfg
  · rw [heffects, hext.effects, List.append_assoc]
  · intro x hx
    exact (List.mem_append.mp hx).elim (hsilent x) (hsilent' x)
  · exact hq.uploadCache.trans h.uploadCache
  · exact hq.downloaded.trans h.downloaded

namespace TorrentEngine

variable {g : Geometry} {env : Env} {a : Action} {start e e' : TorrentEngine}

/-! ## Telling peers about pieces -/

theorem steps_sendTo (addr : SocketAddr) (cmd : PeerCommand)
    (h : cmd.Truthful e.pm) :
    EngineSteps g env a start e (e.sendTo env addr cmd) := by
  unfold sendTo trySend
  split
  · split
    · exact .single (.told h rfl)
    · exact .single (.quiet (.of_eq rfl))
  · exact .refl

theorem steps_sendToAll (cmd : PeerCommand) (addrs : List SocketAddr)
    (e : TorrentEngine) (h : cmd.Truthful e.pm) :
    EngineSteps g env a start e (sendToAll env cmd addrs e) := by
  induction addrs generalizing e with
  | nil => exact .refl
  | cons addr rest ih =>
    have hpm : (e.sendTo env addr cmd).pm = e.pm := by
      unfold sendTo trySend
      split
      · split <;> rfl
      · rfl
    exact (steps_sendTo addr cmd h).trans (ih _ (by rwa [hpm]))

theorem steps_greet (addr : SocketAddr) (peerFast : Bool) :
    EngineSteps g env a start e (e.greet env addr peerFast) := by
  unfold greet
  split_ifs
  · exact steps_sendTo addr .haveAll trivial
  · exact steps_sendTo addr .haveNone trivial
  · exact steps_sendTo addr (.bitfield _) rfl
  · exact .refl

theorem steps_onConnected (addr : SocketAddr) (peerReserved : Vector UInt8 8) :
    EngineSteps g env a start e (e.onConnected env addr peerReserved) := by
  have hnote : Quiet g e (e.noteConnected addr) :=
    .of_eq rfl
  exact hnote.steps.trans (steps_greet addr _)

/-! ## Receiving blocks -/

variable {index begin_ : UInt32} {b : ℕ} {addr : SocketAddr}

theorem credited_credit {length : ℕ} {pm : PieceManager}
    (outcome : BlockOutcome) (addr : SocketAddr)
    (hpm : PieceManager.Adds g index.toNat b e.pm pm) (hbuf : pm.Buffered g)
    (hlen : length = g.blockLength index.toNat b) (hne : outcome ≠ .duplicate) :
    Credited g index.toNat b e
      (({ e with pm } : TorrentEngine).credit env addr length outcome) := by
  unfold credit
  rw [if_pos hne]
  exact { silent := ⟨[], ⟨rfl, rfl, (List.append_nil _).symm⟩, nofun⟩,
          uploadCache := rfl, pm := hpm, buffered := hbuf,
          downloaded := by rw [hlen] }

theorem quiet_cancelOthers (addr : SocketAddr) (index begin_ : UInt32)
    (length : ℕ) : Quiet g e (e.cancelOthers env addr index begin_ length) := by
  unfold cancelOthers
  split
  · exact .refl e
  · exact (quiet_sendToAll (.cancel _ _ _) trivial _ _).after rfl

theorem steps_rejectPiece {e₁ : TorrentEngine}
    (h : Credited g index.toNat b e e₁) (hall : e₁.pm.AllReceived index.toNat)
    (hok : e₁.rejectPiece env addr index = .ok e') :
    EngineSteps g env a start e e' := by
  obtain ⟨pm, hpm, hok⟩ := bind_eq_ok.mp hok
  obtain ⟨hresets, hbuf⟩ := h.pm.fits.resetPiece_resets h.buffered hpm
  refine .head (.mismatched h hall ?_ hresets hbuf ?_ ?_)
    (quiet_cleanupDisconnectedPeer hok).steps
  · exact ⟨rfl, rfl, rfl⟩
  · rfl
  · rfl

theorem steps_settle {e₁ : TorrentEngine} {buf : Bytes} {goesOn : Bool}
    (h : Credited g index.toNat b e e₁) (hall : e₁.pm.AllReceived index.toNat)
    (hlen : buf.length = g.size index.toNat)
    (hok : e₁.settle env addr index buf = .ok (e', goesOn)) :
    EngineSteps g env a start e e' := by
  obtain ⟨expected, hexpected, hok⟩ := bind_eq_ok.mp hok
  split at hok
  next hverify =>
    split at hok
    · cases hok
      refine .single (.verified h hall hlen ?_ rfl)
      obtain ⟨new, hext, -⟩ := h.silent
      rw [← hext.torrent, index_eq_ok.mp hexpected]
      exact congrArg some (of_decide_eq_true hverify).symm
    · cases hok
      refine .single (.received (h.quiet ?_))
      exact .of_eq rfl
  next =>
    obtain ⟨e₂, hreject, hok⟩ := bind_eq_ok.mp hok
    cases hok
    exact steps_rejectPiece h hall hreject

theorem steps_onAccepted {data : Bytes} {pm : PieceManager}
    {outcome : BlockOutcome}
    (hr : PieceManager.Receives g index.toNat data e.pm pm (.ok outcome))
    (hbuf : pm.Buffered g)
    (hok : ({ e with pm } : TorrentEngine).onAccepted env addr index begin_
      data.length outcome = .ok e') : EngineSteps g env a start e e' := by
  obtain ⟨⟨e₂, goesOn⟩, hsettle, hok⟩ := bind_eq_ok.mp hok
  have htail : Quiet g e₂ e' := by
    simp only at hok
    split at hok
    · exact quiet_maybeRequestBlocks hok
    · cases hok
      exact .refl _
  refine .trans ?_ htail.steps
  have hcancel : Quiet g
      (({ e with pm } : TorrentEngine).credit env addr data.length outcome)
      ((({ e with pm } : TorrentEngine).credit env addr data.length
        outcome).cancelOthers env addr index begin_ data.length) :=
    quiet_cancelOthers addr index begin_ _
  cases hr with
  | duplicate h =>
    cases hsettle
    have hpm : Quiet g e { e with pm } := .of_reserves fun _ => h
    exact (hpm.trans hcancel).steps
  | stored hadds hlen =>
    cases hsettle
    exact .single (.received
      ((credited_credit .stored addr hadds hbuf hlen nofun).quiet hcancel))
  | completed hadds hlen hall hbytes =>
    refine steps_settle
      ((credited_credit (.completed _) addr hadds hbuf hlen nofun).quiet
        hcancel) ?_ hbytes hsettle
    exact hall.reserves (hcancel.pm hadds.fits)

theorem steps_onBlock {data : Bytes} (hs : Shaped g e)
    (hok : e.onBlock env addr index begin_ data = .ok e') :
    EngineSteps g env a start e e' := by
  have hfree : Quiet g e (e.freeSlot addr) :=
    .of_eq rfl
  simp only [onBlock] at hok
  split at hok
  · exact (hfree.trans (quiet_maybeRequestBlocks hok)).steps
  obtain ⟨⟨pm, outcome⟩, hreceive, hok⟩ := bind_eq_ok.mp hok
  obtain ⟨hr, hbuf⟩ :=
    hs.fits.receivedBlock_receives hs.buffered hreceive
  have herase : Quiet g e { e.freeSlot addr with
      outstandingRequests :=
        (e.freeSlot addr).outstandingRequests.erase (index, begin_) } :=
    .of_eq rfl
  refine herase.steps.trans ?_
  cases outcome with
  | error _ =>
    cases hr with
    | refused _ h =>
      refine steps (.trans ?_ (quiet_cleanupDisconnectedPeer hok))
      exact .trans (.of_reserves fun _ => h) (.of_eq rfl)
  | ok outcome => exact steps_onAccepted hr hbuf hok

/-! ## Serving requests -/

theorem steps_startUpload {length : UInt32}
    (h : Servable g a start e addr index begin_ length) :
    EngineSteps g env a start e
      (e.startUpload addr index begin_ length (g.size index.toNat)) := by
  unfold startUpload
  simp only
  split
  next piece hhit =>
    split
    next hend => exact .single (.served h hhit hend rfl)
    next => exact .single (.queued h rfl rfl)
  next => exact .single (.queued h rfl rfl)

theorem steps_serveRequest {length : UInt32} (hs : Shaped g e)
    (hok : e.serveRequest env addr index begin_ length = .ok e') :
    EngineSteps g env (.peer (.request addr index begin_ length)) e e e' := by
  unfold serveRequest at hok
  by_cases hchoked : (!(e.weUnchoked.lookup addr).getD false) = true
  · rw [if_pos hchoked] at hok
    cases hok
    exact .refl
  rw [if_neg hchoked] at hok
  by_cases hlength : length.toNat = 0 ∨ blockSize < length.toNat
  · rw [if_pos hlength] at hok
    cases hok
    exact .refl
  rw [if_neg hlength] at hok
  by_cases hindex : e.pm.numPieces ≤ index.toNat
  · rw [if_pos hindex] at hok
    cases hok
    exact .refl
  rw [if_neg hindex, bind_eq_ok] at hok
  obtain ⟨present, hpresent, hok⟩ := hok
  cases present with
  | false =>
    cases hok
    exact .refl
  | true =>
    have hi : index.toNat < g.numPieces := by
      rw [← hs.fits.numPieces]
      omega
    rw [if_neg (by decide), hs.fits.pieceSize_eq hi, ok_bind] at hok
    by_cases hrange : g.size index.toNat < begin_.toNat + length.toNat
    · rw [if_pos hrange] at hok
      cases hok
      exact .refl
    rw [if_neg hrange] at hok
    split at hok
    · cases hok
      exact .refl
    split at hok
    · cases hok
      exact steps (.of_eq rfl)
    · cases hok
      have hcharge : Quiet g e (({ e with asked := e.asked + 1 } :
            TorrentEngine).chargeUpload env addr length.toNat) :=
        .of_eq rfl
      refine hcharge.steps.trans (steps_startUpload ?_)
      exact { request := rfl
              unchoked := by
                cases hlookup : e.weUnchoked.lookup addr with
                | none => simp [hlookup] at hchoked
                | some unchoked => simpa [hlookup] using hchoked
              length_pos := by omega
              length_le := by omega
              present := index_eq_ok.mp hpresent
              range := by omega }

/-! ## Events -/

theorem steps_handlePeerEvent {ev : Peer.PeerEvent} (hs : Shaped g e)
    (hok : e.handlePeerEvent env ev = .ok e') :
    EngineSteps g env (.peer ev) e e e' := by
  cases ev with
  | connected addr reserved =>
    cases hok
    exact steps_onConnected addr reserved
  | disconnected addr violation => exact (quiet_onDisconnected hok).steps
  | haveAll addr =>
    cases hok
    exact steps ((quiet_maybeExpressInterest addr).after rfl)
  | rejectRequest addr index begin_ =>
    exact (quiet_onRejectRequest hok).steps
  | bitfield addr bits | have_ addr index =>
    refine steps (.trans ?_ (quiet_maybeRequestBlocks hok))
    exact (quiet_maybeExpressInterest addr).after rfl
  | choke addr => exact (quiet_onChoke hok).steps
  | unchoke addr =>
    exact steps ((quiet_maybeRequestBlocks hok).after rfl)
  | interested addr =>
    cases hok
    exact (quiet_onInterested addr).steps
  | notInterested | cancel =>
    cases hok
    exact .refl
  | block addr index begin_ data => exact steps_onBlock hs hok
  | request addr index begin_ length => exact steps_serveRequest hs hok
  | extensionHandshake addr id =>
    cases hok
    exact (quiet_onExtensionHandshake addr id).steps
  | pex addr found =>
    cases hok
    exact (quiet_onPex found).steps

theorem quiet_moveOn {addrs : List SocketAddr} (hok : addrs.foldlM
      (fun (e : TorrentEngine) addr =>
        { e with
          picker := e.picker.clearAssignmentIf addr index.toNat
        }.maybeRequestBlocks env addr) e = .ok e') : Quiet g e e' := by
  induction addrs generalizing e with
  | nil =>
    cases hok
    exact .refl _
  | cons addr rest ih =>
    obtain ⟨e₁, he₁, hok⟩ := bind_eq_ok.mp hok
    refine .trans (.trans ?_ (quiet_maybeRequestBlocks he₁)) (ih hok)
    exact .of_eq rfl

theorem steps_announcePiece (hlocal : e.pm.localBits[index.toNat]? = some true)
    (hok : e.announcePiece env index = .ok e') :
    EngineSteps g env a start e e' := by
  have hasked : Quiet g e { e with asked := e.asked + 1 } :=
    .of_eq rfl
  refine hasked.steps.trans (.trans ?_ (quiet_moveOn hok).steps)
  exact steps_sendToAll (.have_ index) _ _ hlocal

end TorrentEngine

end RustyTorrent.Engine
