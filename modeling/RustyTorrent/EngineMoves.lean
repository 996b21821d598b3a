import RustyTorrent.EngineSteps

/-!
# What a step of a session can do

An action of a session is a chain of moves of a few kinds (`Move`): a step of
a handler whose effects reach the other tasks at once, an announce, an event
of storage that is taken, and what the storage and upload tasks do.  An
invariant of sessions is a case analysis over these kinds.
-/

namespace RustyTorrent.Engine

open Metainfo Piece Scheduler Relation TorrentEngine List

/-! ## Handlers whose effects were taken away -/

section Rebase

variable {g : Geometry} {env : Env} {a : Action}
  {start e e' : TorrentEngine} {new : List Effect}

theorem Quiet.rebase (h : Quiet g e e') (hnew : e'.effects = e.effects ++ new) :
    Quiet g { e with effects := [] } { e' with effects := new } := by
  obtain ⟨new', heffects, hsilent⟩ := h.effects
  rw [hnew, append_cancel_left_eq] at heffects
  exact { h with effects := ⟨new, rfl, heffects ▸ hsilent⟩ }

theorem Credited.rebase {i b : ℕ} (h : Credited g i b e e')
    (hnew : e'.effects = e.effects ++ new) :
    Credited g i b { e with effects := [] } { e' with effects := new } := by
  obtain ⟨new', hext, hsilent⟩ := h.silent
  have heq : new = new' := by
    rw [← append_cancel_left_eq, ← hnew, hext.effects]
  exact { h with
    silent := ⟨new, ⟨hext.torrent, hext.cfg, rfl⟩, heq ▸ hsilent⟩ }

theorem EngineStep.rebase (h : EngineStep g env a start e e') :
    ∃ new, e'.effects = e.effects ++ new ∧
      EngineStep g env a start { e with effects := [] }
        { e' with effects := new } := by
  cases h with
  | quiet h =>
    obtain ⟨new, hnew, -⟩ := h.effects
    exact ⟨new, hnew, .quiet (h.rebase hnew)⟩
  | received h =>
    obtain ⟨new, hext, -⟩ := h.silent
    exact ⟨new, hext.effects, .received (h.rebase hext.effects)⟩
  | @verified index b e₁ data h hall hlen hhash heq =>
    subst heq
    obtain ⟨new, hext, -⟩ := h.silent
    refine ⟨new ++ [.write index data], ?_, ?_⟩
    · simp only [hext.effects, append_assoc]
    · exact .verified (h.rebase hext.effects) hall hlen hhash rfl
  | @mismatched index b e₁ h hall hext' hpm hbuf hcache hdownloaded =>
    obtain ⟨new, hext, -⟩ := h.silent
    refine ⟨new ++ [.mismatch index], ?_, ?_⟩
    · rw [hext'.effects, hext.effects, append_assoc]
    · exact .mismatched (h.rebase hext.effects) hall
        ⟨hext'.torrent, hext'.cfg, rfl⟩ hpm hbuf hcache hdownloaded
  | @told addr cmd h heq =>
    subst heq
    exact ⟨[.send addr cmd], rfl, .told h rfl⟩
  | served h hhit hend heq =>
    subst heq
    refine ⟨_, rfl, .served ?_ hhit hend rfl⟩
    exact { h with }
  | queued h hsize heq =>
    subst heq
    refine ⟨_, rfl, .queued ?_ hsize rfl⟩
    exact { h with }

end Rebase

/-! ## Moves -/

/-- The engine after the answer to the write of a piece, which made the given
change to the pieces. -/
structure Settled (g : Geometry) (change : PieceManager → PieceManager → Prop)
    (e e' : TorrentEngine) : Prop where
  torrent : e'.torrent = e.torrent
  downloaded : e'.downloaded = e.downloaded
  uploadCache : e'.uploadCache = e.uploadCache
  pm : change e.pm e'.pm
  buffered : e'.pm.Buffered g
  effects : e'.effects = e.effects

/-- One move of a session that takes the action `a`, whose handler started
with `start`. -/
inductive Move (g : Geometry) (env : Env) (a : Action)
    (start : TorrentEngine) (c c' : Client) : Prop where
  | engine {e : TorrentEngine} (h : EngineStep g env a start c.engine e)
      (heq : c' = c.absorb e)
  | announced {event : Tracker.Event} {request : Tracker.AnnounceRequest}
      (h : c.engine.announceRequest event = .ok request)
      (heq : c' = { c with log := c.log ++ [.announce request] })
  | halted (heq : c' = { c with running := false })
  | stored {index : UInt32} {rest : List StorageEvent} {e : TorrentEngine}
      (hevents : c.events = .written index :: rest)
      (h : Settled g (PieceManager.Completes g index.toNat) c.engine e)
      (heq : c' = { c.take (.written index) rest with engine := e })
  | lost {index : UInt32} {rest : List StorageEvent} {e : TorrentEngine}
      (hevents : c.events = .error (some index) :: rest)
      (h : Settled g (PieceManager.Resets g index.toNat) c.engine e)
      (heq : c' = { c.take (.error (some index)) rest with engine := e })
  | ignored {rest : List StorageEvent}
      (hevents : c.events = .error none :: rest)
      (heq : c' = c.take (.error none) rest)
  | submitted {k : ℕ} {u : Upload} (hu : c.uploads[k]? = some u)
      (heq : c' = { c with
        uploads := c.uploads.eraseIdx k
        commands := c.commands ++ [.read u] })
  | wrote {index : UInt32} {data : Bytes} {rest : List StorageCommand}
      (hcommands : c.commands = .write index data :: rest)
      (heq : c' = { c with
        commands := rest
        store := Function.update c.store index.toNat (some data)
        events := c.events ++ [.written index] })
  | spoiled {index : UInt32} {data : Bytes} {rest : List StorageCommand}
      {garbage : Option Bytes}
      (hcommands : c.commands = .write index data :: rest)
      (heq : c' = { c with
        commands := rest
        store := Function.update c.store index.toNat garbage
        events := c.events ++ [.error (some index)] })
  | read {u : Upload} {piece : Bytes} {rest : List StorageCommand}
      (hcommands : c.commands = .read u :: rest)
      (hstore : c.store u.index.toNat = some piece)
      (hle : u.pieceSize.toNat ≤ piece.length)
      (heq : c' = { c with
        commands := rest
        replies := c.replies ++ [(u, piece.take u.pieceSize.toNat)] })
  | unread {u : Upload} {rest : List StorageCommand}
      (hcommands : c.commands = .read u :: rest)
      (heq : c' = { c with commands := rest })
  | dropped {k : ℕ}
      (heq : c' = { c with replies := c.replies.eraseIdx k })
  | delivered {k : ℕ} {u : Upload} {piece : Bytes}
      (hreply : c.replies[k]? = some (u, piece))
      (hend : u.begin_.toNat + u.length.toNat ≤ piece.length)
      (heq : c' = { c with
        replies := c.replies.eraseIdx k
        engine := { c.engine with
          uploadCache := c.engine.uploadCache.insert u.index piece }
        log := c.log ++ [.effect (.send u.addr (.piece u.index u.begin_
          ((piece.drop u.begin_.toNat).take u.length.toNat)))] })

/-- A session goes from one state to another. -/
abbrev Moves (g : Geometry) (env : Env) (a : Action)
    (start : TorrentEngine) : Client → Client → Prop :=
  ReflTransGen (Move g env a start)

/-- Between two actions the effects of the engine are taken away. -/
structure Client.Ready (g : Geometry) (c : Client) : Prop where
  shaped : Shaped g c.engine
  effects : c.engine.effects = []

namespace Client

variable {g : Geometry} {env : Env} {a : Action} {start : TorrentEngine}
  {c c' : Client} {e : TorrentEngine}

theorem absorb_of_effects (h : e.effects = []) :
    c.absorb e = { c with engine := e } := by
  cases e
  simp only at h
  subst h
  simp [absorb]

theorem absorb_absorb {e' : TorrentEngine} {new : List Effect}
    (h : e'.effects = e.effects ++ new) :
    (c.absorb e).absorb { e' with effects := new } = c.absorb e' := by
  simp [absorb, h]

theorem moves_absorb (heffects : c.engine.effects = [])
    (h : EngineSteps g env a start c.engine e) :
    Moves g env a start c (c.absorb e) := by
  induction h with
  | refl => rw [absorb_of_effects heffects]
  | tail _ hstep ih =>
    obtain ⟨new, hnew, hstep⟩ := hstep.rebase
    exact ih.tail (.engine hstep (absorb_absorb hnew).symm)

@[simp] theorem engine_announce (event : Tracker.Event) :
    (c.announce event).engine = c.engine := by
  unfold announce
  split
  · rfl
  · split <;> rfl

theorem moves_announce (event : Tracker.Event) :
    Moves g env a start c (c.announce event) := by
  unfold announce
  split
  · exact .refl
  · split
    next request hrequest => exact .single (.announced hrequest rfl)
    next => exact .refl

theorem moves_stop : Moves g env a start c c.stop :=
  (moves_announce .stopped).tail (.halted rfl)

theorem moves_finish {done : Bool} (heffects : c.engine.effects = [])
    (h : EngineSteps g env a start c.engine e) :
    Moves g env a start c (c.finish e done) := by
  unfold finish
  split
  · exact (moves_absorb heffects h).trans moves_stop
  · exact moves_absorb heffects h

theorem moves_handle {result : Outcome Error TorrentEngine}
    {done : TorrentEngine → Bool} (heffects : c.engine.effects = [])
    (h : ∀ e, result = .ok e → EngineSteps g env a start c.engine e) :
    Moves g env a start c (c.handle result done) := by
  unfold handle
  split
  next e => exact moves_finish heffects (h e rfl)
  next => exact .single (.halted rfl)

theorem moves_quiet (heffects : c.engine.effects = []) (h : Quiet g c.engine e)
    : Moves g env a start c (c.absorb e) :=
  moves_absorb heffects h.steps

theorem moves_onReannounce (found : List SocketAddr)
    (heffects : c.engine.effects = []) :
    Moves g env a start c (c.onReannounce env found) := by
  unfold onReannounce
  extract_lets e e₁ c₁
  have hid : Quiet g c.engine e₁ := by
    unfold e₁
    split
    · exact .of_eq rfl
    · exact .refl _
  have he₁ : e₁.effects = [] := by
    unfold e₁
    split <;> exact heffects
  have hfirst : Moves g env a start c { c with engine := e₁ } := by
    rw [← absorb_of_effects he₁]
    exact moves_quiet heffects hid
  refine hfirst.trans ((moves_announce .none).trans (moves_quiet ?_ ?_))
  · rw [engine_announce]
    exact he₁
  · exact quiet_dial _

theorem moves_onStorage (hc : c.Ready g) :
    Moves g env a start c (c.onStorage env) := by
  unfold onStorage
  split
  · exact .refl
  next ev rest hevents =>
    split
    next e hok =>
      cases ev with
      | written index =>
        obtain ⟨pm, hpm, hok⟩ := Outcome.bind_eq_ok.mp hok
        obtain ⟨hcompletes, hbuf⟩ :=
          hc.shaped.fits.markComplete_completes hc.shaped.buffered hpm
        simp only at hok
        generalize he₁ : (if pm.isComplete = true then _ else _) = e₁ at hok
        have hstored : Settled g (PieceManager.Completes g index.toNat)
            c.engine e₁ := by
          rw [← he₁]
          split <;> exact ⟨rfl, rfl, rfl, hcompletes, hbuf, rfl⟩
        have hlocal : e₁.pm.localBits[index.toNat]? = some true := by
          have hlt := hstored.pm.index_lt
          rw [← hc.shaped.fits.localBits] at hlt
          rw [hstored.pm.localBits, getElem?_set_self hlt]
        refine .head (.stored hevents hstored rfl) ?_
        exact moves_finish (hstored.effects.trans hc.effects)
          (steps_announcePiece hlocal hok)
      | error index =>
        cases index with
        | none =>
          cases hok
          exact .head (.ignored hevents rfl) (moves_finish hc.effects .refl)
        | some index =>
          obtain ⟨pm, hpm, hok⟩ := Outcome.bind_eq_ok.mp hok
          obtain ⟨hresets, hbuf⟩ :=
            hc.shaped.fits.resetPiece_resets hc.shaped.buffered hpm
          cases hok
          refine .head (.lost (e := { c.engine with
            pm
            endgameRequests := c.engine.endgameRequests.retain
              fun key _ => key.1 ≠ index }) hevents ?_ rfl)
            (moves_finish hc.effects .refl)
          exact ⟨rfl, rfl, rfl, hresets, hbuf, rfl⟩
    next => exact .single (.halted rfl)

theorem moves_submit (k : ℕ) : Moves g env a start c (c.submit k) := by
  unfold submit
  split
  · exact .refl
  next u hu => exact .single (.submitted hu rfl)

theorem moves_perform (failed : Option (Option Bytes)) :
    Moves g env a start c (c.perform failed) := by
  unfold perform
  split
  · exact .refl
  next index data rest hcommands =>
    split
    · exact .single (.wrote hcommands rfl)
    · exact .single (.spoiled hcommands rfl)
  next u rest hcommands =>
    split
    next piece hstore =>
      split
      next hle => exact .single (.read hcommands hstore hle rfl)
      next => exact .single (.unread hcommands rfl)
    next => exact .single (.unread hcommands rfl)

theorem moves_deliver (k : ℕ) : Moves g env a start c (c.deliver k) := by
  unfold deliver
  split
  · exact .refl
  next u piece hreply =>
    simp only
    split
    · exact .single (.dropped rfl)
    next hend =>
      exact .single (.delivered hreply (Nat.le_of_not_lt hend) rfl)

theorem moves_next (hc : c.Ready g) (a : Action) :
    Moves g env a c.engine c (c.next env a) := by
  have heffects := hc.effects
  cases a with
  | peer ev =>
    exact moves_handle heffects fun e he =>
      steps_handlePeerEvent hc.shaped he
  | storage => exact moves_onStorage hc
  | reannounce found => exact moves_onReannounce found heffects
  | chokeTick =>
    exact moves_handle heffects fun e he =>
      (quiet_chokeTick he).steps
  | gc => exact moves_quiet heffects (.of_eq rfl)
  | pause =>
    have heq : c.next env .pause =
        c.absorb { c.engine with paused := true } := by
      refine (absorb_of_effects ?_).symm
      exact heffects
    rw [heq]
    exact moves_quiet heffects (.of_eq rfl)
  | resume =>
    exact moves_handle heffects fun e he =>
      (quiet_resume he).steps
  | shutdown => exact moves_stop
  | inbound addr =>
    exact moves_quiet heffects (.of_eq rfl)
  | dhtPeers found =>
    simp only [next, onDhtPeers]
    split
    · exact moves_quiet heffects (quiet_dial _)
    · exact .refl
  | pexTick => exact moves_quiet heffects quiet_sendPexToAll
  | submit k => exact moves_submit k
  | perform failed => exact moves_perform failed
  | deliver k => exact moves_deliver k

/-! ## Invariants -/

theorem Ready.move (hc : c.Ready g) (h : Move g env a start c c') :
    c'.Ready g := by
  cases h with
  | engine h heq =>
    subst heq
    exact ⟨⟨(h.shaped hc.shaped).fits, (h.shaped hc.shaped).buffered⟩, rfl⟩
  | stored _ h heq | lost _ h heq =>
    subst heq
    exact ⟨⟨h.pm.fits, h.buffered⟩, h.effects.trans hc.effects⟩
  | delivered _ _ heq =>
    subst heq
    exact ⟨⟨hc.shaped.fits, hc.shaped.buffered⟩, hc.effects⟩
  | _ =>
    subst_vars
    exact ⟨hc.shaped, hc.effects⟩

theorem torrent_of_move (h : Move g env a start c c') :
    c'.engine.torrent = c.engine.torrent := by
  cases h with
  | engine h heq | stored _ h heq | lost _ h heq =>
    subst heq
    exact h.torrent
  | _ =>
    subst_vars
    rfl

section

variable (hc : c.Ready g)

include hc

theorem Ready.moves {P : Client → Prop} (hp : P c)
    (h : Moves g env a start c c')
    (hmove : ∀ c c', c.Ready g → P c → Move g env a start c c' → P c') :
    c'.Ready g ∧ P c' := by
  induction h with
  | refl => exact ⟨hc, hp⟩
  | tail _ hstep ih =>
    exact ⟨ih.1.move hstep, hmove _ _ ih.1 ih.2 hstep⟩

theorem Ready.next (a : Action) : (c.next env a).Ready g :=
  (hc.moves trivial (moves_next hc a) fun _ _ _ _ _ => trivial).1

theorem Ready.torrent_next (a : Action) :
    (c.next env a).engine.torrent = c.engine.torrent := by
  have hmoves : Moves g env a c.engine c (c.next env a) := moves_next hc a
  refine (hc.moves (P := fun d => d.engine.torrent = c.engine.torrent) rfl
    hmoves ?_).2
  intro d d' _ hd hmove
  exact (torrent_of_move hmove).trans hd

variable {as : List Action}

theorem Ready.after (h : (session env).Allowed c as) :
    ((session env).after c as).Ready g :=
  (System.Reach.of_allowed h).invariant hc fun _ a hs _ => hs.next a

theorem Ready.torrent_after (h : (session env).Allowed c as) :
    ((session env).after c as).engine.torrent = c.engine.torrent := by
  refine ((System.Reach.of_allowed h).invariant
    (P := fun d => d.Ready g ∧ d.engine.torrent = c.engine.torrent)
    ⟨hc, rfl⟩ ?_).2
  intro d a hd _
  exact ⟨hd.1.next a, (hd.1.torrent_next a).trans hd.2⟩

/-- An invariant of a run that may speak of the actions so far: it is kept
when the next action is noted, and then by every move of it. -/
theorem Ready.history {P : List Action → Client → Prop} (hstart : P [] c)
    (hnote : ∀ as a, P as ((session env).after c as) →
      P (as ++ [a]) ((session env).after c as))
    (hmove : ∀ as a d d', d.Ready g → P (as ++ [a]) d →
      Move g env a ((session env).after c as).engine d d' → P (as ++ [a]) d')
    (h : (session env).Allowed c as) : P as ((session env).after c as) := by
  refine System.Allowed.history hstart ?_ h
  intro as a has hp _
  have hready := hc.after has
  exact (hready.moves (hnote as a hp) (moves_next hready a) (hmove as a)).2

end

end Client

end RustyTorrent.Engine
