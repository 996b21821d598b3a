import RustyTorrent.EngineLedger

/-!
# What is announced as left

Every announce request of a session is made from the state its step ends in,
so the balance of the download counter says when the number of bytes left is
right.
-/

namespace RustyTorrent.Engine

open Metainfo Piece Scheduler List Outcome

/-- The request of an announce. -/
def Record.request : Record → Option Tracker.AnnounceRequest
  | .announce request => some request
  | _ => none

/-- The requests made by the last step of a run, or by the start if the run
has no steps. -/
def lastAnnounced (env : Env) (c₀ : Client) (as : List Action) :
    List Tracker.AnnounceRequest :=
  let before :=
    if as = [] then [] else ((session env).after c₀ as.dropLast).log
  (((session env).after c₀ as).log.drop before.length).filterMap
    Record.request

namespace Client

variable {env : Env} {c c₁ c' : Client}

/-! ## Which requests a step makes -/

/-- The log grows by records that are no announces. -/
def Mute (c c' : Client) : Prop :=
  ∃ new, c'.log = c.log ++ new ∧ ∀ r ∈ new, r.request = none

/-- The log grows, and the announces made are those of the state reached. -/
def Logs (c c' : Client) : Prop :=
  ∃ new, c'.log = c.log ++ new ∧ ∀ r ∈ new, ∀ request,
    r.request = some request →
      ∃ event, c'.engine.announceRequest event = .ok request

theorem Mute.of_eq (h : c'.log = c.log) : Mute c c' :=
  ⟨[], by rw [h, append_nil], nofun⟩

theorem Mute.logs (h : Mute c c') : Logs c c' := by
  obtain ⟨new, hlog, hnone⟩ := h
  refine ⟨new, hlog, ?_⟩
  intro r hr request hrequest
  rw [hnone r hr] at hrequest
  cases hrequest

theorem Mute.trans_logs (h : Mute c c₁) (h' : Logs c₁ c') : Logs c c' := by
  obtain ⟨new, hlog, hnone⟩ := h
  obtain ⟨new', hlog', hsome⟩ := h'
  refine ⟨new ++ new', by rw [hlog', hlog, append_assoc], ?_⟩
  intro r hr request hrequest
  rcases mem_append.mp hr with hr | hr
  · rw [hnone r hr] at hrequest
    cases hrequest
  · exact hsome r hr request hrequest

theorem Logs.trans_mute (h : Logs c c₁) (h' : Mute c₁ c')
    (hsame : ∀ event, c'.engine.announceRequest event =
      c₁.engine.announceRequest event) : Logs c c' := by
  obtain ⟨new, hlog, hsome⟩ := h
  obtain ⟨new', hlog', hnone⟩ := h'
  refine ⟨new ++ new', by rw [hlog', hlog, append_assoc], ?_⟩
  intro r hr request hrequest
  rcases mem_append.mp hr with hr | hr
  · obtain ⟨event, hevent⟩ := hsome r hr request hrequest
    exact ⟨event, (hsame event).trans hevent⟩
  · rw [hnone r hr] at hrequest
    cases hrequest

theorem mute_absorb (e : TorrentEngine) : Mute c (c.absorb e) := by
  refine ⟨e.effects.map .effect, rfl, ?_⟩
  intro r hr
  obtain ⟨x, -, rfl⟩ := mem_map.mp hr
  rfl

theorem mute_take (ev : StorageEvent) (rest : List StorageEvent) :
    Mute c (c.take ev rest) := by
  refine ⟨[.storage ev], rfl, ?_⟩
  intro r hr
  rw [mem_singleton.mp hr]
  rfl

theorem logs_announce (event : Tracker.Event) : Logs c (c.announce event) := by
  unfold announce
  split
  · exact (Mute.of_eq rfl).logs
  · split
    next request hrequest =>
      refine ⟨[.announce request], rfl, ?_⟩
      intro r hr made hmade
      rw [mem_singleton.mp hr] at hmade
      cases hmade
      exact ⟨event, hrequest⟩
    next => exact (Mute.of_eq rfl).logs

theorem logs_stop : Logs c c.stop :=
  (logs_announce .stopped).trans_mute (.of_eq rfl) fun _ => rfl

theorem logs_finish (e : TorrentEngine) (done : Bool) :
    Logs c (c.finish e done) := by
  unfold finish
  split
  · exact (mute_absorb e).trans_logs logs_stop
  · exact (mute_absorb e).logs

theorem logs_handle (result : Outcome Error TorrentEngine)
    (done : TorrentEngine → Bool) : Logs c (c.handle result done) := by
  unfold handle
  split
  · exact logs_finish _ _
  · exact (Mute.of_eq rfl).logs

theorem logs_onStorage : Logs c (c.onStorage env) := by
  unfold onStorage
  split
  · exact (Mute.of_eq rfl).logs
  · split
    · exact (mute_take _ _).trans_logs (logs_finish _ _)
    · exact (Mute.of_eq rfl).logs

theorem logs_onReannounce (found : List SocketAddr) :
    Logs c (c.onReannounce env found) := by
  unfold onReannounce
  extract_lets e e₁ c₁
  have hfirst : Logs c c₁ :=
    Mute.trans_logs (.of_eq rfl) (logs_announce (c := { c with engine := e₁ })
      .none)
  exact hfirst.trans_mute (mute_absorb _) fun _ => rfl

theorem logs_perform (failed : Option (Option Bytes)) :
    Logs c (c.perform failed) := by
  refine Mute.logs (.of_eq ?_)
  unfold perform
  split
  · rfl
  · split <;> rfl
  · split
    · split <;> rfl
    · rfl

theorem logs_deliver (k : ℕ) : Logs c (c.deliver k) := by
  unfold deliver
  split
  · exact (Mute.of_eq rfl).logs
  · simp only
    split
    · exact (Mute.of_eq rfl).logs
    · refine Mute.logs ⟨_, rfl, ?_⟩
      intro r hr
      rw [mem_singleton.mp hr]
      rfl

theorem logs_next (c : Client) (a : Action) : Logs c (c.next env a) := by
  cases a with
  | peer | chokeTick | resume => exact logs_handle _ _
  | storage => exact logs_onStorage
  | reannounce found => exact logs_onReannounce found
  | gc | inbound | pexTick => exact (mute_absorb _).logs
  | pause => exact (Mute.of_eq rfl).logs
  | shutdown => exact logs_stop
  | dhtPeers found =>
    simp only [next, onDhtPeers]
    split
    · exact (mute_absorb _).logs
    · exact (Mute.of_eq rfl).logs
  | submit k =>
    simp only [next, submit]
    split <;> exact (Mute.of_eq rfl).logs
  | perform failed => exact logs_perform failed
  | deliver k => exact logs_deliver k

/-! ## When they are right -/

section

variable {g : Geometry} {t : TorrentFile} {peerId : Peer.PeerId}
  {cfg : EngineConfig} {wanted : Option (List Bool)} {already : List ℕ}
  {store : ℕ → Option Bytes} {seedPeers found : List SocketAddr}
  {c₀ : Client} {as : List Action} {request : Tracker.AnnounceRequest}

theorem announceRequest_of_lastAnnounced (h : Started g t cfg already store c₀)
    (hrequest : request ∈ lastAnnounced env c₀ as) :
    ∃ event, ((session env).after c₀ as).engine.announceRequest event =
      .ok request := by
  obtain ⟨r, hr, hmade⟩ := mem_filterMap.mp hrequest
  cases as using List.reverseRecOn with
  | nil =>
    have hlog : r ∈ c₀.log := hr
    rcases h.log with hnil | ⟨first, hfirst, hone⟩
    · rw [hnil] at hlog
      cases hlog
    · rw [hone, mem_singleton] at hlog
      subst hlog
      cases hmade
      exact ⟨.started, hfirst⟩
  | append_singleton as a =>
    have hlogs : Logs ((session env).after c₀ as)
        (((session env).after c₀ as).next env a) := logs_next _ a
    obtain ⟨new, hlog, hsome⟩ := hlogs
    rw [System.after_append] at hr ⊢
    rw [if_neg (by simp), dropLast_concat] at hr
    have hnew : r ∈ new := by
      rw [show (session env).next ((session env).after c₀ as) a =
        ((session env).after c₀ as).next env a from rfl, hlog,
        drop_left] at hr
      exact hr
    exact hsome r hnew request hmade

theorem left_of_announceRequest {event : Tracker.Event}
    (ht : t.info.Accepted) (htorrent : c.engine.torrent = t)
    (hok : c.engine.announceRequest event = .ok request) :
    request.left.toNat = ht.geometry.totalLength - c.engine.downloaded := by
  have htotal : t.totalLength = .ok t.info.files.lengths.sum :=
    ht.totalLength_eq
  rw [TorrentEngine.announceRequest, htorrent, htotal, ok_bind,
    pure_eq, ok.injEq] at hok
  subst hok
  have hlt := ht.total_lt
  have hsub : t.info.files.lengths.sum - c.engine.downloaded < 2 ^ 64 := by
    omega
  exact UInt64.toNat_ofNat_of_lt' hsub

/-- For every run, what its last step announces as left is the number of bytes
in pieces that are not present, exactly if the received part of pieces that
are not present and the pieces thrown away make up for the pieces that were
resumed, or if every piece is present and at least as much was thrown away as
was resumed. -/
theorem left_eq_missing_iff (ht : t.info.Accepted)
    (hstart : Client.start env t peerId cfg wanted already store seedPeers
      found = .ok c₀)
    (hrun : (session env).Allowed c₀ as)
    (hrequest : request ∈ lastAnnounced env c₀ as) :
    request.left.toNat =
        ((session env).after c₀ as).engine.pm.missingBytes ht.geometry ↔
      ((session env).after c₀ as).engine.pm.unsettledBytes ht.geometry +
          ((session env).after c₀ as).discardedBytes ht.geometry =
        c₀.engine.pm.presentBytes ht.geometry ∨
      (∀ i < t.numPieces, ((session env).after c₀ as).engine.pm.Present i) ∧
      c₀.engine.pm.presentBytes ht.geometry ≤
        ((session env).after c₀ as).discardedBytes ht.geometry := by
  have hstarted := started_of_start ht hstart
  obtain ⟨event, hevent⟩ :=
    announceRequest_of_lastAnnounced hstarted hrequest
  obtain ⟨counted, hcounter, hsum⟩ := balanced_after hstarted hrun
  have htorrent := (hstarted.ready.torrent_after hrun).trans hstarted.torrent
  have hleft := left_of_announceRequest ht htorrent hevent
  generalize (session env).after c₀ as = c at *
  have htotal := ht.total_lt
  have hsplit : c.engine.pm.presentBytes ht.geometry +
      c.engine.pm.missingBytes ht.geometry = ht.geometry.totalLength :=
    PieceManager.present_add_missing
  have hall : c.engine.pm.missingBytes ht.geometry = 0 ↔
      ∀ i < t.numPieces, c.engine.pm.Present i :=
    PieceManager.missingBytes_eq_zero_iff
  have hunsettled : c.engine.pm.missingBytes ht.geometry = 0 →
      c.engine.pm.unsettledBytes ht.geometry = 0 := by
    intro hzero
    refine Finset.sum_eq_zero fun i hi => ?_
    rw [if_pos (PieceManager.missingBytes_eq_zero_iff.mp hzero i
      (Finset.mem_range.mp hi))]
  have hbound : ht.geometry.totalLength = t.info.files.lengths.sum := rfl
  rw [PieceManager.sum_stake] at hsum
  rw [← hall, hleft, hcounter]
  by_cases hzero : c.engine.pm.missingBytes ht.geometry = 0
  · have hnone := hunsettled hzero
    omega
  · omega

end

/-! ## A torrent that is resumed as complete -/

/-- Both pieces are present after the resume scan; all six bytes are announced
as left. -/
theorem left_ne_missing_resumed :
    ∃ c₀, Client.start openEnv exampleTorrent zeroDigest openConfig none
        [0, 1] (fun _ => none) [] [] = .ok c₀ ∧
      ∃ request ∈ lastAnnounced openEnv c₀ [], request.left.toNat = 6 ∧
        c₀.engine.pm.missingBytes exampleTorrent_accepted.geometry = 0 :=
  ⟨_, rfl, _, .head _, by decide +kernel, by decide +kernel⟩

/-- Without resumed pieces the first announce is right. -/
theorem left_eq_missing_fresh :
    ∃ c₀, Client.start openEnv exampleTorrent zeroDigest openConfig none []
        (fun _ => none) [] [] = .ok c₀ ∧
      ∃ request ∈ lastAnnounced openEnv c₀ [], request.left.toNat =
        c₀.engine.pm.missingBytes exampleTorrent_accepted.geometry := by
  obtain ⟨c₀, hstart, request, hrequest, hnone⟩ :
      ∃ c₀, Client.start openEnv exampleTorrent zeroDigest openConfig none
          [] (fun _ => none) [] [] = .ok c₀ ∧
        ∃ request ∈ lastAnnounced openEnv c₀ [],
          c₀.engine.pm.unsettledBytes exampleTorrent_accepted.geometry +
              c₀.discardedBytes exampleTorrent_accepted.geometry =
            c₀.engine.pm.presentBytes exampleTorrent_accepted.geometry :=
    ⟨_, rfl, _, .head _, by decide +kernel⟩
  have hrun : (session openEnv).Allowed c₀ [] := trivial
  refine ⟨c₀, hstart, request, hrequest, ?_⟩
  exact (left_eq_missing_iff exampleTorrent_accepted hstart hrun
    hrequest).mpr (.inl hnone)

end Client

end RustyTorrent.Engine
