import RustyTorrent.EngineMoves
import RustyTorrent.LoadSafety

/-!
# The start of a session

The engine starts with nothing received and with the pieces present that the
resume scan has verified.
-/

namespace RustyTorrent

open Metainfo Piece Scheduler Outcome PieceManager List

namespace Piece.PieceManager

/-- The piece `i` is in the local bitfield. -/
def Present (pm : PieceManager) (i : ℕ) : Prop :=
  pm.localBits[i]? = some true

instance (pm : PieceManager) (i : ℕ) : Decidable (pm.Present i) :=
  inferInstanceAs (Decidable (pm.localBits[i]? = some true))

/-- A piece is complete exactly if it is present. -/
def Settled (pm : PieceManager) : Prop := ∀ i, pm.Done i ↔ pm.Present i

variable {pm pm' : PieceManager} {g : Geometry}

theorem Completes.present_iff {i : ℕ} (h : Completes g i pm pm')
    (hfits : pm.Fits g) (j : ℕ) : pm'.Present j ↔ j = i ∨ pm.Present j := by
  have hlt : i < pm.localBits.length := by
    rw [hfits.localBits]
    exact h.index_lt
  rw [Present, Present, h.localBits, getElem?_set]
  by_cases hij : i = j
  · subst hij
    simp [hlt]
  · simp [hij, Ne.symm hij]

/-- The pieces that the resume scan verified are complete. -/
structure Resumes (g : Geometry) (already : List ℕ) (pm pm' : PieceManager) :
    Prop where
  fits : pm'.Fits g
  buffered : pm'.Buffered g
  received : pm'.received = pm.received
  wanted : pm'.wanted = pm.wanted
  done_iff : ∀ i, pm'.Done i ↔ i ∈ already ∨ pm.Done i
  present_iff : ∀ i, pm'.Present i ↔ i ∈ already ∨ pm.Present i

theorem setWanted_eq (h : pm.Fits g) (mask : List Bool) :
    ∃ wanted, pm.setWanted mask = { pm with wanted } ∧
      wanted.length = g.numPieces := by
  unfold setWanted
  split_ifs with hlen
  · exact ⟨pm.wanted, rfl, h.wanted⟩
  · rw [not_not] at hlen
    exact ⟨mask, rfl, hlen.trans h.numPieces⟩

theorem Fits.withWanted (h : pm.Fits g) {wanted : List Bool}
    (hlen : wanted.length = g.numPieces) :
    ({ pm with wanted } : PieceManager).Fits g :=
  { h with wanted := hlen }

theorem fresh_buffered : (fresh g).Buffered g := by
  intro i buf hbuf
  simp [fresh, getElem?_replicate] at hbuf

theorem fresh_not_done (i : ℕ) : ¬ (fresh g).Done i := by
  simp [fresh, Done, getElem?_replicate]

theorem fresh_not_present (i : ℕ) : ¬ (fresh g).Present i := by
  simp [fresh, Present, getElem?_replicate]

end Piece.PieceManager

namespace Engine

namespace Client

variable {g : Geometry} {env : Env}

theorem select_eq {pm : PieceManager} (h : pm.Fits g)
    (wanted : Option (List Bool)) :
    ∃ mask, select wanted pm = { pm with wanted := mask } ∧
      mask.length = g.numPieces := by
  cases wanted with
  | none => exact ⟨pm.wanted, rfl, h.wanted⟩
  | some mask => exact setWanted_eq h mask

theorem resumeAll_resumes {already : List ℕ} {pm pm' : PieceManager}
    (hfits : pm.Fits g) (hbuf : pm.Buffered g)
    (hok : resumeAll already pm = .ok pm') :
    PieceManager.Resumes g already pm pm' := by
  induction already generalizing pm with
  | nil =>
    cases hok
    exact { fits := hfits, buffered := hbuf, received := rfl, wanted := rfl,
            done_iff := by simp, present_iff := by simp }
  | cons i rest ih =>
    obtain ⟨pm₁, hmark, hok⟩ := bind_eq_ok.mp hok
    obtain ⟨hcompletes, hbuf₁⟩ := hfits.markComplete_completes hbuf hmark
    have hrest := ih hcompletes.fits hbuf₁ hok
    exact {
      fits := hrest.fits
      buffered := hrest.buffered
      received := hrest.received.trans hcompletes.received
      wanted := hrest.wanted.trans hcompletes.wanted
      done_iff := by
        intro j
        rw [hrest.done_iff, hcompletes.done_iff, mem_cons, or_assoc,
          or_left_comm]
      present_iff := by
        intro j
        rw [hrest.present_iff, hcompletes.present_iff hfits, mem_cons,
          or_assoc, or_left_comm] }

/-- What a session starts with. -/
structure Started (g : Geometry) (t : TorrentFile) (cfg : EngineConfig)
    (already : List ℕ) (store : ℕ → Option Bytes) (c : Client) : Prop where
  ready : c.Ready g
  torrent : c.engine.torrent = t
  cfg : c.engine.cfg = cfg
  downloaded : c.engine.downloaded = 0
  uploadCache : c.engine.uploadCache =
    Storage.PieceCache.new Storage.defaultCapacity
  received : c.engine.pm.received = (PieceManager.fresh g).received
  settled : c.engine.pm.Settled
  present_iff : ∀ i, c.engine.pm.Present i ↔ i ∈ already
  store_eq : c.store = store
  commands : c.commands = []
  events : c.events = []
  uploads : c.uploads = []
  replies : c.replies = []
  log : c.log = [] ∨ ∃ request, c.engine.announceRequest .started = .ok
    request ∧ c.log = [.announce request]

section

variable {t : TorrentFile} {peerId : Peer.PeerId} {cfg : EngineConfig}
  {wanted : Option (List Bool)} {already : List ℕ}
  {store : ℕ → Option Bytes} {seedPeers found : List SocketAddr} {c : Client}

theorem new_eq_ok {e : TorrentEngine} (ht : t.info.Accepted)
    (hok : TorrentEngine.new env t peerId cfg = .ok e) :
    e.pm = fresh ht.geometry ∧ e.torrent = t ∧ e.cfg = cfg ∧
      e.downloaded = 0 ∧ e.effects = [] ∧
      e.uploadCache = Storage.PieceCache.new Storage.defaultCapacity := by
  have hnew : new t.info.pieceLength t.info.files.lengths.sum
      t.numPieces = .ok (fresh ht.geometry) :=
    new_eq (g := ht.geometry) (numPieces_lt_of_accepted ht)
  have htotal : t.totalLength = .ok t.info.files.lengths.sum :=
    ht.totalLength_eq
  rw [TorrentEngine.new, htotal, ok_bind, hnew, ok_bind,
    pure_eq, ok.injEq] at hok
  subst hok
  exact ⟨rfl, rfl, rfl, rfl, rfl, rfl⟩

theorem Started.announce (h : Started g t cfg already store c)
    (hlog : c.log = []) :
    Started g t cfg already store (c.announce .started) := by
  unfold Client.announce
  split
  · exact h
  · split
    next request hrequest =>
      exact { h with
        ready := ⟨h.ready.shaped, h.ready.effects⟩
        log := .inr ⟨request, hrequest,
          congrArg (· ++ [Record.announce request]) hlog⟩ }
    next => exact h

theorem Started.dial (h : Started g t cfg already store c)
    (addrs : List SocketAddr) :
    Started g t cfg already store (c.absorb (c.engine.dial env addrs)) := by
  have heffects : (c.engine.dial env addrs).effects = [] := h.ready.effects
  rw [absorb_of_effects heffects]
  exact { h with
    ready := ⟨⟨h.ready.shaped.fits, h.ready.shaped.buffered⟩, heffects⟩ }

theorem started_of_start (ht : t.info.Accepted)
    (hok : Client.start env t peerId cfg wanted already store seedPeers
      found = .ok c) : Started ht.geometry t cfg already store c := by
  obtain ⟨e, hnew, hok⟩ := bind_eq_ok.mp hok
  obtain ⟨pm, hpm, hok⟩ := bind_eq_ok.mp hok
  obtain ⟨hfresh, htorrent, hcfg, hdownloaded, heffects, hcache⟩ :=
    new_eq_ok ht hnew
  have hfits := fresh_fits (g := ht.geometry)
    ht.pieceLength_le (numPieces_lt_of_accepted ht)
  obtain ⟨mask, hmask, hlen⟩ := select_eq hfits wanted
  rw [hfresh, hmask] at hpm
  have hresumes := resumeAll_resumes (hfits.withWanted hlen) fresh_buffered hpm
  have hdone : ∀ i, pm.Done i ↔ i ∈ already := fun i =>
    (hresumes.done_iff i).trans (or_iff_left (fresh_not_done i))
  have hpresent : ∀ i, pm.Present i ↔ i ∈ already := fun i =>
    (hresumes.present_iff i).trans (or_iff_left (fresh_not_present i))
  have hlaunch : Started ht.geometry t cfg already store
      (launch ((prepare e pm).dial env seedPeers) store) := {
    ready := ⟨⟨hresumes.fits, hresumes.buffered⟩, heffects⟩
    torrent := htorrent
    cfg := hcfg
    downloaded := hdownloaded
    uploadCache := hcache
    received := hresumes.received
    settled := fun i => (hdone i).trans (hpresent i).symm
    present_iff := hpresent
    store_eq := rfl
    commands := rfl
    events := rfl
    uploads := rfl
    replies := rfl
    log := .inl rfl }
  simp only at hok
  split at hok
  · cases hok
    exact hlaunch.announce rfl
  · cases hok
    exact (hlaunch.announce rfl).dial _

end

end Client

/-! ## A small session -/

/-- Surroundings that allow everything. -/
def openEnv : Env where
  sha1Of _ := zeroDigest
  accepts _ := true
  grants _ := true
  admits _ := true
  storageOpen _ := true
  clock n := n
  choice _ := 0
  freshPeerId _ := zeroDigest
  order _ _ l := l
  order_perm _ _ l := .refl l

/-- A configuration without limits. -/
def openConfig : EngineConfig where
  listenPort := 6881
  maxPeers := Peer.defaultMaxPeers
  noTracker := false
  anonymous := false
  proxied := false
  globalCap := false
  maxDownBytesPerSec := none
  maxUpBytesPerSec := none
  sequential := false

theorem exampleTorrent_accepted : exampleTorrent.info.Accepted :=
  TorrentFile.fromBytes_accepted _ fromBytes_exampleInput

end Engine

end RustyTorrent
