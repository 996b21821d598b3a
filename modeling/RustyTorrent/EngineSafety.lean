import RustyTorrent.EngineAdvertise
import RustyTorrent.EnginePending

/-!
# Nothing unverified is advertised or served

Over every run, a piece in the local bitfield was verified by the resume scan,
or its buffer passed `verify_piece` and storage then reported it as written
(`Warranted`).  What is said about pieces is said of such pieces only, and a
block that is sent is cut out of the piece that storage holds, for a request
that was handled while the peer was not choked.
-/

namespace RustyTorrent

open Metainfo Piece Scheduler List Function

/-! ## Logs -/

section

variable {α : Type*} {Q Q' : List α → α → Prop} {log new : List α}

/-- Every entry of a log meets a condition on the entries before it. -/
def Logged (Q : List α → α → Prop) (log : List α) : Prop :=
  ∀ l₁ r l₂, log = l₁ ++ r :: l₂ → Q l₁ r

theorem Logged.mono (h : Logged Q log) (hmono : ∀ l r, Q l r → Q' l r) :
    Logged Q' log :=
  fun l₁ r l₂ heq => hmono l₁ r (h l₁ r l₂ heq)

theorem Logged.append (h : Logged Q log)
    (hnew : ∀ n₁ r n₂, new = n₁ ++ r :: n₂ → Q (log ++ n₁) r) :
    Logged Q (log ++ new) := by
  intro l₁ r l₂ heq
  rcases append_eq_append_iff.mp heq with
    ⟨mid, rfl, hmid⟩ | ⟨mid, hmid, hrest⟩
  · exact hnew mid r l₂ hmid
  · cases mid with
    | nil =>
      rw [append_nil] at hmid
      subst hmid
      have hq := hnew [] r l₂ hrest.symm
      rwa [append_nil] at hq
    | cons r' mid =>
      rw [cons_append, cons.injEq] at hrest
      obtain ⟨rfl, -⟩ := hrest
      exact h l₁ r mid hmid

theorem Logged.of_forall (h : ∀ r ∈ log, Q [] r)
    (happend : ∀ l r, Q [] r → Q l r) : Logged Q log := by
  rintro l₁ r l₂ rfl
  exact happend l₁ r (h r (mem_append_right _ mem_cons_self))

end

namespace Engine

/-! ## Verified pieces -/

/-- `data` is a piece-sized buffer that passes `verify_piece`. -/
structure Verified (env : Env) (t : TorrentFile) (g : Geometry) (i : ℕ)
    (data : Bytes) : Prop where
  length : data.length = g.size i
  hash : t.info.pieceHashes[i]? = some (env.sha1Of data)

/-- The resume scan has verified the piece `i`, or its buffer was verified and
sent to storage, and storage reported it as written after that. -/
def Warranted (env : Env) (t : TorrentFile) (g : Geometry)
    (already : List ℕ) (log : List Record) (i : ℕ) : Prop :=
  i ∈ already ∨ ∃ (index : UInt32) (data : Bytes) (l₁ l₂ l₃ : List Record),
    index.toNat = i ∧ Verified env t g i data ∧
    log = l₁ ++ .effect (.write index data) ::
      (l₂ ++ .storage (.written index) :: l₃)

theorem Warranted.append {env : Env} {t : TorrentFile} {g : Geometry}
    {already : List ℕ} {log : List Record} {i : ℕ}
    (h : Warranted env t g already log i) (new : List Record) :
    Warranted env t g already (log ++ new) i := by
  rcases h with h | ⟨index, data, l₁, l₂, l₃, hindex, hverified, rfl⟩
  · exact .inl h
  · exact .inr ⟨index, data, l₁, l₂, l₃ ++ new, hindex, hverified, by simp⟩

/-- The actions so far contain this request, and it was handled while the peer
was not choked. -/
def Asked (env : Env) (c₀ : Client) (as : List Action) (addr : SocketAddr)
    (index begin_ length : UInt32) : Prop :=
  ∃ as₁ as₂, as = as₁ ++ .peer (.request addr index begin_ length) :: as₂ ∧
    ((session env).after c₀ as₁).engine.weUnchoked.lookup addr = some true

/-- A block may be sent: it is asked for, of a size that may be asked for, and
within a piece that is present. -/
structure Granted (env : Env) (g : Geometry) (c₀ : Client)
    (as : List Action) (pm : PieceManager) (addr : SocketAddr)
    (index begin_ length : UInt32) : Prop where
  asked : Asked env c₀ as addr index begin_ length
  length_pos : 1 ≤ length.toNat
  length_le : length.toNat ≤ Piece.blockSize
  range : begin_.toNat + length.toNat ≤ g.size index.toNat
  present : pm.Present index.toNat

/-- An upload of such a block. -/
structure Entitled (env : Env) (g : Geometry) (c₀ : Client)
    (as : List Action) (pm : PieceManager) (u : Upload) : Prop where
  granted : Granted env g c₀ as pm u.addr u.index u.begin_ u.length
  pieceSize : u.pieceSize = UInt32.ofNat (g.size u.index.toNat)

/-! ## The invariant -/

section Invariant

variable (env : Env) (t : TorrentFile) (g : Geometry) (already : List ℕ)
  (c₀ : Client) (as : List Action)

/-- What an effect says about our pieces is true, given the log before it. -/
def Effect.Sound (c : Client) (log : List Record) : Effect → Prop
  | .send _ (.have_ index) => Warranted env t g already log index.toNat
  | .send _ (.bitfield bytes) =>
    ∀ i, (bytes.flatMap Peer.bitsMsb0).getD i false = true →
      Warranted env t g already log i
  | .send addr (.piece index begin_ data) =>
    ∃ (length : UInt32) (piece : Bytes),
      Granted env g c₀ as c.engine.pm addr index begin_ length ∧
      c.store index.toNat = some piece ∧
      data = (piece.drop begin_.toNat).take length.toNat ∧
      Warranted env t g already log index.toNat
  | .write index data => Verified env t g index.toNat data
  | .upload u => Entitled env g c₀ as c.engine.pm u
  | _ => True

/-- The same for a record. -/
def Record.Sound (c : Client) (log : List Record) : Record → Prop
  | .effect x => x.Sound env t g already c₀ as c log
  | _ => True

/-- What is known of a session after the actions `as`. -/
structure Sound (c : Client) : Prop where
  present : ∀ i, c.engine.pm.Present i →
    Warranted env t g already c.log i ∧
      ∃ data, c.store i = some data ∧ Verified env t g i data
  writes : ∀ index data, .write index data ∈ c.commands →
    Verified env t g index.toNat data ∧
      .effect (.write index data) ∈ c.log
  written : ∀ index, .written index ∈ c.events →
    ∃ data, c.store index.toNat = some data ∧
      Verified env t g index.toNat data ∧ .effect (.write index data) ∈ c.log
  cache : c.engine.uploadCache.All fun index piece =>
    c.engine.pm.Present index.toNat ∧ c.store index.toNat = some piece
  uploads : ∀ u ∈ c.uploads, Entitled env g c₀ as c.engine.pm u
  reads : ∀ u, .read u ∈ c.commands → Entitled env g c₀ as c.engine.pm u
  replies : ∀ r ∈ c.replies, Entitled env g c₀ as c.engine.pm r.1 ∧
    c.store r.1.index.toNat = some r.2
  log : Logged (Record.Sound env t g already c₀ as c) c.log

end Invariant

/-- The pieces that are present stay, and storage keeps them. -/
def Stable (c c' : Client) : Prop :=
  ∀ i, c.engine.pm.Present i →
    c'.engine.pm.Present i ∧ c'.store i = c.store i

section Carry

variable {env : Env} {t : TorrentFile} {g : Geometry} {already : List ℕ}
  {c₀ : Client} {as as' : List Action} {c c' : Client} {addr : SocketAddr}
  {index begin_ length : UInt32} {u : Upload} {log : List Record} {x : Effect}
  {r : Record} {e : TorrentEngine} {a : Action} {piece : Bytes}

theorem Granted.mono
    (h : Granted env g c₀ as c.engine.pm addr index begin_ length)
    (hst : Stable c c') (has : as <+: as') :
    Granted env g c₀ as' c'.engine.pm addr index begin_ length := by
  obtain ⟨new, rfl⟩ := has
  obtain ⟨as₁, as₂, rfl, hunchoked⟩ := h.asked
  exact { h with
    asked := ⟨as₁, as₂ ++ new, by simp, hunchoked⟩
    present := (hst _ h.present).1 }

theorem Entitled.mono
    (h : Entitled env g c₀ as c.engine.pm u) (hst : Stable c c')
    (has : as <+: as') : Entitled env g c₀ as' c'.engine.pm u :=
  ⟨h.granted.mono hst has, h.pieceSize⟩

theorem Effect.Sound.mono
    (h : x.Sound env t g already c₀ as c log) (hst : Stable c c')
    (has : as <+: as') : x.Sound env t g already c₀ as' c' log := by
  cases x with
  | send addr cmd =>
    cases cmd with
    | piece index begin_ data =>
      obtain ⟨length, piece, hgranted, hstore, hdata, hwarranted⟩ := h
      refine ⟨length, piece, hgranted.mono hst has, ?_, hdata, hwarranted⟩
      exact ((hst _ hgranted.present).2).trans hstore
    | _ => exact h
  | upload u => exact Entitled.mono h hst has
  | _ => exact h

theorem Effect.Sound.append (h : x.Sound env t g already c₀ as c log)
    (new : List Record) : x.Sound env t g already c₀ as c (log ++ new) := by
  cases x with
  | send addr cmd =>
    cases cmd with
    | have_ index => exact Warranted.append h new
    | bitfield bytes => exact fun i hi => (h i hi).append new
    | piece index begin_ data =>
      obtain ⟨length, piece, hgranted, hstore, hdata, hwarranted⟩ := h
      exact ⟨length, piece, hgranted, hstore, hdata, hwarranted.append new⟩
    | _ => exact h
  | _ => exact h

theorem Record.Sound.mono
    (h : r.Sound env t g already c₀ as c log) (hst : Stable c c')
    (has : as <+: as') : r.Sound env t g already c₀ as' c' log := by
  cases r with
  | effect x => exact Effect.Sound.mono h hst has
  | _ => exact h

theorem Record.Sound.append (h : r.Sound env t g already c₀ as c log)
    (new : List Record) : r.Sound env t g already c₀ as c (log ++ new) := by
  cases r with
  | effect x => exact Effect.Sound.append h new
  | _ => exact h

theorem Sound.keep (h : Sound env t g already c₀ as c)
    (hst : Stable c c') {new : List Record} (hlog : c'.log = c.log ++ new)
    (hpresent : ∀ i, c'.engine.pm.Present i → c.engine.pm.Present i ∨
      Warranted env t g already c'.log i ∧
        ∃ data, c'.store i = some data ∧ Verified env t g i data)
    (hwrites : ∀ index data, .write index data ∈ c'.commands →
      .write index data ∈ c.commands ∨ Verified env t g index.toNat data ∧
          .effect (.write index data) ∈ new)
    (hwritten : ∀ index, .written index ∈ c'.events →
      .written index ∈ c.events ∧ c'.store index.toNat = c.store index.toNat ∨
        ∃ data, .write index data ∈ c.commands ∧
          c'.store index.toNat = some data)
    (hcache : c'.engine.uploadCache.All fun index piece =>
      c'.engine.pm.Present index.toNat ∧ c'.store index.toNat = some piece)
    (huploads : ∀ u ∈ c'.uploads,
      u ∈ c.uploads ∨ Entitled env g c₀ as c'.engine.pm u)
    (hreads : ∀ u, .read u ∈ c'.commands → .read u ∈ c.commands ∨ u ∈ c.uploads)
    (hreplies : ∀ r ∈ c'.replies, r ∈ c.replies ∨
      .read r.1 ∈ c.commands ∧ c.store r.1.index.toNat = some r.2)
    (hnew : ∀ r ∈ new, r.Sound env t g already c₀ as c' c.log) :
    Sound env t g already c₀ as c' where
  present i hi := by
    rcases hpresent i hi with hold | hnew
    · obtain ⟨hwarranted, data, hstore, hverified⟩ := h.present i hold
      rw [hlog]
      exact ⟨hwarranted.append new, data, (hst i hold).2.trans hstore,
        hverified⟩
    · exact hnew
  writes index data hmem := by
    rcases hwrites index data hmem with hold | ⟨hverified, hin⟩
    · obtain ⟨hverified, hin⟩ := h.writes index data hold
      rw [hlog]
      exact ⟨hverified, mem_append_left _ hin⟩
    · rw [hlog]
      exact ⟨hverified, mem_append_right _ hin⟩
  written index hmem := by
    rw [hlog]
    rcases hwritten index hmem with ⟨hold, hsame⟩ | ⟨data, hold, hstore⟩
    · obtain ⟨data, hstore, hverified, hin⟩ := h.written index hold
      exact ⟨data, hsame.trans hstore, hverified, mem_append_left _ hin⟩
    · obtain ⟨hverified, hin⟩ := h.writes index data hold
      exact ⟨data, hstore, hverified, mem_append_left _ hin⟩
  cache := hcache
  uploads u hu := by
    rcases huploads u hu with hold | hnew
    · exact (h.uploads u hold).mono hst prefix_rfl
    · exact hnew
  reads u hu := by
    rcases hreads u hu with hold | hold
    · exact (h.reads u hold).mono hst prefix_rfl
    · exact (h.uploads u hold).mono hst prefix_rfl
  replies r hr := by
    rcases hreplies r hr with hold | ⟨hread, hstore⟩
    · obtain ⟨hentitled, hstore⟩ := h.replies r hold
      have hkeep := hst _ hentitled.granted.present
      exact ⟨hentitled.mono hst prefix_rfl, hkeep.2.trans hstore⟩
    · have hentitled := h.reads r.1 hread
      have hkeep := hst _ hentitled.granted.present
      exact ⟨hentitled.mono hst prefix_rfl, hkeep.2.trans hstore⟩
  log := by
    rw [hlog]
    refine (h.log.mono fun l r hr => hr.mono hst prefix_rfl).append ?_
    rintro n₁ r n₂ rfl
    exact (hnew r (mem_append_right _ mem_cons_self)).append n₁

/-! ## Steps of a handler -/

theorem Effect.Silent.sound
    (h : x.Silent) : x.Sound env t g already c₀ as c log := by
  cases x with
  | send addr cmd =>
    cases cmd with
    | have_ => exact h.elim
    | piece => exact h.elim
    | bitfield => exact h.elim
    | _ => trivial
  | write | upload => exact h.elim
  | mismatch => trivial

theorem Sound.absorb (h : Sound env t g already c₀ as c)
    (hlocal : e.pm.localBits = c.engine.pm.localBits)
    (hcache : e.uploadCache.All fun index piece =>
      c.engine.pm.Present index.toNat ∧ c.store index.toNat = some piece)
    (heffects : ∀ x ∈ e.effects, x.Sound env t g already c₀ as c c.log) :
    Sound env t g already c₀ as (c.absorb e) := by
  have hpresent : ∀ i, (c.absorb e).engine.pm.Present i ↔
      c.engine.pm.Present i := by
    intro i
    change e.pm.localBits[i]? = some true ↔ _
    rw [hlocal]
    rfl
  have hst : Stable c (c.absorb e) :=
    fun i hi => ⟨(hpresent i).mpr hi, rfl⟩
  refine h.keep hst rfl ?_ ?_ ?_ ?_ ?_ ?_ ?_ ?_
  · exact fun i hi => .inl ((hpresent i).mp hi)
  · intro index data hmem
    rcases mem_append.mp hmem with hold | hnew
    · exact .inl hold
    · obtain ⟨x, hx, hcommand⟩ := mem_filterMap.mp hnew
      cases x with
      | write index' data' =>
        cases hcommand
        exact .inr ⟨heffects _ hx, mem_map_of_mem hx⟩
      | _ => cases hcommand
  · exact fun index hmem => .inl ⟨hmem, rfl⟩
  · intro entry hentry
    obtain ⟨hin, hstore⟩ := hcache entry hentry
    exact ⟨(hpresent _).mpr hin, hstore⟩
  · intro u hu
    rcases mem_append.mp hu with hold | hnew
    · exact .inl hold
    · obtain ⟨x, hx, hstarted⟩ := mem_filterMap.mp hnew
      cases x with
      | upload u' =>
        cases hstarted
        exact .inr (Entitled.mono (heffects _ hx) hst prefix_rfl)
      | _ => cases hstarted
  · intro u hu
    rcases mem_append.mp hu with hold | hnew
    · exact .inl hold
    · obtain ⟨x, hx, hcommand⟩ := mem_filterMap.mp hnew
      cases x with
      | _ => cases hcommand
  · exact fun r hr => .inl hr
  · intro r hr
    obtain ⟨x, hx, rfl⟩ := mem_map.mp hr
    exact (heffects x hx).mono hst prefix_rfl

theorem Granted.of_servable
    (h : Servable g a ((session env).after c₀ as).engine e addr index begin_
      length) : Granted env g c₀ (as ++ [a]) e.pm addr index begin_ length :=
  { h with asked := ⟨as, [], by rw [h.request], h.unchoked⟩ }

theorem Sound.engine (hc : c.Ready g) (htorrent : c.engine.torrent = t)
    (h : Sound env t g already c₀ (as ++ [a]) c)
    (hstep : EngineStep g env a ((session env).after c₀ as).engine c.engine e) :
    Sound env t g already c₀ (as ++ [a]) (c.absorb e) := by
  have hcredited : ∀ {i b : ℕ} {e₁ : TorrentEngine},
      Credited g i b c.engine e₁ → ∀ x ∈ e₁.effects, x.Silent := by
    intro i b e₁ hcr
    obtain ⟨new, hext, hsilent⟩ := hcr.silent
    rw [hext.effects, hc.effects]
    exact hsilent
  have hone {x : Effect} (hx : x.Sound env t g already c₀ (as ++ [a]) c c.log) :
      ∀ y ∈ c.engine.effects ++ [x],
        y.Sound env t g already c₀ (as ++ [a]) c c.log := by
    rw [hc.effects]
    exact forall_mem_singleton.mpr hx
  cases hstep with
  | quiet hq =>
    obtain ⟨new, hnew, hsilent⟩ := hq.effects
    refine h.absorb (hq.pm hc.shaped.fits).localBits ?_ ?_
    · rw [hq.uploadCache]
      exact h.cache
    · rw [hnew, hc.effects]
      exact fun x hx => (hsilent x hx).sound
  | received hcr =>
    refine h.absorb hcr.pm.localBits ?_ ?_
    · rw [hcr.uploadCache]
      exact h.cache
    · exact fun x hx => (hcredited hcr x hx).sound
  | verified hcr hall hlen hhash heq =>
    subst heq
    refine h.absorb hcr.pm.localBits ?_ ?_
    · rw [hcr.uploadCache]
      exact h.cache
    · intro x hx
      rcases mem_append.mp hx with hx | hx
      · exact (hcredited hcr x hx).sound
      · rw [mem_singleton.mp hx]
        exact ⟨hlen, htorrent ▸ hhash⟩
  | mismatched hcr hall hext hpm hbuf hcache hdownloaded =>
    refine h.absorb (hpm.localBits.trans hcr.pm.localBits) ?_ ?_
    · rw [hcache, hcr.uploadCache]
      exact h.cache.invalidate _
    · intro x hx
      rw [hext.effects] at hx
      rcases mem_append.mp hx with hx | hx
      · exact (hcredited hcr x hx).sound
      · rw [mem_singleton.mp hx]
        trivial
  | @told addr cmd htrue heq =>
    subst heq
    refine h.absorb rfl h.cache (hone ?_)
    cases cmd with
    | have_ index => exact (h.present _ htrue).1
    | bitfield bytes =>
      intro i hi
      rw [show bytes = _ from htrue,
        Peer.flatMap_bitfieldToBytes, getD_eq_getElem?_getD] at hi
      refine (h.present i ?_).1
      cases hbit : c.engine.pm.localBits[i]? with
      | none => simp [hbit] at hi
      | some bit => simpa [PieceManager.Present, hbit] using hi
    | piece => exact htrue.elim
    | _ => trivial
  | served hserve hhit hend heq =>
    subst heq
    obtain ⟨hkept, hfound⟩ := h.cache.get _
    obtain ⟨hin, hstore⟩ := hfound _ hhit
    exact h.absorb rfl hkept (hone ⟨_, _, .of_servable hserve, hstore, rfl,
      (h.present _ hin).1⟩)
  | queued hserve hsize heq =>
    subst heq
    exact h.absorb rfl (h.cache.get _).1 (hone ⟨.of_servable hserve, hsize⟩)

/-! ## Moves of a session -/

theorem Stable.of_eq (hpm : c'.engine.pm = c.engine.pm)
    (hstore : c'.store = c.store) : Stable c c' := by
  intro i hi
  rw [hpm, hstore]
  exact ⟨hi, rfl⟩

/-- Moves that touch neither the engine nor storage, and at most shorten the
queues. -/
theorem Sound.of_sublists (h : Sound env t g already c₀ as c)
    (hengine : c'.engine = c.engine) (hstore : c'.store = c.store)
    {new : List Record} (hlog : c'.log = c.log ++ new)
    (hcommands : ∀ x ∈ c'.commands, x ∈ c.commands ∨
      ∃ u ∈ c.uploads, x = .read u) (hevents : ∀ x ∈ c'.events, x ∈ c.events)
    (huploads : ∀ x ∈ c'.uploads, x ∈ c.uploads)
    (hreplies : ∀ x ∈ c'.replies, x ∈ c.replies)
    (hnew : ∀ r ∈ new, r.Sound env t g already c₀ as c' c.log) :
    Sound env t g already c₀ as c' := by
  refine h.keep (.of_eq (by rw [hengine]) hstore) hlog ?_ ?_ ?_ ?_ ?_ ?_ ?_ hnew
  · intro i hi
    rw [hengine] at hi
    exact .inl hi
  · intro index data hmem
    rcases hcommands _ hmem with hold | ⟨u, -, hu⟩
    · exact .inl hold
    · cases hu
  · exact fun index hmem => .inl ⟨hevents _ hmem, by rw [hstore]⟩
  · rw [hengine, hstore]
    exact h.cache
  · exact fun u hu => .inl (huploads u hu)
  · intro u hmem
    rcases hcommands _ hmem with hold | ⟨u', hu', hread⟩
    · exact .inl hold
    · cases hread
      exact .inr hu'
  · exact fun r hr => .inl (hreplies r hr)

theorem Sound.performed {data : Bytes}
    {rest : List StorageCommand} {content : Option Bytes}
    {ev : StorageEvent} (h : Sound env t g already c₀ as c)
    (htidy : c.Tidy) (hcommands : c.commands = .write index data :: rest)
    (hev : ∀ index', ev = .written index' →
      index' = index ∧ content = some data) :
    Sound env t g already c₀ as { c with
      commands := rest
      store := update c.store index.toNat content
      events := c.events ++ [ev] } := by
  have hrest {x : StorageCommand} (hx : x ∈ rest) : x ∈ c.commands :=
    hcommands ▸ mem_cons_of_mem _ hx
  have hmem : index.toNat ∈ c.pending := by
    rw [Client.pending, hcommands]
    exact mem_append_left _ mem_cons_self
  have hnot : ¬ c.engine.pm.Present index.toNat :=
    mt (htidy.settled _).mpr (htidy.not_done _ hmem)
  have hother : ∀ index' : UInt32, .written index' ∈ c.events →
      index'.toNat ≠ index.toNat := by
    intro index' hin heq
    have hnodup := htidy.nodup
    rw [Client.pending, hcommands] at hnodup
    have hout := (nodup_cons.mp hnodup).1
    refine hout (mem_append_right _ ?_)
    exact mem_filterMap.mpr ⟨_, hin, congrArg some heq⟩
  have hst : Stable c { c with
      commands := rest
      store := update c.store index.toNat content
      events := c.events ++ [ev] } := by
    intro i hi
    have hne : i ≠ index.toNat := by
      rintro rfl
      exact hnot hi
    exact ⟨hi, update_of_ne hne _ _⟩
  refine h.keep hst (append_nil _).symm ?_ ?_ ?_ ?_ ?_ ?_ ?_ (by simp)
  · exact fun i hi => .inl hi
  · exact fun _ _ hin => .inl (hrest hin)
  · intro index' hin
    rcases mem_append.mp hin with hold | hnew
    · exact .inl ⟨hold, update_of_ne (hother index' hold) _ _⟩
    · obtain ⟨rfl, rfl⟩ := hev index' (mem_singleton.mp hnew).symm
      exact .inr ⟨data, hcommands ▸ mem_cons_self, update_self _ _ _⟩
  · intro entry hentry
    obtain ⟨hin, hstore⟩ := h.cache entry hentry
    exact ⟨hin, (hst _ hin).2.trans hstore⟩
  · exact fun u hu => .inl hu
  · exact fun _ hin => .inl (hrest hin)
  · exact fun r hr => .inl hr

theorem Entitled.take_eq (hu : Entitled env g c₀ as c.engine.pm u)
    (hc : c.Ready g) (h : Sound env t g already c₀ as c)
    (hstore : c.store u.index.toNat = some piece) :
    piece.take u.pieceSize.toNat = piece := by
  obtain ⟨-, data, hdata, hverified⟩ := h.present _ hu.granted.present
  rw [hstore, Option.some.injEq] at hdata
  subst hdata
  have hsize := g.size_le u.index.toNat
  have hle := hc.shaped.fits.pieceLength_le
  have hfit : g.size u.index.toNat < 2 ^ 32 := by omega
  rw [hu.pieceSize, UInt32.toNat_ofNat_of_lt' hfit, ← hverified.length,
    take_length]

/-- Taking an event of storage, after which the engine has at least the pieces
it had. -/
theorem Sound.taken {ev : StorageEvent} {rest : List StorageEvent}
    (h : Sound env t g already c₀ as c) (hevents : c.events = ev :: rest)
    (hcache : e.uploadCache = c.engine.uploadCache)
    (hkept : ∀ i, c.engine.pm.Present i → e.pm.Present i)
    (hpresent : ∀ i, e.pm.Present i → c.engine.pm.Present i ∨
      Warranted env t g already (c.log ++ [.storage ev]) i ∧
        ∃ data, c.store i = some data ∧ Verified env t g i data) :
    Sound env t g already c₀ as { c.take ev rest with engine := e } := by
  refine h.keep (fun i hi => ⟨hkept i hi, rfl⟩) rfl hpresent
    (fun _ _ => .inl) ?_ ?_ (fun _ => .inl) (fun _ => .inl) (fun _ => .inl)
    (forall_mem_singleton.mpr trivial)
  · intro index' hin
    rw [hevents]
    exact .inl ⟨mem_cons_of_mem _ hin, rfl⟩
  · intro entry hentry
    rw [hcache] at hentry
    obtain ⟨hin, hstore⟩ := h.cache entry hentry
    exact ⟨hkept _ hin, hstore⟩

theorem Sound.stored {rest : List StorageEvent} (hc : c.Ready g)
    (h : Sound env t g already c₀ as c)
    (hevents : c.events = .written index :: rest)
    (hstored : Settled g (PieceManager.Completes g index.toNat) c.engine e) :
    Sound env t g already c₀ as
      { c.take (.written index) rest with engine := e } := by
  have hpresent := hstored.pm.present_iff hc.shaped.fits
  refine h.taken hevents hstored.uploadCache
    (fun i hi => (hpresent i).mpr (.inr hi)) fun i hi => ?_
  rcases (hpresent i).mp hi with rfl | hold
  · obtain ⟨data, hstore, hverified, hin⟩ :=
      h.written index (hevents ▸ mem_cons_self)
    obtain ⟨l₁, l₂, hlog⟩ := append_of_mem hin
    refine .inr ⟨.inr ⟨index, data, l₁, l₂, [], rfl, hverified, ?_⟩, data,
      hstore, hverified⟩
    rw [hlog, append_assoc, cons_append]
  · exact .inl hold

theorem Sound.read {rest : List StorageCommand}
    (hc : c.Ready g) (h : Sound env t g already c₀ as c)
    (hcommands : c.commands = .read u :: rest)
    (hstore : c.store u.index.toNat = some piece) :
    Sound env t g already c₀ as { c with
      commands := rest
      replies := c.replies ++ [(u, piece.take u.pieceSize.toNat)] } := by
  have hfirst : .read u ∈ c.commands := hcommands ▸ mem_cons_self
  have hrest {x : StorageCommand} (hx : x ∈ rest) : x ∈ c.commands :=
    hcommands ▸ mem_cons_of_mem _ hx
  refine h.keep (.of_eq rfl rfl) (append_nil _).symm (fun _ => .inl)
    (fun _ _ hin => .inl (hrest hin)) (fun _ hin => .inl ⟨hin, rfl⟩) h.cache
    (fun _ => .inl) (fun _ hin => .inl (hrest hin)) ?_ nofun
  intro r hr
  rcases mem_append.mp hr with hr | hr
  · exact .inl hr
  · rw [mem_singleton.mp hr, (h.reads u hfirst).take_eq hc h hstore]
    exact .inr ⟨hfirst, hstore⟩

theorem Sound.delivered {k : ℕ} (h : Sound env t g already c₀ as c)
    (hreply : c.replies[k]? = some (u, piece)) :
    Sound env t g already c₀ as { c with
      replies := c.replies.eraseIdx k
      engine := { c.engine with
        uploadCache := c.engine.uploadCache.insert u.index piece }
      log := c.log ++ [.effect (.send u.addr (.piece u.index u.begin_
        ((piece.drop u.begin_.toNat).take u.length.toNat)))] } := by
  obtain ⟨hentitled, hstore⟩ :=
    h.replies _ (mem_of_getElem? hreply)
  have hin := hentitled.granted.present
  refine h.keep (.of_eq rfl rfl) rfl (fun _ => .inl) (fun _ _ => .inl)
    (fun _ hin => .inl ⟨hin, rfl⟩) ?_ (fun _ => .inl) (fun _ => .inl)
    (fun r hr => .inl (mem_of_mem_eraseIdx hr)) ?_
  · exact h.cache.insert ⟨hin, hstore⟩
  · exact forall_mem_singleton.mpr ⟨u.length, piece, hentitled.granted, hstore,
      rfl, (h.present _ hin).1⟩

theorem Sound.move (hc : c.Ready g) (htidy : c.Tidy)
    (htorrent : c.engine.torrent = t)
    (h : Sound env t g already c₀ (as ++ [a]) c)
    (hmove : Move g env a ((session env).after c₀ as).engine c c') :
    Sound env t g already c₀ (as ++ [a]) c' := by
  cases hmove with
  | engine hstep heq =>
    subst heq
    exact h.engine hc htorrent hstep
  | announced _ heq =>
    subst heq
    exact h.of_sublists rfl rfl rfl (fun _ => .inl) (fun _ => id)
      (fun _ => id) (fun _ => id) (forall_mem_singleton.mpr trivial)
  | halted heq =>
    subst heq
    exact h.of_sublists rfl rfl (append_nil _).symm (fun _ => .inl)
      (fun _ => id) (fun _ => id) (fun _ => id) nofun
  | stored hevents hstored heq =>
    subst heq
    exact h.stored hc hevents hstored
  | lost hevents hlost heq =>
    subst heq
    refine h.taken hevents hlost.uploadCache ?_ fun i hi => .inl ?_
    · simp only [PieceManager.Present, hlost.pm.localBits]
      exact fun _ => id
    · rwa [PieceManager.Present, hlost.pm.localBits] at hi
  | ignored hevents heq =>
    subst heq
    exact h.taken hevents rfl (fun _ => id) (fun _ => .inl)
  | @submitted k u hu heq =>
    subst heq
    refine h.of_sublists rfl rfl (append_nil _).symm ?_ (fun _ => id)
      ?_ (fun _ => id) nofun
    · intro x hx
      rcases mem_append.mp hx with hx | hx
      · exact .inl hx
      · exact .inr ⟨u, mem_of_getElem? hu, mem_singleton.mp hx⟩
    · exact fun x hx => mem_of_mem_eraseIdx hx
  | wrote hcommands heq =>
    subst heq
    refine h.performed htidy hcommands ?_
    rintro index' ⟨⟩
    exact ⟨rfl, rfl⟩
  | spoiled hcommands heq =>
    subst heq
    refine h.performed htidy hcommands ?_
    rintro index' ⟨⟩
  | read hcommands hstore _ heq =>
    subst heq
    exact h.read hc hcommands hstore
  | unread hcommands heq =>
    subst heq
    refine h.of_sublists rfl rfl (append_nil _).symm ?_ (fun _ => id)
      (fun _ => id) (fun _ => id) nofun
    intro x hx
    rw [hcommands]
    exact .inl (mem_cons_of_mem _ hx)
  | dropped heq =>
    subst heq
    exact h.of_sublists rfl rfl (append_nil _).symm (fun _ => .inl)
      (fun _ => id) (fun _ => id)
      (fun x hx => mem_of_mem_eraseIdx hx) nofun
  | delivered hreply _ heq =>
    subst heq
    exact h.delivered hreply

/-! ## Runs -/

theorem Sound.note (h : Sound env t g already c₀ as c) (a : Action) :
    Sound env t g already c₀ (as ++ [a]) c := by
  have hst : Stable c c := .of_eq rfl rfl
  have has : as <+: as ++ [a] := prefix_append as [a]
  exact { h with
    uploads := fun u hu => (h.uploads u hu).mono hst has
    reads := fun u hu => (h.reads u hu).mono hst has
    replies := fun r hr =>
      ⟨(h.replies r hr).1.mono hst has, (h.replies r hr).2⟩
    log := h.log.mono fun _ _ hr => hr.mono hst has }

theorem Sound.start {cfg : EngineConfig} {store : ℕ → Option Bytes}
    (h : Client.Started g t cfg already store c)
    (hscan : ∀ i ∈ already, ∃ data, store i = some data ∧
      Verified env t g i data) :
    Sound env t g already c₀ [] c where
  present i hi := by
    have hin := (h.present_iff i).mp hi
    rw [h.store_eq]
    exact ⟨.inl hin, hscan i hin⟩
  writes index data hmem := by
    rw [h.commands] at hmem
    cases hmem
  written index hmem := by
    rw [h.events] at hmem
    cases hmem
  cache := by
    rw [h.uploadCache]
    exact nofun
  uploads := by
    rw [h.uploads]
    exact nofun
  reads u hmem := by
    rw [h.commands] at hmem
    cases hmem
  replies := by
    rw [h.replies]
    exact nofun
  log := by
    have hall : ∀ r ∈ c.log, r.Sound env t g already c₀ [] c [] := by
      rcases h.log with hnil | ⟨request, -, hone⟩
      · rw [hnil]
        exact nofun
      · rw [hone]
        exact forall_mem_singleton.mpr trivial
    exact .of_forall hall fun l r hr => hr.append l

theorem sound_after {cfg : EngineConfig} {store : ℕ → Option Bytes}
    (h : Client.Started g t cfg already store c₀)
    (hscan : ∀ i ∈ already, ∃ data, store i = some data ∧
      Verified env t g i data) (hrun : (session env).Allowed c₀ as) :
    Sound env t g already c₀ as ((session env).after c₀ as) := by
  refine (h.ready.history (P := fun as d => d.Tidy ∧
    d.engine.torrent = t ∧ Sound env t g already c₀ as d)
    ⟨h.tidy, h.torrent, .start h hscan⟩ ?_ ?_ hrun).2.2
  · exact fun as a hp => ⟨hp.1, hp.2.1, hp.2.2.note a⟩
  · intro as a d d' hd hp hmove
    exact ⟨hp.1.move hd hmove, (Client.torrent_of_move hmove).trans hp.2.1,
      hp.2.2.move hd hp.1 hp.2.1 hmove⟩

end Carry

/-! ## What peers are told and sent -/

/-- The pieces that a `Have` or a `Bitfield` names. -/
def PeerCommand.Names (i : ℕ) : PeerCommand → Prop
  | .have_ index => index.toNat = i
  | .bitfield bytes => (bytes.flatMap Peer.bitsMsb0).getD i false = true
  | _ => False

/-- The session after the actions `as`: every piece in the local bitfield is
warranted, only such pieces were named to peers, and every block that was sent
is cut out of such a piece, as storage holds it, in answer to a request that
was handled while the peer was not choked. -/
structure Honest (env : Env) (t : TorrentFile) (g : Geometry)
    (already : List ℕ) (c₀ : Client) (as : List Action) (c : Client) :
    Prop where
  present : ∀ i, c.engine.pm.Present i → Warranted env t g already c.log i
  named : ∀ l₁ addr cmd l₂, c.log = l₁ ++ .effect (.send addr cmd) :: l₂ →
    ∀ i, cmd.Names i → Warranted env t g already l₁ i
  served : ∀ l₁ addr index begin_ data l₂,
    c.log = l₁ ++ .effect (.send addr (.piece index begin_ data)) :: l₂ →
      ∃ (length : UInt32) (piece : Bytes),
        Asked env c₀ as addr index begin_ length ∧
        1 ≤ length.toNat ∧ length.toNat ≤ 16384 ∧
        begin_.toNat + length.toNat ≤ g.size index.toNat ∧
        c.store index.toNat = some piece ∧
        Verified env t g index.toNat piece ∧
        data = (piece.drop begin_.toNat).take length.toNat ∧
        Warranted env t g already l₁ index.toNat

theorem Sound.honest {env : Env} {t : TorrentFile} {g : Geometry}
    {already : List ℕ} {c₀ c : Client} {as : List Action}
    (h : Sound env t g already c₀ as c) :
    Honest env t g already c₀ as c where
  present i hi := (h.present i hi).1
  named l₁ addr cmd l₂ hlog i hi := by
    have hsound := h.log l₁ _ l₂ hlog
    cases cmd with
    | have_ index =>
      cases hi
      exact hsound
    | bitfield bytes => exact hsound i hi
    | _ => exact hi.elim
  served l₁ addr index begin_ data l₂ hlog := by
    obtain ⟨length, piece, hgranted, hstore, hdata, hwarranted⟩ :=
      h.log l₁ _ l₂ hlog
    obtain ⟨-, stored, hstored, hverified⟩ := h.present _ hgranted.present
    cases hstore.symm.trans hstored
    exact ⟨length, piece, hgranted.asked, hgranted.length_pos,
      hgranted.length_le, hgranted.range, hstore, hverified, hdata,
      hwarranted⟩

/-- In every state that a session reaches, nothing unverified has been
advertised or served. -/
theorem honest_after {env : Env} {t : TorrentFile} {peerId : Peer.PeerId}
    {cfg : EngineConfig} {wanted : Option (List Bool)} {already : List ℕ}
    {store : ℕ → Option Bytes} {seedPeers found : List SocketAddr}
    {c₀ : Client} (ht : t.info.Accepted)
    (hstart : Client.start env t peerId cfg wanted already store seedPeers
      found = .ok c₀)
    (hscan : ∀ i ∈ already, ∃ data, store i = some data ∧
      Verified env t ht.geometry i data)
    {as : List Action} (hrun : (session env).Allowed c₀ as) :
    Honest env t ht.geometry already c₀ as ((session env).after c₀ as) :=
  (sound_after (Client.started_of_start ht hstart) hscan hrun).honest

/-- A peer connects, is unchoked, asks for the first piece and gets it. -/
def servingRun : List Action :=
  [.inbound Client.exampleAddr,
    .peer (.connected Client.exampleAddr
      (Peer.Handshake.extensionBytesFrom true true)),
    .peer (.interested Client.exampleAddr),
    .peer (.request Client.exampleAddr 0 0 4),
    .submit 0, .perform none, .deliver 0]

theorem honest_after_serving :
    ∃ c₀, Client.start openEnv exampleTorrent zeroDigest openConfig
        (some [true, false]) [0] (fun _ => some [1, 2, 3, 4]) [] [] = .ok c₀ ∧
      PeerCommand.piece 0 0 [1, 2, 3, 4] ∈
        Client.sentSince [] Client.exampleAddr
          ((session openEnv).after c₀ servingRun) ∧
      Honest openEnv exampleTorrent exampleTorrent_accepted.geometry [0] c₀
        servingRun ((session openEnv).after c₀ servingRun) := by
  obtain ⟨c₀, hstart, hrun, hsent⟩ :
      ∃ c₀, Client.start openEnv exampleTorrent zeroDigest openConfig
          (some [true, false]) [0] (fun _ => some [1, 2, 3, 4]) [] [] = .ok c₀ ∧
        (session openEnv).Allowed c₀ servingRun ∧
        PeerCommand.piece 0 0 [1, 2, 3, 4] ∈
          Client.sentSince [] Client.exampleAddr
            ((session openEnv).after c₀ servingRun) := by
    refine ⟨_, rfl, ?_, by decide +kernel⟩
    exact ⟨fun _ => rfl, fun _ => rfl, fun _ => rfl, fun _ => rfl, nofun,
      nofun, nofun, trivial⟩
  refine ⟨c₀, hstart, hsent, honest_after exampleTorrent_accepted hstart ?_
    hrun⟩
  exact forall_mem_singleton.mpr ⟨[1, 2, 3, 4], rfl, rfl, rfl⟩

end Engine

end RustyTorrent
