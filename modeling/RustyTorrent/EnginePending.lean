import RustyTorrent.EngineStart

/-!
# Pieces on their way to storage

A verified piece is written by the storage task, which then reports the
outcome.  From the write command to the event, all blocks of the piece are
received and it is not complete, so no second write of it can start; and
outside of that a piece is complete exactly if it is present (`Tidy`).
-/

namespace RustyTorrent

open Metainfo Piece Scheduler List

/-! ## Tables with one row changed -/

namespace Piece.PieceManager

variable {pm pm' : PieceManager} {g : Geometry} {i b j : ℕ}

theorem AllReceived.congr (h : pm.AllReceived j)
    (hrow : pm'.received[j]? = pm.received[j]?) : pm'.AllReceived j := by
  rw [AllReceived, hrow]
  exact h

theorem Adds.ne_of_allReceived (h : Adds g i b pm pm')
    (hj : pm.AllReceived j) : j ≠ i := by
  rintro rfl
  obtain ⟨row, hrow, hbit, -⟩ := h.received
  obtain ⟨row', hrow', hall⟩ := hj
  cases hrow.symm.trans hrow'
  have hmem : false ∈ row := mem_of_getElem? hbit
  have := all_eq_true.mp hall false hmem
  simp at this

theorem Adds.allReceived (h : Adds g i b pm pm') (hj : pm.AllReceived j) :
    pm'.AllReceived j := by
  have hne := h.ne_of_allReceived hj
  obtain ⟨row, -, -, hset⟩ := h.received
  exact hj.congr (by rw [hset, getElem?_set_ne hne.symm])

theorem Resets.allReceived (h : Resets g i pm pm') (hne : j ≠ i)
    (hj : pm.AllReceived j) : pm'.AllReceived j :=
  hj.congr (by rw [h.received, getElem?_set_ne hne.symm])

theorem Settled.congr (h : pm.Settled) (hdone : ∀ i, pm'.Done i ↔ pm.Done i)
    (hlocal : pm'.localBits = pm.localBits) : pm'.Settled := by
  intro i
  rw [hdone, h i, Present, Present, hlocal]

theorem Settled.resets (h : pm.Settled) (hr : Resets g i pm pm')
    (hnot : ¬ pm.Done i) : pm'.Settled := by
  refine h.congr ?_ hr.localBits
  intro j
  rw [hr.done_iff, and_iff_right_of_imp]
  rintro hj rfl
  exact hnot hj

theorem Settled.completes (h : pm.Settled) (hfits : pm.Fits g)
    (hc : Completes g i pm pm') : pm'.Settled := by
  intro j
  rw [hc.done_iff, hc.present_iff hfits, h j]

end Piece.PieceManager

namespace Engine

/-- The piece a command writes. -/
def StorageCommand.target : StorageCommand → Option ℕ
  | .write index _ => some index.toNat
  | .read _ => none

/-- The piece an event reports on. -/
def StorageEvent.target : StorageEvent → Option ℕ
  | .written index => some index.toNat
  | .error index => index.map UInt32.toNat

theorem Effect.Silent.command {x : Effect} (h : x.Silent) :
    x.command = none := by
  cases x with
  | send => rfl
  | write | upload | mismatch => exact h.elim

theorem filterMap_command_of_silent {new : List Effect}
    (h : ∀ x ∈ new, x.Silent) : new.filterMap Effect.command = [] := by
  rw [filterMap_eq_nil_iff]
  exact fun x hx => (h x hx).command

namespace Client

/-- The pieces whose write was sent and whose event is still to be taken. -/
def pending (c : Client) : List ℕ :=
  c.commands.filterMap StorageCommand.target ++
    c.events.filterMap StorageEvent.target

/-- A piece is complete exactly if it is present, and the pending pieces are
distinct, fully received and not complete. -/
structure Tidy (c : Client) : Prop where
  settled : c.engine.pm.Settled
  nodup : c.pending.Nodup
  allReceived : ∀ i ∈ c.pending, c.engine.pm.AllReceived i
  not_done : ∀ i ∈ c.pending, ¬ c.engine.pm.Done i

section

variable {g : Geometry} {env : Env} {a : Action} {start : TorrentEngine}
  {c c' : Client} {e : TorrentEngine}

theorem Tidy.keep (h : c.Tidy) (hsettled : c'.engine.pm.Settled)
    (hpending : c'.pending.Subperm c.pending)
    (hall : ∀ i ∈ c'.pending, c.engine.pm.AllReceived i →
      c'.engine.pm.AllReceived i)
    (hdone : ∀ i ∈ c'.pending, c'.engine.pm.Done i → c.engine.pm.Done i)
    : c'.Tidy where
  settled := hsettled
  nodup := by
    obtain ⟨l, hperm, hsub⟩ := hpending
    exact hperm.nodup_iff.mp (h.nodup.sublist hsub)
  allReceived i hi := hall i hi (h.allReceived i (hpending.subset hi))
  not_done i hi hd := h.not_done i (hpending.subset hi) (hdone i hi hd)

theorem Tidy.keep_pm (h : c.Tidy) (hpm : c'.engine.pm = c.engine.pm)
    (hpending : c'.pending.Perm c.pending) : c'.Tidy := by
  refine h.keep ?_ hpending.subperm ?_ ?_
  · rw [hpm]
    exact h.settled
  · intro i _
    rw [hpm]
    exact id
  · intro i _
    rw [hpm]
    exact id

theorem pending_absorb (c : Client) (e : TorrentEngine) :
    (c.absorb e).pending = c.commands.filterMap StorageCommand.target ++
      ((e.effects.filterMap Effect.command).filterMap
        StorageCommand.target ++ c.events.filterMap StorageEvent.target) := by
  simp [pending, absorb]

theorem pending_absorb_of_none (h : e.effects.filterMap Effect.command = []) :
    (c.absorb e).pending = c.pending := by
  rw [pending_absorb, h, filterMap_nil, nil_append, pending]

theorem Tidy.credited {i b : ℕ} (h : c.Tidy) (hc : Credited g i b c.engine e)
    (hnone : e.effects.filterMap Effect.command = []) : (c.absorb e).Tidy := by
  refine h.keep ?_ ?_ ?_ ?_
  · exact h.settled.congr hc.pm.done_iff hc.pm.localBits
  · rw [pending_absorb_of_none hnone]
  · exact fun j _ hj => hc.pm.allReceived hj
  · exact fun j _ hj => (hc.pm.done_iff j).mp hj

theorem Credited.effects_command {i b : ℕ}
    (hc : Credited g i b c.engine e) (heffects : c.engine.effects = []) :
    e.effects.filterMap Effect.command = [] := by
  obtain ⟨new, hext, hsilent⟩ := hc.silent
  rw [hext.effects, heffects, nil_append, filterMap_command_of_silent hsilent]

theorem Tidy.engine (h : c.Tidy) (hc : c.Ready g)
    (hstep : EngineStep g env a start c.engine e) : (c.absorb e).Tidy := by
  cases hstep with
  | quiet hq =>
    have hpm := hq.pm hc.shaped.fits
    obtain ⟨new, hnew, hsilent⟩ := hq.effects
    rw [hc.effects, nil_append] at hnew
    refine h.keep ?_ ?_ ?_ ?_
    · exact h.settled.congr hpm.done_iff hpm.localBits
    · rw [pending_absorb_of_none (by
        rw [hnew, filterMap_command_of_silent hsilent])]
    · exact fun j _ hj => hj.congr (by rw [absorb, hpm.received])
    · exact fun j _ hj => (hpm.done_iff j).mp hj
  | received hcr =>
    exact h.credited hcr (Credited.effects_command hcr hc.effects)
  | @verified index b e₁ data hcr hall hlen hhash heq =>
    subst heq
    have hnone := Credited.effects_command hcr hc.effects
    have hperm : (c.absorb { e₁ with
        effects := e₁.effects ++ [.write index data]
        asked := e₁.asked + 1 }).pending.Perm (index.toNat :: c.pending) := by
      rw [pending_absorb, filterMap_append, hnone]
      exact perm_middle
    have hnot : ¬ e₁.pm.Done index.toNat :=
      mt (hcr.pm.done_iff _).mp hcr.pm.not_done
    have hmem : index.toNat ∉ c.pending := fun hi =>
      hcr.pm.ne_of_allReceived (h.allReceived _ hi) rfl
    refine { settled := ?_, nodup := ?_, allReceived := ?_,
             not_done := ?_ }
    · exact h.settled.congr hcr.pm.done_iff hcr.pm.localBits
    · exact hperm.nodup_iff.mpr (nodup_cons.mpr ⟨hmem, h.nodup⟩)
    · intro j hj
      rcases mem_cons.mp (hperm.mem_iff.mp hj) with rfl | hj
      · exact hall
      · exact hcr.pm.allReceived (h.allReceived j hj)
    · intro j hj
      rcases mem_cons.mp (hperm.mem_iff.mp hj) with rfl | hj
      · exact hnot
      · exact mt (hcr.pm.done_iff j).mp (h.not_done j hj)
  | @mismatched index b e₁ hcr hall hext hpm hbuf hcache hdownloaded =>
    have hnone : e.effects.filterMap Effect.command = [] := by
      rw [hext.effects, filterMap_append,
        Credited.effects_command hcr hc.effects]
      rfl
    have hnot : ¬ e₁.pm.Done index.toNat :=
      mt (hcr.pm.done_iff _).mp hcr.pm.not_done
    have hne : ∀ j ∈ (c.absorb e).pending, j ≠ index.toNat := by
      intro j hj
      rw [pending_absorb_of_none hnone] at hj
      exact hcr.pm.ne_of_allReceived (h.allReceived j hj)
    refine h.keep ?_ ?_ ?_ ?_
    · exact (h.settled.congr hcr.pm.done_iff hcr.pm.localBits).resets hpm hnot
    · rw [pending_absorb_of_none hnone]
    · exact fun j hj hrec =>
        hpm.allReceived (hne j hj) (hcr.pm.allReceived hrec)
    · exact fun j _ hd => (hcr.pm.done_iff j).mp ((hpm.done_iff j).mp hd).2
  | told | served | queued =>
    subst_vars
    refine h.keep_pm rfl ?_
    rw [pending_absorb_of_none (by simp [hc.effects, Effect.command])]

theorem pending_performed {index : UInt32} {data : Bytes}
    {rest : List StorageCommand} {ev : StorageEvent}
    {events : List StorageEvent}
    (hcommands : c.commands = .write index data :: rest)
    (hev : ev.target = some index.toNat) (hevents : c.events = events) :
    (rest.filterMap StorageCommand.target ++
      (events ++ [ev]).filterMap StorageEvent.target).Perm c.pending := by
  rw [pending, hcommands, hevents]
  simp only [filterMap_append, filterMap_cons,
    StorageCommand.target, hev, filterMap_nil, ← append_assoc]
  exact perm_append_comm

theorem Tidy.event {ev : StorageEvent} {rest : List StorageEvent} {i : ℕ}
    (h : c.Tidy) (hevents : c.events = ev :: rest) (hev : ev.target = some i) :
    i ∈ c.pending ∧ i ∉ (c.take ev rest).pending ∧
      (c.take ev rest).pending <+~ c.pending := by
  have hpending : c.pending = c.commands.filterMap StorageCommand.target ++
        i :: rest.filterMap StorageEvent.target := by
    rw [pending, hevents, filterMap_cons, hev]
  refine ⟨?_, (nodup_middle.mp (hpending ▸ h.nodup)).notMem, ?_⟩
  · rw [hpending]
    exact mem_append_right _ mem_cons_self
  · rw [hpending]
    exact (sublist_cons_self _ _).append_left _ |>.subperm

theorem Tidy.move (h : c.Tidy) (hc : c.Ready g)
    (hmove : Move g env a start c c') : c'.Tidy := by
  cases hmove with
  | engine hstep heq =>
    subst heq
    exact h.engine hc hstep
  | stored hevents hst heq =>
    subst heq
    obtain ⟨-, hne, hsub⟩ := h.event hevents rfl
    refine h.keep (h.settled.completes hc.shaped.fits hst.pm) hsub ?_ ?_
    · exact fun j _ hj => hj.congr (by rw [hst.pm.received])
    · intro j hj hd
      rcases (hst.pm.done_iff j).mp hd with rfl | hd
      · exact absurd hj hne
      · exact hd
  | lost hevents hl heq =>
    subst heq
    obtain ⟨hmem, hne, hsub⟩ := h.event hevents rfl
    refine h.keep (h.settled.resets hl.pm (h.not_done _ hmem)) hsub ?_ ?_
    · intro j hj hrec
      refine hl.pm.allReceived ?_ hrec
      rintro rfl
      exact hne hj
    · exact fun j _ hd => ((hl.pm.done_iff j).mp hd).2
  | @ignored rest hevents heq =>
    subst heq
    refine h.keep_pm rfl ?_
    rw [pending, pending, hevents]
    rfl
  | submitted hu heq =>
    subst heq
    refine h.keep_pm rfl (.of_eq ?_)
    simp [pending, filterMap_cons, StorageCommand.target]
  | wrote hcommands heq | spoiled hcommands heq =>
    subst heq
    refine h.keep_pm rfl ?_
    exact pending_performed hcommands rfl rfl
  | read hcommands _ _ heq | unread hcommands heq =>
    subst heq
    refine h.keep_pm rfl (.of_eq ?_)
    simp [pending, hcommands, filterMap_cons, StorageCommand.target]
  | announced | halted | dropped | delivered =>
    subst_vars
    exact h.keep_pm rfl .rfl

theorem Started.tidy {t : TorrentFile} {cfg : EngineConfig}
    {already : List ℕ} {store : ℕ → Option Bytes}
    (h : Started g t cfg already store c) : c.Tidy := by
  have hpending : c.pending = [] := by
    rw [pending, h.commands, h.events]
    rfl
  refine { settled := h.settled, nodup := ?_, allReceived := ?_,
           not_done := ?_ }
  · rw [hpending]
    exact nodup_nil
  · rw [hpending]
    exact nofun
  · rw [hpending]
    exact nofun

end

end Client

end Engine

end RustyTorrent
