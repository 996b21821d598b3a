import RustyTorrent.EnginePending
import RustyTorrent.Piece.Tiling

/-!
# The download counter

`announce_request` computes what is left from a counter of the bytes that
were accepted, which is not reduced when a piece is thrown away and does not
know of the pieces the resume scan found.  Over every run, what was counted
and what was resumed is what is present, what is received of other pieces and
what was thrown away (`Balanced`).  So the announced value is right exactly if
the errors cancel, or if they are hidden because everything is present.
-/

namespace RustyTorrent

open Metainfo Piece Scheduler List PieceManager

/-! ## Bytes of a piece manager -/

namespace Piece.PieceManager

/-- The bytes that are received of piece `i`. -/
def receivedBytes (g : Geometry) (pm : PieceManager) (i : ℕ) : ℕ :=
  ∑ b ∈ Finset.range (g.blocks i),
    if pm.got i b then g.blockLength i b else 0

/-- The bytes of the pieces that are present. -/
def presentBytes (g : Geometry) (pm : PieceManager) : ℕ :=
  ∑ i ∈ Finset.range g.numPieces, if pm.Present i then g.size i else 0

/-- The bytes of the pieces that are not present. -/
def missingBytes (g : Geometry) (pm : PieceManager) : ℕ :=
  ∑ i ∈ Finset.range g.numPieces, if pm.Present i then 0 else g.size i

/-- The bytes that are received of pieces that are not present. -/
def unsettledBytes (g : Geometry) (pm : PieceManager) : ℕ :=
  ∑ i ∈ Finset.range g.numPieces,
    if pm.Present i then 0 else pm.receivedBytes g i

/-- The bytes that were accepted of piece `i`, if no one threw any away. -/
def stake (g : Geometry) (pm : PieceManager) (i : ℕ) : ℕ :=
  if pm.Present i then g.size i else pm.receivedBytes g i

variable {pm pm' : PieceManager} {g : Geometry} {i b : ℕ}

theorem sum_stake : ∑ i ∈ Finset.range g.numPieces, pm.stake g i =
    pm.presentBytes g + pm.unsettledBytes g := by
  rw [presentBytes, unsettledBytes, ← Finset.sum_add_distrib]
  refine Finset.sum_congr rfl fun i _ => ?_
  rw [stake]
  split <;> simp

theorem present_add_missing :
    pm.presentBytes g + pm.missingBytes g = g.totalLength := by
  rw [presentBytes, missingBytes, ← Finset.sum_add_distrib, ← g.sum_size]
  refine Finset.sum_congr rfl fun i _ => ?_
  split <;> simp

theorem missingBytes_eq_zero_iff :
    pm.missingBytes g = 0 ↔ ∀ i < g.numPieces, pm.Present i := by
  rw [missingBytes, Finset.sum_eq_zero_iff]
  constructor
  · intro h i hi
    by_contra hmissing
    have hzero := h i (Finset.mem_range.mpr hi)
    rw [if_neg hmissing] at hzero
    exact Nat.ne_of_gt (g.size_pos i) hzero
  · intro h i hi
    rw [if_pos (h i (Finset.mem_range.mp hi))]

theorem sum_change (f f' : ℕ → ℕ) {n : ℕ} (hi : i < n)
    (h : ∀ j, j ≠ i → f' j = f j) :
    ∑ j ∈ Finset.range n, f' j + f i = ∑ j ∈ Finset.range n, f j + f' i := by
  have hmem : i ∈ Finset.range n := Finset.mem_range.mpr hi
  have hrest : ∑ j ∈ (Finset.range n).erase i, f' j =
      ∑ j ∈ (Finset.range n).erase i, f j :=
    Finset.sum_congr rfl fun j hj => h j (Finset.ne_of_mem_erase hj)
  rw [← Finset.add_sum_erase _ f hmem, ← Finset.add_sum_erase _ f' hmem, hrest]
  omega

theorem got_of_row {row : List Bool} (h : pm.received[i]? = some row)
    (b : ℕ) : pm.got i b = row[b]?.getD false := by
  rw [got, h, Option.getD_some]

theorem stake_congr {j : ℕ} (hlocal : pm'.localBits[j]? = pm.localBits[j]?)
    (hreceived : pm'.received[j]? = pm.received[j]?) :
    pm'.stake g j = pm.stake g j := by
  have hpresent : pm'.Present j ↔ pm.Present j := by
    rw [Present, Present, hlocal]
  have hgot : ∀ b, pm'.got j b = pm.got j b := by
    intro b
    rw [got, got, hreceived]
  have hbytes : pm'.receivedBytes g j = pm.receivedBytes g j :=
    Finset.sum_congr rfl fun b _ => by rw [hgot b]
  simp only [stake, hpresent, hbytes]

theorem receivedBytes_of_allReceived (hfits : pm.Fits g) (hi : i < g.numPieces)
    (h : pm.AllReceived i) : pm.receivedBytes g i = g.size i := by
  obtain ⟨row, hrow, hall⟩ := h
  obtain ⟨row', hrow', hlen⟩ := hfits.received_row hi
  cases hrow.symm.trans hrow'
  rw [receivedBytes, ← g.sum_blockLength i]
  refine Finset.sum_congr rfl fun b hb => ?_
  have hb' : b < row.length := by
    rw [hlen]
    exact Finset.mem_range.mp hb
  have hgot : pm.got i b = true := by
    rw [got_of_row hrow, getElem?_eq_getElem hb', Option.getD_some]
    exact all_eq_true.mp hall _ (getElem_mem hb')
  rw [if_pos hgot]

theorem Adds.receivedBytes (h : Adds g i b pm pm') :
    pm'.receivedBytes g i = pm.receivedBytes g i + g.blockLength i b := by
  obtain ⟨row, hrow, hbit, hset⟩ := h.received
  have hi : i < pm.received.length := (List.getElem?_eq_some_iff.mp hrow).1
  have hb : b < row.length := (List.getElem?_eq_some_iff.mp hbit).1
  have hrow' : pm'.received[i]? = some (row.set b true) := by
    rw [hset, List.getElem?_set_self hi]
  have hold : pm.got i b = false := by
    rw [got_of_row hrow, hbit, Option.getD_some]
  have hnew : pm'.got i b = true := by
    rw [got_of_row hrow', List.getElem?_set_self hb, Option.getD_some]
  have hchange := sum_change
    (fun k => if pm.got i k then g.blockLength i k else 0)
    (fun k => if pm'.got i k then g.blockLength i k else 0) h.block_lt ?_
  · simp only [hold, hnew, if_true, Bool.false_eq_true, if_false,
      Nat.add_zero] at hchange
    exact hchange
  · intro k hk
    simp only [got_of_row hrow, got_of_row hrow',
      List.getElem?_set_ne (Ne.symm hk)]

theorem Resets.receivedBytes (h : Resets g i pm pm') (hfits : pm.Fits g) :
    pm'.receivedBytes g i = 0 := by
  have hi : i < pm.received.length := by
    rw [hfits.received_length]
    exact h.index_lt
  have hrow : pm'.received[i]? = some (replicate (g.blocks i) false) := by
    rw [h.received, getElem?_set_self hi]
  refine Finset.sum_eq_zero fun k _ => ?_
  have hgot : pm'.got i k = false := by
    rw [got_of_row hrow, getElem?_replicate]
    split <;> rfl
  rw [hgot]
  rfl

/-! ## How the stakes change -/

theorem sum_stake_congr (hlocal : pm'.localBits = pm.localBits)
    (hreceived : pm'.received = pm.received) :
    ∑ j ∈ Finset.range g.numPieces, pm'.stake g j =
      ∑ j ∈ Finset.range g.numPieces, pm.stake g j :=
  Finset.sum_congr rfl fun j _ =>
    stake_congr (by rw [hlocal]) (by rw [hreceived])

theorem Adds.sum_stake (h : Adds g i b pm pm') (hnot : ¬ pm.Present i) :
    ∑ j ∈ Finset.range g.numPieces, pm'.stake g j =
      ∑ j ∈ Finset.range g.numPieces, pm.stake g j + g.blockLength i b := by
  have hnot' : ¬ pm'.Present i := by
    rwa [Present, h.localBits]
  have hchange := sum_change (pm.stake g) (pm'.stake g) h.index_lt ?_
  · simp only [stake, if_neg hnot, if_neg hnot', h.receivedBytes] at hchange
    simp only [stake]
    omega
  · intro j hj
    obtain ⟨row, -, -, hset⟩ := h.received
    refine stake_congr (by rw [h.localBits]) ?_
    rw [hset, getElem?_set_ne (Ne.symm hj)]

theorem Resets.sum_stake (h : Resets g i pm pm') (hfits : pm.Fits g)
    (hnot : ¬ pm.Present i) (hall : pm.AllReceived i) :
    ∑ j ∈ Finset.range g.numPieces, pm'.stake g j + g.size i =
      ∑ j ∈ Finset.range g.numPieces, pm.stake g j := by
  have hnot' : ¬ pm'.Present i := by
    rwa [Present, h.localBits]
  have hchange := sum_change (pm.stake g) (pm'.stake g) h.index_lt ?_
  · have hold : pm.stake g i = g.size i := by
      rw [stake, if_neg hnot,
        receivedBytes_of_allReceived hfits h.index_lt hall]
    have hnew : pm'.stake g i = 0 := by
      rw [stake, if_neg hnot', h.receivedBytes hfits]
    rw [hold, hnew] at hchange
    exact hchange
  · intro j hj
    refine stake_congr (by rw [h.localBits]) ?_
    rw [h.received, getElem?_set_ne (Ne.symm hj)]

theorem Completes.sum_stake (h : Completes g i pm pm') (hfits : pm.Fits g)
    (hnot : ¬ pm.Present i) (hall : pm.AllReceived i) :
    ∑ j ∈ Finset.range g.numPieces, pm'.stake g j =
      ∑ j ∈ Finset.range g.numPieces, pm.stake g j := by
  refine Finset.sum_congr rfl fun j _ => ?_
  by_cases hj : j = i
  · subst hj
    have hpresent : pm'.Present j := (h.present_iff hfits j).mpr (.inl rfl)
    rw [stake, stake, if_pos hpresent, if_neg hnot,
      receivedBytes_of_allReceived hfits h.index_lt hall]
  · refine stake_congr ?_ (by rw [h.received])
    rw [h.localBits, getElem?_set_ne (Ne.symm hj)]

end Piece.PieceManager

namespace Engine

/-- The bytes that a record shows were thrown away. -/
def Record.discarded (g : Geometry) : Record → ℕ
  | .effect (.mismatch index) => g.size index.toNat
  | .storage (.error (some index)) => g.size index.toNat
  | _ => 0

theorem Effect.Silent.discarded {g : Geometry} {x : Effect}
    (h : x.Silent) : (Record.effect x).discarded g = 0 := by
  cases x with
  | send | write | upload => rfl
  | mismatch => exact h.elim

theorem sum_discarded_of_silent {g : Geometry} {new : List Effect}
    (h : ∀ x ∈ new, x.Silent) :
    ((new.map Record.effect).map (Record.discarded g)).sum = 0 := by
  rw [map_map, sum_eq_zero_iff]
  intro n hn
  obtain ⟨x, hx, rfl⟩ := mem_map.mp hn
  exact (h x hx).discarded

namespace Client

/-- The bytes of the pieces that were thrown away. -/
def discardedBytes (g : Geometry) (c : Client) : ℕ :=
  (c.log.map (Record.discarded g)).sum

/-- What was counted, though perhaps not by the counter that saturates, and
what was resumed is what is held and what was thrown away. -/
def Balanced (g : Geometry) (resumed : ℕ) (c : Client) : Prop :=
  ∃ counted, c.engine.downloaded = min counted (2 ^ 64 - 1) ∧
    counted + resumed =
      ∑ i ∈ Finset.range g.numPieces, c.engine.pm.stake g i +
        c.discardedBytes g

variable {g : Geometry} {env : Env} {a : Action} {start : TorrentEngine}
  {c c' : Client} {e : TorrentEngine} {resumed : ℕ}

theorem Balanced.keep (h : c.Balanced g resumed) (n : ℕ)
    (hdownloaded : c'.engine.downloaded = c.engine.downloaded)
    (hstake : ∑ i ∈ Finset.range g.numPieces, c'.engine.pm.stake g i + n =
      ∑ i ∈ Finset.range g.numPieces, c.engine.pm.stake g i)
    (hdiscarded : c'.discardedBytes g = c.discardedBytes g + n) :
    c'.Balanced g resumed := by
  obtain ⟨counted, hcounter, hsum⟩ := h
  exact ⟨counted, hdownloaded.trans hcounter, by omega⟩

theorem Balanced.add (h : c.Balanced g resumed) (n m : ℕ)
    (hdownloaded : c'.engine.downloaded =
      saturatingAdd 64 c.engine.downloaded m)
    (hstake : ∑ i ∈ Finset.range g.numPieces, c'.engine.pm.stake g i + n =
      ∑ i ∈ Finset.range g.numPieces, c.engine.pm.stake g i + m)
    (hdiscarded : c'.discardedBytes g = c.discardedBytes g + n) :
    c'.Balanced g resumed := by
  obtain ⟨counted, hcounter, hsum⟩ := h
  refine ⟨counted + m, ?_, by omega⟩
  rw [hdownloaded, hcounter, saturatingAdd]
  omega

theorem discardedBytes_absorb (c : Client) (e : TorrentEngine) :
    (c.absorb e).discardedBytes g = c.discardedBytes g +
      ((e.effects.map Record.effect).map (Record.discarded g)).sum := by
  rw [discardedBytes, absorb, map_append, sum_append, discardedBytes]

theorem Balanced.same (h : c.Balanced g resumed)
    (hdownloaded : c'.engine.downloaded = c.engine.downloaded)
    (hpm : c'.engine.pm = c.engine.pm)
    (hdiscarded : c'.discardedBytes g = c.discardedBytes g + 0) :
    c'.Balanced g resumed :=
  h.keep 0 hdownloaded (by rw [hpm, Nat.add_zero]) hdiscarded

theorem Balanced.engine (h : c.Balanced g resumed) (htidy : c.Tidy)
    (hc : c.Ready g) (hstep : EngineStep g env a start c.engine e) :
    (c.absorb e).Balanced g resumed := by
  -- The effects before a step were taken away.
  have hsilent : ∀ {i b : ℕ} {e₁ : TorrentEngine}, Credited g i b c.engine e₁ →
        ((e₁.effects.map Record.effect).map (Record.discarded g)).sum = 0 := by
    intro i b e₁ hcr
    obtain ⟨new, hext, hnew⟩ := hcr.silent
    rw [hext.effects, hc.effects, nil_append, sum_discarded_of_silent hnew]
  have hnot : ∀ {i b : ℕ} {e₁ : TorrentEngine},
      Credited g i b c.engine e₁ → ¬ c.engine.pm.Present i :=
    fun hcr => mt (htidy.settled _).mpr hcr.pm.not_done
  cases hstep with
  | quiet hq =>
    have hpm := hq.pm hc.shaped.fits
    obtain ⟨new, hnew, hnone⟩ := hq.effects
    rw [hc.effects, nil_append] at hnew
    refine h.keep 0 hq.downloaded ?_ ?_
    · exact sum_stake_congr hpm.localBits hpm.received
    · rw [discardedBytes_absorb, hnew, sum_discarded_of_silent hnone]
  | received hcr =>
    refine h.add 0 _ hcr.downloaded ?_ ?_
    · exact hcr.pm.sum_stake (hnot hcr)
    · rw [discardedBytes_absorb, hsilent hcr]
  | @verified index b e₁ data hcr hall hlen hhash heq =>
    subst heq
    refine h.add 0 _ hcr.downloaded ?_ ?_
    · exact hcr.pm.sum_stake (hnot hcr)
    · rw [discardedBytes_absorb, map_append, map_append,
        sum_append, hsilent hcr]
      rfl
  | @mismatched index b e₁ hcr hall hext hpm hbuf hcache hdownloaded =>
    have hnot₁ : ¬ e₁.pm.Present index.toNat := by
      rw [PieceManager.Present, hcr.pm.localBits]
      exact hnot hcr
    have hadds := hcr.pm.sum_stake (hnot hcr)
    have hresets := hpm.sum_stake hcr.pm.fits hnot₁ hall
    refine h.add (g.size index.toNat) _ (hdownloaded.trans hcr.downloaded) ?_ ?_
    · exact hresets.trans hadds
    · rw [discardedBytes_absorb, hext.effects, map_append,
        map_append, sum_append, hsilent hcr]
      simp [Record.discarded]
  | told | served | queued =>
    subst_vars
    refine h.same rfl rfl ?_
    rw [discardedBytes_absorb, hc.effects]
    rfl

theorem Tidy.of_event {ev : StorageEvent} {rest : List StorageEvent} {i : ℕ}
    (h : c.Tidy) (hevents : c.events = ev :: rest) (hev : ev.target = some i) :
    ¬ c.engine.pm.Present i ∧ c.engine.pm.AllReceived i := by
  have hmem := (h.event hevents hev).1
  exact ⟨mt (h.settled i).mpr (h.not_done i hmem), h.allReceived i hmem⟩

theorem discardedBytes_append {r : Record} {n : ℕ}
    (h : c'.log = c.log ++ [r]) (hr : r.discarded g = n) :
    c'.discardedBytes g = c.discardedBytes g + n := by
  simp [discardedBytes, h, hr]

theorem Balanced.move (h : c.Balanced g resumed) (htidy : c.Tidy)
    (hc : c.Ready g) (hmove : Move g env a start c c') :
    c'.Balanced g resumed := by
  cases hmove with
  | engine hstep heq =>
    subst heq
    exact h.engine htidy hc hstep
  | stored hevents hst heq =>
    subst heq
    obtain ⟨hnot, hall⟩ := htidy.of_event hevents rfl
    refine h.keep 0 hst.downloaded ?_ (discardedBytes_append rfl rfl)
    exact hst.pm.sum_stake hc.shaped.fits hnot hall
  | lost hevents hl heq =>
    subst heq
    obtain ⟨hnot, hall⟩ := htidy.of_event hevents rfl
    refine h.keep _ hl.downloaded ?_ (discardedBytes_append rfl rfl)
    exact hl.pm.sum_stake hc.shaped.fits hnot hall
  | ignored | announced | delivered =>
    subst_vars
    exact h.same rfl rfl (discardedBytes_append rfl rfl)
  | _ =>
    subst_vars
    exact h.same rfl rfl rfl

theorem Started.balanced {t : TorrentFile} {cfg : EngineConfig}
    {already : List ℕ} {store : ℕ → Option Bytes}
    (h : Started g t cfg already store c) :
    c.Balanced g (c.engine.pm.presentBytes g) := by
  have hgot : ∀ i b, c.engine.pm.got i b = false := by
    intro i b
    rw [got, h.received, fresh, getElem?_map]
    cases (range g.numPieces)[i]? with
    | none => rfl
    | some j => simp [getElem?_replicate]; split <;> rfl
  have hunsettled : c.engine.pm.unsettledBytes g = 0 := by
    refine Finset.sum_eq_zero fun i _ => ?_
    simp [receivedBytes, hgot]
  have hdiscarded : c.discardedBytes g = 0 := by
    rcases h.log with hlog | ⟨request, -, hlog⟩ <;>
      rw [discardedBytes, hlog] <;> rfl
  refine ⟨0, h.downloaded, ?_⟩
  rw [sum_stake, hunsettled, hdiscarded, Nat.zero_add, Nat.add_zero]

theorem balanced_after {t : TorrentFile} {cfg : EngineConfig} {already : List ℕ}
    {store : ℕ → Option Bytes} {as : List Action}
    (h : Started g t cfg already store c) (hrun : (session env).Allowed c as) :
    ((session env).after c as).Balanced g (c.engine.pm.presentBytes g) := by
  refine (h.ready.history (P := fun _ d => d.Tidy ∧
    d.Balanced g (c.engine.pm.presentBytes g)) ⟨h.tidy, h.balanced⟩
    (fun _ _ hp => hp) ?_ hrun).2
  intro _ a d d' hd hp hmove
  exact ⟨hp.1.move hd hmove, hp.2.move hp.1 hd hmove⟩

end Client

end Engine

end RustyTorrent
