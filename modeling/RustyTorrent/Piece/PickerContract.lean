import RustyTorrent.Piece.Picker
import RustyTorrent.Support.Run

/-!
# What a pick promises

A pick for a peer promises a piece the peer has, that is wanted and not
complete, and that nobody else is fetching outside endgame; and, for a peer
that is not at work on a piece already, the rarest such piece, or the first
one in sequential mode.  The pass over the pieces keeps all of this.  The
shortcut for a peer at work on a piece checks none of it, so a pick keeps its
promise exactly if the piece at work still meets it (`honours_iff`).
-/

namespace RustyTorrent.Piece.Picker

open Outcome List AList

/-! ## Histories of a picker -/

/-- A call on a picker.  Each pick meets its own piece manager. -/
inductive Op where
  | setSequential (on : Bool)
  | setPeerBitfield (addr : SocketAddr) (bf : List Bool)
  | addHave (addr : SocketAddr) (index : ℕ)
  | forgetPeer (addr : SocketAddr)
  | releaseAssignment (addr : SocketAddr)
  | clearAssignmentIf (addr : SocketAddr) (index : ℕ)
  | pickFor (addr : SocketAddr) (pm : PieceManager) (endgame : Bool)
      (choice : ℕ)

/-- The picker after a call; a pick that unwinds leaves it as it was. -/
def perform (p : Picker) : Op → Picker
  | .setSequential on => p.setSequential on
  | .setPeerBitfield addr bf => p.setPeerBitfield addr bf
  | .addHave addr index => p.addHave addr index
  | .forgetPeer addr => p.forgetPeer addr
  | .releaseAssignment addr => p.releaseAssignment addr
  | .clearAssignmentIf addr index => p.clearAssignmentIf addr index
  | .pickFor addr pm endgame choice =>
    match p.pickFor addr pm endgame choice with
    | .ok (p', _) => p'
    | _ => p

/-- Every sequence of calls. -/
def operations : System Picker Op where
  next := perform
  may _ _ := True

/-! ## The promise -/

/-- Piece `i` is wanted and not complete. -/
def Unfinished (pm : PieceManager) (i : ℕ) : Prop :=
  ∃ state, pm.state i = .ok state ∧ state ≠ .complete ∧
    pm.isWanted i = true

/-- Piece `i` may be given to `addr`. -/
structure Candidate (p : Picker) (pm : PieceManager) (addr : SocketAddr)
    (endgame : Bool) (i : ℕ) : Prop where
  lt : i < p.numPieces
  has : p.peerHas addr i = true
  unfinished : Unfinished pm i
  free : endgame = true ∨
    ∀ other, other ≠ addr → p.assigned.lookup other ≠ some i

/-- The peer `addr` is at work on piece `i`. -/
def Sticky (p : Picker) (pm : PieceManager) (addr : SocketAddr) (i : ℕ) :
    Prop :=
  p.assigned.lookup addr = some i ∧ Unfinished pm i

/-- Piece `i` comes no later than piece `j` in the order of picks. -/
def Before (p : Picker) (i j : ℕ) : Prop :=
  if p.sequential then i ≤ j
  else p.availability.getD i 0 ≤ p.availability.getD j 0

/-- The pick keeps its promise. -/
structure Honours (p : Picker) (pm : PieceManager) (addr : SocketAddr)
    (endgame : Bool) (choice : ℕ) : Prop where
  admissible : ∀ p' i, p.pickFor addr pm endgame choice = .ok (p', some i) →
    p.Candidate pm addr endgame i
  best : ∀ p' i, p.pickFor addr pm endgame choice = .ok (p', some i) →
    (∀ j, ¬ p.Sticky pm addr j) →
      ∀ j, p.Candidate pm addr endgame j → p.Before i j
  exhausted : ∀ p', p.pickFor addr pm endgame choice = .ok (p', none) →
    ∀ j, ¬ p.Candidate pm addr endgame j

/-! ## What holds of every picker -/

/-- One count of 32 bits for each piece, and assignments to pieces only. -/
structure WellFormed (p : Picker) : Prop where
  length : p.availability.length = p.numPieces
  bounded : ∀ a ∈ p.availability, a ≤ 2 ^ 32 - 1
  assigned : ∀ addr i, p.assigned.lookup addr = some i → i < p.numPieces

theorem new_wellFormed (n : ℕ) : (new n).WellFormed where
  length := length_replicate
  bounded a ha := by
    rw [eq_of_mem_replicate ha]
    exact Nat.zero_le _
  assigned addr i h := by
    rw [new, lookup_empty] at h
    cases h

@[simp] theorem length_count (bf : List Bool) (f : ℕ → ℕ) (av : List ℕ) :
    (count bf f av).length = av.length :=
  length_mapIdx

theorem count_bounded {bf : List Bool} {f : ℕ → ℕ} {av : List ℕ}
    (hf : ∀ a ≤ 2 ^ 32 - 1, f a ≤ 2 ^ 32 - 1) (hav : ∀ a ∈ av, a ≤ 2 ^ 32 - 1) :
    ∀ a ∈ count bf f av, a ≤ 2 ^ 32 - 1 := by
  intro a ha
  obtain ⟨i, hi, rfl⟩ := mem_mapIdx.mp ha
  have hle := hav _ (getElem_mem hi)
  split
  · exact hf _ hle
  · exact hle

namespace WellFormed

variable {p : Picker}

section

variable (h : p.WellFormed) (addr : SocketAddr)

include h

theorem length_discount : (p.discount addr).length = p.numPieces := by
  rw [discount]
  split
  · rw [length_count, h.length]
  · exact h.length

theorem discount_bounded : ∀ a ∈ p.discount addr, a ≤ 2 ^ 32 - 1 := by
  rw [discount]
  split
  · exact count_bounded (fun a ha => (Nat.sub_le a 1).trans ha) h.bounded
  · exact h.bounded

theorem releaseAssignment :
    (p.releaseAssignment addr).WellFormed where
  length := h.length
  bounded := h.bounded
  assigned other i hi := by
    rw [Picker.releaseAssignment] at hi
    by_cases heq : other = addr
    · rw [heq, lookup_erase] at hi
      cases hi
    · exact h.assigned other i ((lookup_erase_ne heq).symm.trans hi)

theorem setPeerBitfield (bf : List Bool)
    : (p.setPeerBitfield addr bf).WellFormed where
  length := (length_count _ _ _).trans (h.length_discount addr)
  bounded := count_bounded (fun _ _ => min_le_right _ _)
    (h.discount_bounded addr)
  assigned := h.assigned

theorem forgetPeer :
    (p.forgetPeer addr).WellFormed where
  length := h.length_discount addr
  bounded := h.discount_bounded addr
  assigned := (h.releaseAssignment addr).assigned

theorem addHave (index : ℕ) : (p.addHave addr index).WellFormed := by
  simp only [Picker.addHave]
  split_ifs
  · exact h
  · exact ⟨h.length, h.bounded, h.assigned⟩
  · refine ⟨(length_modify ..).trans h.length, ?_, h.assigned⟩
    intro a ha
    obtain ⟨i, hi, rfl⟩ := getElem_of_mem ha
    rw [getElem_modify]
    split
    · exact min_le_right _ _
    · exact h.bounded _ (getElem_mem _)

theorem assign {i : ℕ} (hi : i < p.numPieces) :
    ({ p with assigned := p.assigned.insert addr i } : Picker).WellFormed
    where
  length := h.length
  bounded := h.bounded
  assigned other j hj := by
    by_cases heq : other = addr
    · rw [heq, lookup_insert] at hj
      rwa [← Option.some.inj hj]
    · exact h.assigned other j ((lookup_insert_ne heq).symm.trans hj)

end

end WellFormed

/-! ## The pass over the pieces -/

section Pass

variable {p : Picker} {pm : PieceManager} {bf : List Bool} {endgame : Bool}

theorem mem_values {m : Dict SocketAddr ℕ} {i : ℕ} :
    i ∈ m.values ↔ ∃ addr, m.lookup addr = some i := by
  rw [Dict.values, mem_map]
  constructor
  · rintro ⟨⟨addr, j⟩, hmem, rfl⟩
    exact ⟨addr, mem_lookup_iff.mpr hmem⟩
  · rintro ⟨addr, h⟩
    exact ⟨⟨addr, i⟩, mem_lookup_iff.mp h, rfl⟩

/-- What the closure `usable` tests. -/
def Usable (p : Picker) (pm : PieceManager) (bf : List Bool)
    (endgame : Bool) (i : ℕ) : Prop :=
  bf.getD i false = true ∧ Unfinished pm i ∧
    (endgame = true ∨ i ∉ p.assigned.values)

theorem usable_iff {i : ℕ} {b : Bool} (h : p.usable pm bf endgame i = .ok b) :
    b = true ↔ p.Usable pm bf endgame i := by
  rw [usable] at h
  by_cases hbf : bf.getD i false = true
  · rw [if_pos hbf] at h
    obtain ⟨state, hstate, hb⟩ := bind_eq_ok.mp h
    obtain rfl := ok.inj hb
    have hun : Unfinished pm i ↔ state ≠ .complete ∧ pm.isWanted i = true := by
      rw [Unfinished, hstate]
      simp
    rw [Usable, and_iff_right hbf, hun]
    simp [and_assoc]
  · rw [if_neg hbf] at h
    obtain rfl := ok.inj h
    exact ⟨nofun, fun hu => absurd hu.1 hbf⟩

theorem findUsable_spec {is : List ℕ} {r : Option ℕ}
    (hsorted : is.Pairwise (· < ·))
    (h : p.findUsable pm bf endgame is = .ok r) :
    (r = none → ∀ j ∈ is, ¬ p.Usable pm bf endgame j) ∧
      ∀ i, r = some i → i ∈ is ∧ p.Usable pm bf endgame i ∧
        ∀ j ∈ is, p.Usable pm bf endgame j → i ≤ j := by
  induction is with
  | nil =>
    obtain rfl := ok.inj h
    exact ⟨fun _ => nofun, nofun⟩
  | cons k is ih =>
    rw [pairwise_cons] at hsorted
    obtain ⟨b, hb, h⟩ := bind_eq_ok.mp h
    have huse := usable_iff hb
    by_cases hk : b = true
    · rw [if_pos hk] at h
      obtain rfl := ok.inj h
      refine ⟨nofun, fun i hi => ?_⟩
      obtain rfl := Option.some.inj hi
      refine ⟨mem_cons_self, huse.mp hk, fun j hj _ => ?_⟩
      rcases mem_cons.mp hj with rfl | hj
      · exact le_rfl
      · exact (hsorted.1 j hj).le
    · rw [if_neg hk] at h
      have hnot : ¬ p.Usable pm bf endgame k := fun hu => hk (huse.mpr hu)
      obtain ⟨hnone, hsome⟩ := ih hsorted.2 h
      refine ⟨fun hr j hj => ?_, fun i hi => ?_⟩
      · rcases mem_cons.mp hj with rfl | hj
        · exact hnot
        · exact hnone hr j hj
      · obtain ⟨hmem, hi, hle⟩ := hsome i hi
        refine ⟨mem_cons_of_mem k hmem, hi, fun j hj hu => ?_⟩
        rcases mem_cons.mp hj with rfl | hj
        · exact absurd hu hnot
        · exact hle j hj hu

/-- `ties` are the usable pieces seen so far that the fewest peers have. -/
structure Leaders (p : Picker) (pm : PieceManager) (bf : List Bool)
    (endgame : Bool) (seen : List ℕ) (minAv : ℕ) (ties : List ℕ) :
    Prop where
  tied : ∀ i ∈ ties, i ∈ seen ∧ p.Usable pm bf endgame i ∧
    p.availability.getD i 0 = minAv
  least : ∀ j ∈ seen, p.Usable pm bf endgame j →
    minAv ≤ p.availability.getD j 0
  unseen : ties = [] →
    minAv = 2 ^ 32 - 1 ∧ ∀ j ∈ seen, ¬ p.Usable pm bf endgame j

namespace Leaders

variable {seen ties : List ℕ} {minAv k : ℕ}

theorem start : p.Leaders pm bf endgame [] (2 ^ 32 - 1) [] :=
  ⟨nofun, nofun, fun _ => ⟨rfl, nofun⟩⟩

section

variable (h : p.Leaders pm bf endgame seen minAv ties)

include h

theorem pass
    (hk : p.Usable pm bf endgame k → minAv < p.availability.getD k 0 ∧
      p.availability.getD k 0 ≤ 2 ^ 32 - 1) :
    p.Leaders pm bf endgame (seen ++ [k]) minAv ties where
  tied i hi := by
    obtain ⟨hmem, hrest⟩ := h.tied i hi
    exact ⟨mem_append_left _ hmem, hrest⟩
  least := forall_mem_append.mpr
    ⟨h.least, forall_mem_singleton.mpr fun hu => (hk hu).1.le⟩
  unseen hnil := by
    obtain ⟨hmin, hnone⟩ := h.unseen hnil
    refine ⟨hmin, forall_mem_append.mpr
      ⟨hnone, forall_mem_singleton.mpr fun hu => ?_⟩⟩
    have hlt := hk hu
    omega

theorem join (hk : p.Usable pm bf endgame k)
    (heq : p.availability.getD k 0 = minAv) :
    p.Leaders pm bf endgame (seen ++ [k]) minAv (ties ++ [k]) where
  tied i hi := by
    rcases mem_append.mp hi with hi | hi
    · obtain ⟨hmem, hrest⟩ := h.tied i hi
      exact ⟨mem_append_left _ hmem, hrest⟩
    · rw [mem_singleton.mp hi]
      exact ⟨mem_append_right _ (mem_singleton_self k), hk, heq⟩
  least := forall_mem_append.mpr
    ⟨h.least, forall_mem_singleton.mpr fun _ => heq.ge⟩
  unseen hnil := by simp at hnil

theorem lead (hk : p.Usable pm bf endgame k)
    (hlt : p.availability.getD k 0 < minAv) :
    p.Leaders pm bf endgame (seen ++ [k]) (p.availability.getD k 0) [k] where
  tied := forall_mem_singleton.mpr
    ⟨mem_append_right _ (mem_singleton_self k), hk, rfl⟩
  least := forall_mem_append.mpr
    ⟨fun j hj hu => hlt.le.trans (h.least j hj hu),
      forall_mem_singleton.mpr fun _ => le_rfl⟩
  unseen hnil := by cases hnil

end

end Leaders

theorem rarest_leaders (hp : p.WellFormed) {is seen ties r : List ℕ}
    {minAv : ℕ} (hseen : p.Leaders pm bf endgame seen minAv ties)
    (h : p.rarest pm bf endgame is minAv ties = .ok r) :
    ∃ m, p.Leaders pm bf endgame (seen ++ is) m r := by
  induction is generalizing seen minAv ties with
  | nil =>
    obtain rfl := ok.inj h
    exact ⟨minAv, by rwa [append_nil]⟩
  | cons k is ih =>
    rw [← singleton_append, ← append_assoc]
    obtain ⟨b, hb, h⟩ := bind_eq_ok.mp h
    have huse := usable_iff hb
    by_cases hk : b = true
    · rw [if_pos hk] at h
      obtain ⟨av, hav, h⟩ := bind_eq_ok.mp h
      have hget := index_eq_ok.mp hav
      have hD : p.availability.getD k 0 = av := by
        rw [getD_eq_getElem?_getD, hget, Option.getD_some]
      have hbound := hp.bounded av (mem_of_getElem? hget)
      by_cases hlt : av < minAv
      · rw [if_pos hlt] at h
        refine ih ?_ h
        rw [← hD]
        exact hseen.lead (huse.mp hk) (hD ▸ hlt)
      · rw [if_neg hlt] at h
        by_cases heq : av = minAv
        · rw [if_pos heq] at h
          exact ih (hseen.join (huse.mp hk) (hD.trans heq)) h
        · rw [if_neg heq] at h
          exact ih (hseen.pass fun _ => by omega) h
    · rw [if_neg hk] at h
      exact ih (hseen.pass fun hu => absurd (huse.mpr hu) hk) h

theorem choose_spec (hp : p.WellFormed) {choice : ℕ} {r : Option ℕ}
    (h : p.choose pm bf endgame choice = .ok r) :
    (r = none → ∀ j < p.numPieces, ¬ p.Usable pm bf endgame j) ∧
      ∀ i, r = some i → i < p.numPieces ∧ p.Usable pm bf endgame i ∧
        ∀ j < p.numPieces, p.Usable pm bf endgame j → p.Before i j := by
  rw [choose] at h
  by_cases hseq : p.sequential = true
  · rw [if_pos hseq] at h
    obtain ⟨hnone, hsome⟩ := findUsable_spec pairwise_lt_range h
    simp only [mem_range] at hnone hsome
    refine ⟨hnone, fun i hi => ?_⟩
    simpa only [Before, if_pos hseq] using hsome i hi
  · rw [if_neg hseq] at h
    obtain ⟨ties, hties, h⟩ := bind_eq_ok.mp h
    obtain rfl := ok.inj h
    obtain ⟨m, hlead⟩ := rarest_leaders hp Leaders.start hties
    rw [nil_append] at hlead
    refine ⟨fun hnone j hj => ?_, fun i hi => ?_⟩
    · have hnil : ties = [] := by
        by_contra hne
        have hpos := length_pos_of_ne_nil hne
        have hlen := getElem?_eq_none_iff.mp hnone
        have hmod := Nat.mod_lt choice hpos
        omega
      exact (hlead.unseen hnil).2 j (mem_range.mpr hj)
    · obtain ⟨hmem, hu, hm⟩ := hlead.tied i (mem_of_getElem? hi)
      refine ⟨mem_range.mp hmem, hu, fun j hj huj => ?_⟩
      rw [Before, if_neg hseq, hm]
      exact hlead.least j (mem_range.mpr hj) huj

end Pass

/-! ## A pick -/

section Pick

variable {p p' : Picker} {pm : PieceManager} {addr : SocketAddr}
  {endgame : Bool} {choice : ℕ}

/-- For a peer at work on no piece, the closure tests what the promise
asks. -/
theorem candidate_iff (hnone : ∀ j, ¬ p.Sticky pm addr j) {bf : List Bool}
    (hbf : p.peerBitfields.lookup addr = some bf) {i : ℕ} :
    p.Candidate pm addr endgame i ↔
      i < p.numPieces ∧ p.Usable pm bf endgame i := by
  have hhas : p.peerHas addr i = bf.getD i false := by
    rw [peerHas, hbf]
  constructor
  · rintro ⟨hlt, hi, hun, hfree⟩
    refine ⟨hlt, hhas ▸ hi, hun, hfree.imp_right fun hother hmem => ?_⟩
    obtain ⟨other, hlookup⟩ := mem_values.mp hmem
    by_cases heq : other = addr
    · exact hnone i ⟨heq ▸ hlookup, hun⟩
    · exact hother other heq hlookup
  · rintro ⟨hlt, hi, hun, hfree⟩
    refine ⟨hlt, hhas ▸ hi, hun, hfree.imp_right fun hmem other _ hl => ?_⟩
    exact hmem (mem_values.mpr ⟨other, hl⟩)

/-- What a pick can do: go on with the piece at work, assign the best
candidate, or find none. -/
inductive Picks (p : Picker) (pm : PieceManager) (addr : SocketAddr)
    (endgame : Bool) : Picker → Option ℕ → Prop where
  | kept {i : ℕ} (h : p.Sticky pm addr i) : Picks p pm addr endgame p (some i)
  | found {i : ℕ} (hnone : ∀ j, ¬ p.Sticky pm addr j)
      (h : p.Candidate pm addr endgame i)
      (hbest : ∀ j, p.Candidate pm addr endgame j → p.Before i j) :
      Picks p pm addr endgame
        { p with assigned := p.assigned.insert addr i } (some i)
  | nothing (h : ∀ j, ¬ p.Candidate pm addr endgame j) :
      Picks p pm addr endgame p none

variable {r : Option ℕ}

theorem pickNew_picks (hp : p.WellFormed) (hnone : ∀ j, ¬ p.Sticky pm addr j)
    (h : p.pickNew addr pm endgame choice = .ok (p', r)) :
    p.Picks pm addr endgame p' r := by
  rw [pickNew] at h
  cases hbf : p.peerBitfields.lookup addr with
  | none =>
    rw [hbf] at h
    obtain ⟨rfl, rfl⟩ := Prod.ext_iff.mp (ok.inj h)
    refine .nothing fun j hj => ?_
    have hhas := hj.has
    rw [peerHas, hbf] at hhas
    cases hhas
  | some bf =>
    rw [hbf] at h
    obtain ⟨found, hfound, h⟩ := bind_eq_ok.mp h
    obtain ⟨hno, hyes⟩ := choose_spec hp hfound
    have hcand (j : ℕ) : p.Candidate pm addr endgame j ↔
        j < p.numPieces ∧ p.Usable pm bf endgame j :=
      candidate_iff hnone hbf
    cases found with
    | none =>
      obtain ⟨rfl, rfl⟩ := Prod.ext_iff.mp (ok.inj h)
      refine .nothing fun j hj => ?_
      obtain ⟨hlt, hu⟩ := (hcand j).mp hj
      exact hno rfl j hlt hu
    | some i =>
      obtain ⟨rfl, rfl⟩ := Prod.ext_iff.mp (ok.inj h)
      obtain ⟨hlt, hu, hbest⟩ := hyes i rfl
      refine .found hnone ((hcand i).mpr ⟨hlt, hu⟩) fun j hj => ?_
      obtain ⟨hltj, huj⟩ := (hcand j).mp hj
      exact hbest j hltj huj

theorem pickFor_of_sticky {i : ℕ} (h : p.Sticky pm addr i) :
    p.pickFor addr pm endgame choice = .ok (p, some i) := by
  obtain ⟨hlookup, state, hstate, hne, hwanted⟩ := h
  rw [pickFor, hlookup]
  simp [hstate, hne, hwanted]

section

variable (hp : p.WellFormed)

include hp

theorem pickFor_picks (h : p.pickFor addr pm endgame choice = .ok (p', r)) :
    p.Picks pm addr endgame p' r := by
  by_cases hsticky : ∃ i, p.Sticky pm addr i
  · obtain ⟨i, hi⟩ := hsticky
    rw [pickFor_of_sticky hi] at h
    obtain ⟨rfl, rfl⟩ := Prod.ext_iff.mp (ok.inj h)
    exact .kept hi
  · have hnone := not_exists.mp hsticky
    suffices h : p.pickNew addr pm endgame choice = .ok (p', r) from
      pickNew_picks hp hnone h
    rw [pickFor] at h
    cases hlookup : p.assigned.lookup addr with
    | none => rwa [hlookup] at h
    | some i =>
      rw [hlookup] at h
      obtain ⟨state, hstate, h⟩ := bind_eq_ok.mp h
      split at h
      next hcheck =>
        rw [Bool.and_eq_true, decide_eq_true_eq] at hcheck
        exact absurd ⟨hlookup, state, hstate, hcheck⟩ (hnone i)
      next => exact h

theorem WellFormed.pickFor (h : p.pickFor addr pm endgame choice = .ok (p', r))
    : p'.WellFormed := by
  cases pickFor_picks hp h with
  | kept | nothing => exact hp
  | found _ hcand => exact hp.assign addr hcand.lt

theorem WellFormed.perform (op : Op) : (p.perform op).WellFormed := by
  cases op with
  | setSequential on => exact ⟨hp.length, hp.bounded, hp.assigned⟩
  | setPeerBitfield addr bf => exact hp.setPeerBitfield addr bf
  | addHave addr index => exact hp.addHave addr index
  | forgetPeer addr => exact hp.forgetPeer addr
  | releaseAssignment addr => exact hp.releaseAssignment addr
  | clearAssignmentIf addr index =>
    rw [Picker.perform, Picker.clearAssignmentIf]
    split
    · exact hp.releaseAssignment addr
    · exact hp
  | pickFor addr pm endgame choice =>
    rw [Picker.perform]
    split
    next p' r h => exact hp.pickFor h
    next => exact hp

theorem WellFormed.after (ops : List Op) :
    (operations.after p ops).WellFormed := by
  induction ops generalizing p with
  | nil => exact hp
  | cons op ops ih => exact ih (hp.perform op)

/-- A pick keeps its promise exactly if the piece the peer is at work on,
if any, is still one the peer has and, outside endgame, nobody else's. -/
theorem honours_iff_of_wellFormed :
    p.Honours pm addr endgame choice ↔
      ∀ i, p.Sticky pm addr i → p.peerHas addr i = true ∧ (endgame = true ∨
          ∀ other, other ≠ addr → p.assigned.lookup other ≠ some i) := by
  constructor
  · intro h i hi
    have hcand := h.admissible p i (pickFor_of_sticky hi)
    exact ⟨hcand.has, hcand.free⟩
  · intro h
    refine ⟨fun p' i hi => ?_, fun p' i hi hnone => ?_, fun p' hp' => ?_⟩
    · cases pickFor_picks hp hi with
      | kept hs =>
        obtain ⟨hhas, hfree⟩ := h i hs
        exact ⟨hp.assigned addr i hs.1, hhas, hs.2, hfree⟩
      | found _ hcand => exact hcand
    · cases pickFor_picks hp hi with
      | kept hs => exact absurd hs (hnone i)
      | found _ _ hbest => exact hbest
    · cases pickFor_picks hp hp' with
      | nothing hno => exact hno

end

end Pick

/-- After every history, a pick keeps its promise exactly if the piece the
peer is at work on, if any, is still one the peer has and, outside endgame,
nobody else's. -/
theorem honours_iff (n : ℕ) (ops : List Op) (pm : PieceManager)
    (addr : SocketAddr) (endgame : Bool) (choice : ℕ) :
    (operations.after (new n) ops).Honours pm addr endgame choice ↔
      ∀ i, (operations.after (new n) ops).Sticky pm addr i →
        (operations.after (new n) ops).peerHas addr i = true ∧
          (endgame = true ∨ ∀ other, other ≠ addr →
            (operations.after (new n) ops).assigned.lookup other ≠ some i) :=
  honours_iff_of_wellFormed ((new_wellFormed n).after ops)

/-! ### A piece the peer no longer has, and a piece of two peers -/

/-- The manager of a torrent of one block. -/
def oneBlock : PieceManager where
  pieceLength := 16384
  totalLength := 16384
  numPieces := 1
  states := [.missing]
  requested := [[false]]
  received := [[false]]
  buffers := [none]
  localBits := [false]
  wanted := [true]

example : PieceManager.new 16384 16384 1 = .ok oneBlock := by decide

/-- A peer of a picker's example histories. -/
def peerAt (port : UInt16) : SocketAddr := ⟨.v4 #v[10, 0, 0, 1], port⟩

/-- The peer at port 1 replaces its bitfield while at work on piece 0. -/
def replacedBitfield : List Op :=
  [.setPeerBitfield (peerAt 1) [true],
    .pickFor (peerAt 1) oneBlock false 0,
    .setPeerBitfield (peerAt 1) [false]]

/-- Two peers get piece 0 in endgame. -/
def sharedInEndgame : List Op :=
  [.setPeerBitfield (peerAt 1) [true], .setPeerBitfield (peerAt 2) [true],
    .pickFor (peerAt 1) oneBlock true 0,
    .pickFor (peerAt 2) oneBlock true 0]

theorem stale_assignment_picked :
    ¬ (operations.after (new 1) replacedBitfield).Honours oneBlock (peerAt 1)
        false 0 ∧
      ¬ (operations.after (new 1) sharedInEndgame).Honours oneBlock (peerAt 1)
        false 0 := by
  constructor
  · intro h
    have hcand := h.admissible _ 0 rfl
    exact absurd hcand.has (by decide)
  · intro h
    have hcand := h.admissible _ 0 rfl
    rcases hcand.free with hend | hfree
    · cases hend
    · exact hfree (peerAt 2) (by decide) rfl

end RustyTorrent.Piece.Picker
