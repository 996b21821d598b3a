import Mathlib.Data.List.DropRight
import RustyTorrent.Scheduler.Choke
import RustyTorrent.Support.Run

/-!
# What a tick of the choke scheduler decides

After a tick exactly the chosen candidates are noted as unchoked, and the
decision lists those for which that is a change (`decide_notes`).  So whoever
applies the decisions in turn knows who is unchoked (`choke_replays`).
-/

namespace RustyTorrent.Scheduler.ChokeScheduler

open List

variable {s : ChokeScheduler} {chosen candidates : List SocketAddr}
  {a b addr : SocketAddr} {later : ℕ → ℕ}

/-- Whether the peer is noted as unchoked. -/
def noted (u : Dict SocketAddr Bool) (a : SocketAddr) : Bool :=
  (u.lookup a).getD false

/-- The loop notes every candidate as the choice wants it, and lists those for
which that is a change. -/
structure Notes (chosen candidates up down : List SocketAddr)
    (u u' : Dict SocketAddr Bool) : Prop where
  up : ∀ a, a ∈ up ↔ a ∈ candidates ∧ a ∈ chosen ∧ noted u a = false
  down : ∀ a, a ∈ down ↔ a ∈ candidates ∧ a ∉ chosen ∧ noted u a = true
  noted : ∀ a, noted u' a = true ↔
    if a ∈ candidates then a ∈ chosen else noted u a = true

theorem decide_notes (candidates : List SocketAddr) (s : ChokeScheduler)
    (dec : ChokeDecision) :
    ∃ u up down, decide chosen candidates s dec = ({ s with unchoked := u },
        ⟨dec.toUnchoke ++ up, dec.toChoke ++ down, dec.optimistic⟩) ∧
      (candidates.Nodup → Notes chosen candidates up down s.unchoked u) := by
  induction candidates generalizing s dec with
  | nil =>
    exact ⟨s.unchoked, [], [], by simp [decide], fun _ => by constructor <;> simp⟩
  | cons addr rest ih =>
    have hset (v : Bool) (a : SocketAddr) : noted (s.unchoked.insert addr v) a =
        if a = addr then v else noted s.unchoked a := by
      rw [noted, Dict.lookup_insert]
      split_ifs <;> rfl
    rw [decide]
    change ∃ u up down, (if chosen.contains addr && !noted s.unchoked addr then _
      else if !chosen.contains addr && noted s.unchoked addr then _ else _) = _ ∧ _
    split_ifs with hup hdown
    · obtain ⟨u, up, down, heq, hnotes⟩ := ih
        { s with unchoked := s.unchoked.insert addr true }
        { dec with toUnchoke := dec.toUnchoke ++ [addr] }
      refine ⟨u, addr :: up, down, by rw [heq]; simp, fun hnodup => ?_⟩
      obtain ⟨hu, hd, hn⟩ := hnotes hnodup.of_cons
      constructor <;> grind
    · obtain ⟨u, up, down, heq, hnotes⟩ := ih
        { s with unchoked := s.unchoked.insert addr false }
        { dec with toChoke := dec.toChoke ++ [addr] }
      refine ⟨u, up, addr :: down, by rw [heq]; simp, fun hnodup => ?_⟩
      obtain ⟨hu, hd, hn⟩ := hnotes hnodup.of_cons
      constructor <;> grind
    · obtain ⟨u, up, down, heq, hnotes⟩ := ih s dec
      refine ⟨u, up, down, heq, fun hnodup => ?_⟩
      obtain ⟨hu, hd, hn⟩ := hnotes hnodup.of_cons
      constructor <;> grind

/-! ## The choice -/

/-- Whether the candidate may get a regular slot. -/
def Eligible (s : ChokeScheduler) (candidates : List SocketAddr)
    (later : ℕ → ℕ) (a : SocketAddr) : Prop :=
  ∃ i, candidates[i]? = some a ∧ (!s.isSnubbed a (later i) || s.seeding)

theorem mem_ranked {r : ℕ} : (a, r) ∈ s.ranked candidates later ↔
      s.Eligible candidates later a ∧ s.rateFor a = r := by
  simp only [ranked, mem_insertionSort, mem_map, mem_filter,
    Prod.exists, mk_mem_zipIdx_iff_getElem?, Prod.mk.injEq]
  constructor
  · rintro ⟨_, i, h, rfl, hr⟩
    exact ⟨⟨i, h⟩, hr⟩
  · rintro ⟨⟨i, h⟩, hr⟩
    exact ⟨a, i, h, rfl, hr⟩

theorem ranked_pairwise (s : ChokeScheduler) (candidates : List SocketAddr)
    (later : ℕ → ℕ) :
    (s.ranked candidates later).Pairwise fun x y => y.2 ≤ x.2 :=
  have : Std.Total fun x y : SocketAddr × ℕ => y.2 ≤ x.2 :=
    ⟨fun x y => le_total y.2 x.2⟩
  have : IsTrans (SocketAddr × ℕ) fun x y => y.2 ≤ x.2 :=
    ⟨fun _ _ _ hxy hyz => hyz.trans hxy⟩
  pairwise_insertionSort _ _

/-- The peers in the regular slots. -/
def regular (s : ChokeScheduler) (candidates : List SocketAddr)
    (later : ℕ → ℕ) : List SocketAddr :=
  ((s.ranked candidates later).take regularUnchokeSlots).map Prod.fst

theorem mem_chosen : a ∈ s.chosen candidates later ↔
      a ∈ s.regular candidates later ∨ s.optimistic = some a := by
  rw [chosen, ← regular]
  cases s.optimistic with
  | none => simp
  | some opt =>
    dsimp only
    split_ifs with hopt
    · refine ⟨.inl, fun h => h.elim id fun h => ?_⟩
      exact Option.some.inj h ▸ hopt
    · simp [eq_comm]

theorem length_chosen (s : ChokeScheduler) (candidates : List SocketAddr)
    (later : ℕ → ℕ) : (s.chosen candidates later).length ≤ 4 := by
  have hregular : (s.regular candidates later).length ≤ 3 := by
    rw [regular, length_map]
    exact length_take_le ..
  rw [chosen, ← regular]
  cases s.optimistic with
  | none => exact hregular.trans (by decide)
  | some opt =>
    dsimp only
    split_ifs
    · exact hregular.trans (by decide)
    · rw [length_append]
      exact Nat.add_le_add_right hregular 1

/-- A regular slot goes to an eligible candidate, and no eligible candidate
without one is faster. -/
theorem regular_fastest (h : a ∈ s.regular candidates later) :
    s.Eligible candidates later a ∧ ∀ b, s.Eligible candidates later b →
        b ∉ s.regular candidates later → s.rateFor b ≤ s.rateFor a := by
  obtain ⟨⟨_, r⟩, ha, rfl⟩ := mem_map.mp h
  obtain ⟨helig, hrate⟩ := mem_ranked.mp (mem_of_mem_take ha)
  refine ⟨helig, fun b hb hnot => ?_⟩
  have hmem : (b, s.rateFor b) ∈ s.ranked candidates later :=
    mem_ranked.mpr ⟨hb, rfl⟩
  have hsorted := s.ranked_pairwise candidates later
  rw [← take_append_drop regularUnchokeSlots (s.ranked _ _)] at hmem hsorted
  have hdrop := (mem_append.mp hmem).resolve_left fun htake =>
    hnot (mem_map_of_mem htake)
  exact ((pairwise_append.mp hsorted).2.2 _ ha _ hdrop).trans_eq hrate.symm

/-! ## The decisions in turn -/

/-- What a tick decides: only changes, at most four unchoked candidates, and
the regular slots to the fastest. -/
structure Decided (s : ChokeScheduler) (candidates : List SocketAddr)
    (later : ℕ → ℕ) (s' : ChokeScheduler) (dec : ChokeDecision) : Prop where
  disjoint : dec.toUnchoke.Disjoint dec.toChoke
  unchoke : ∀ a ∈ dec.toUnchoke,
    a ∈ candidates ∧ noted s.unchoked a = false ∧ noted s'.unchoked a = true
  choke : ∀ a ∈ dec.toChoke,
    a ∈ candidates ∧ noted s.unchoked a = true ∧ noted s'.unchoked a = false
  four : (candidates.filter (noted s'.unchoked)).length ≤ 4
  fastest : ∀ a ∈ candidates, noted s'.unchoked a = true →
    dec.optimistic ≠ some a → s.Eligible candidates later a ∧
      ∀ b, s.Eligible candidates later b → noted s'.unchoked b = false →
        s.rateFor b ≤ s.rateFor a

theorem rotate_eq (s : ChokeScheduler) (candidates : List SocketAddr)
    (now choice : ℕ) :
    ∃ o t, s.rotate candidates now choice =
      { s with optimistic := o, lastOptimisticTick := t } := by
  rw [rotate]
  split_ifs
  · exact ⟨_, _, rfl⟩
  · exact ⟨s.optimistic, s.lastOptimisticTick, rfl⟩

/-- A tick draws an optimistic peer if it is due, and notes its choice. -/
theorem tick_notes (s : ChokeScheduler) (candidates : List SocketAddr)
    (now choice : ℕ) (later : ℕ → ℕ) :
    ∃ o t u up down, s.tick candidates now choice later =
        ({ s with optimistic := o, lastOptimisticTick := t, unchoked := u },
          ⟨up, down, o⟩) ∧
      o = (s.rotate candidates now choice).optimistic ∧
      (candidates.Nodup → Notes ({ s with optimistic := o }.chosen candidates
        later) candidates up down s.unchoked u) := by
  obtain ⟨o, t, hrotate⟩ := s.rotate_eq candidates now choice
  obtain ⟨u, up, down, heq, hnotes⟩ := decide_notes candidates
    { s with optimistic := o, lastOptimisticTick := t } ⟨[], [], o⟩
  refine ⟨o, t, u, up, down, ?_, by rw [hrotate], hnotes⟩
  rw [tick, hrotate]
  exact heq

theorem tick_decided (hnodup : candidates.Nodup) (s : ChokeScheduler)
    (now choice : ℕ) (later : ℕ → ℕ) :
    s.Decided candidates later (s.tick candidates now choice later).1
      (s.tick candidates now choice later).2 := by
  obtain ⟨o, t, u, up, down, heq, -, hnotes⟩ :=
    s.tick_notes candidates now choice later
  obtain ⟨hup, hdown, hnoted⟩ := hnotes hnodup
  have hin : ∀ a ∈ candidates, noted u a = true ↔
      a ∈ s.regular candidates later ∨ o = some a := fun a ha => by
    rw [hnoted, if_pos ha, mem_chosen]
    rfl
  rw [heq]
  refine ⟨?_, fun a ha => ?_, fun a ha => ?_, ?_, fun a ha hun hopt => ?_⟩
  · exact fun a ha ha' => ((hdown a).mp ha').2.1 ((hup a).mp ha).2.1
  · obtain ⟨hcand, hwant, hnot⟩ := (hup a).mp ha
    exact ⟨hcand, hnot, (hnoted a).mpr (by rwa [if_pos hcand])⟩
  · obtain ⟨hcand, hwant, hhave⟩ := (hdown a).mp ha
    refine ⟨hcand, hhave, Bool.eq_false_iff.mpr fun h => hwant ?_⟩
    simpa [hcand] using (hnoted a).mp h
  · refine le_trans ((subperm_of_subset (hnodup.filter _) ?_).length_le)
      (length_chosen { s with optimistic := o } candidates later)
    intro a ha
    obtain ⟨hcand, hhave⟩ := mem_filter.mp ha
    simpa [hcand] using (hnoted a).mp hhave
  · obtain ⟨helig, hfast⟩ :=
      regular_fastest (((hin a ha).mp hun).resolve_right hopt)
    refine ⟨helig, fun b hb hnot => hfast b hb fun hbreg => ?_⟩
    obtain ⟨i, hi, -⟩ := id hb
    have hwant := (hin b (mem_of_getElem? hi)).mpr (.inl hbreg)
    exact Bool.false_ne_true (hnot.symm.trans hwant)

/-- A call of the scheduler, with what the clock and the dice say. -/
inductive Call where
  | recordDownload (addr : SocketAddr) (bytes now : ℕ)
  | recordUpload (addr : SocketAddr) (bytes now : ℕ)
  | setSeeding (seeding : Bool)
  | forget (addr : SocketAddr)
  | tick (candidates : List SocketAddr) (now choice : ℕ) (later : ℕ → ℕ)

def call (s : ChokeScheduler) : Call → ChokeScheduler
  | .recordDownload addr bytes now => s.recordDownload addr bytes now
  | .recordUpload addr bytes now => s.recordUpload addr bytes now
  | .setSeeding seeding => s.setSeeding seeding
  | .forget addr => s.forget addr
  | .tick candidates now choice later =>
    (s.tick candidates now choice later).1

/-- The scheduler, and the peers that its decisions leave unchoked. -/
structure Replay where
  scheduler : ChokeScheduler
  unchoked : Finset SocketAddr

/-- The calls, the decision of each tick being applied as it comes. -/
def replay : System Replay Call where
  next r c :=
    ⟨r.scheduler.call c,
      match c with
      | .forget addr => r.unchoked.erase addr
      | .tick candidates now choice later =>
        let dec := (r.scheduler.tick candidates now choice later).2
        (r.unchoked ∪ dec.toUnchoke.toFinset) \ dec.toChoke.toFinset
      | _ => r.unchoked⟩
  may _ c :=
    match c with
    | .tick candidates .. => candidates.Nodup
    | _ => True

/-- The decisions replayed give the peers noted as unchoked. -/
theorem replays_next (r : Replay) (c : Call)
    (h : ∀ a, a ∈ r.unchoked ↔ noted r.scheduler.unchoked a = true)
    (hmay : replay.may r c) (a : SocketAddr) :
    a ∈ (replay.next r c).unchoked ↔
      noted (replay.next r c).scheduler.unchoked a = true := by
  cases c with
  | forget addr =>
    change a ∈ r.unchoked.erase addr ↔
      ((r.scheduler.unchoked.erase addr).lookup a).getD false = true
    rw [Finset.mem_erase, h, Dict.lookup_erase]
    by_cases ha : a = addr
    · simp [ha]
    · simp [ha, noted]
  | tick candidates now choice later =>
    obtain ⟨o, t, u, up, down, heq, -, hnotes⟩ :=
      r.scheduler.tick_notes candidates now choice later
    obtain ⟨hup, hdown, hnoted⟩ := hnotes hmay
    simp only [replay, call, heq, Finset.mem_sdiff, Finset.mem_union, h,
      mem_toFinset, hup, hdown, hnoted]
    grind
  | _ => exact h a

/-- After any calls the replayed decisions are the scheduler's own map, and
the next tick decides as it should. -/
theorem choke_replays (start : ℕ) {calls : List Call}
    (h : replay.Allowed ⟨new start, ∅⟩ calls) :
    let r := replay.after ⟨new start, ∅⟩ calls
    (∀ a, a ∈ r.unchoked ↔ noted r.scheduler.unchoked a = true) ∧
      ∀ candidates now choice later, candidates.Nodup →
        r.scheduler.Decided candidates later
          (r.scheduler.tick candidates now choice later).1
          (r.scheduler.tick candidates now choice later).2 := by
  refine ⟨?_, fun candidates now choice later hnodup =>
    tick_decided hnodup _ now choice later⟩
  refine (System.Reach.of_allowed h).invariant (P := fun r =>
    ∀ a, a ∈ r.unchoked ↔ noted r.scheduler.unchoked a = true) (fun a => ?_)
    replays_next
  exact iff_of_false (Finset.notMem_empty a) Bool.false_ne_true

def peer (port : UInt16) : SocketAddr := ⟨.localhost, port⟩

theorem choke_replays_example :
    let calls := [Call.recordDownload (peer 1) 10 0,
      .tick [peer 1, peer 2] second 1 fun _ => second, .forget (peer 1)]
    replay.Allowed ⟨new 0, ∅⟩ calls ∧
      ∀ a, a ∈ (replay.after ⟨new 0, ∅⟩ calls).unchoked ↔
        noted (replay.after ⟨new 0, ∅⟩ calls).scheduler.unchoked a = true :=
  have h := ⟨trivial, (by decide : [peer 1, peer 2].Nodup), trivial, trivial⟩
  ⟨h, (choke_replays 0 h).1⟩

/-! ## Tit for tat -/

/-- A transfer, to the peer or from it. -/
structure Sample where
  up : Bool
  time : ℕ
  bytes : ℕ

namespace Call

/-- The sample that the call records of the peer. -/
def sample (a : SocketAddr) : Call → Option Sample
  | recordDownload addr bytes now =>
    if addr = a then some ⟨false, now, bytes⟩ else none
  | recordUpload addr bytes now =>
    if addr = a then some ⟨true, now, bytes⟩ else none
  | _ => none

def keeps (a : SocketAddr) : Call → Bool
  | forget addr => addr ≠ a
  | _ => true

def time : Call → Option ℕ
  | recordDownload _ _ now | recordUpload _ _ now | tick _ now _ _ => some now
  | _ => none

end Call

/-- Whether tit for tat counts the sample: it is in the direction that
matters, and in the window. -/
def Sample.counts (seeding : Bool) (now : ℕ) (e : Sample) : Bool :=
  e.up = seeding ∧ now ≤ e.time + rateWindow

/-- The samples of the peer since it was last forgotten. -/
def kept (calls : List Call) (a : SocketAddr) : List Sample :=
  (calls.rtakeWhile (Call.keeps a)).filterMap (Call.sample a)

/-- The samples of the peer before it was last forgotten. -/
def forgotten (calls : List Call) (a : SocketAddr) : List Sample :=
  (calls.rdropWhile (Call.keeps a)).filterMap (Call.sample a)

/-- Whether no newer sample has pushed the sample out of the window. -/
def recent (l : List Sample) (e : Sample) : Bool :=
  l.all fun e' => e'.time ≤ e.time + rateWindow

/-- Whether the second call does not come before the first. -/
def Call.Before (c c' : Call) : Prop :=
  ∀ t ∈ c.time, ∀ t' ∈ c'.time, t ≤ t'

variable {calls : List Call}

/-- Whether the tick draws a new optimistic peer. -/
def Due (s : ChokeScheduler) (now : ℕ) : Prop :=
  optimisticInterval ≤ now - s.lastOptimisticTick ∨ s.optimistic = none

end RustyTorrent.Scheduler.ChokeScheduler
