import RustyTorrent.Martian
import RustyTorrent.Peer.Manager
import RustyTorrent.Support.Run

/-!
# Runs of the peer manager

Slots are only added within the limit and for hosts that are not banned
(`Admits`); everything else only takes slots away.  Beside the manager a run
notes which slots still wait for an outgoing handshake and which violations
were recorded (`Watched`).
-/

namespace RustyTorrent.Peer.PeerManager

open List Dict

variable {m m' m'' : PeerManager} {addr other : SocketAddr} {ip : IpAddr}
  {S : Set IpAddr}

/-! ## Admission -/

/-- Slots and dials are only added, within the limit and for hosts of `S` that
are not banned. -/
structure Admits (S : Set IpAddr) (m m' : PeerManager) : Prop where
  banned : m'.banned = m.banned
  violations : m'.violations = m.violations
  limits : m'.maxPeers = m.maxPeers ∧ m'.globalCap = m.globalCap
  keeps : ∀ addr, m.handle addr → m'.handle addr
  fresh : ∀ addr, m'.handle addr →
    m.handle addr ∨ addr.ip ∈ S ∧ m.isBanned addr.ip = false
  room : m.connectedCount ≤ m.maxPeers → m'.connectedCount ≤ m.maxPeers
  pending : ∀ addr ∈ m'.pendingDials, addr ∈ m.pendingDials ∨
    m.handle addr = false ∧ m'.handle addr = true
  distinct : m.pendingDials.Nodup → m'.pendingDials.Nodup

/-- No banned host has a slot. -/
def Purged (m : PeerManager) : Prop :=
  ∀ addr, m.handle addr → m.isBanned addr.ip = false

theorem Admits.refl (m : PeerManager) : Admits S m m where
  banned := rfl
  violations := rfl
  limits := ⟨rfl, rfl⟩
  keeps _ := id
  fresh _ := .inl
  room := id
  pending _ := .inl
  distinct := id

theorem Admits.trans (h : Admits S m m') (h' : Admits S m' m'') :
    Admits S m m'' where
  banned := h'.banned.trans h.banned
  violations := h'.violations.trans h.violations
  limits := ⟨h'.limits.1.trans h.limits.1, h'.limits.2.trans h.limits.2⟩
  keeps addr := h'.keeps addr ∘ h.keeps addr
  fresh addr hslot := by
    rcases h'.fresh addr hslot with hold | ⟨hmem, hnot⟩
    · exact h.fresh addr hold
    · rw [isBanned, h.banned] at hnot
      exact .inr ⟨hmem, hnot⟩
  room hroom := by
    rw [← h.limits.1]
    exact h'.room (h.limits.1 ▸ h.room hroom)
  pending addr hmem := by
    rcases h'.pending addr hmem with hold | ⟨hnew, hslot⟩
    · exact (h.pending addr hold).imp id fun hd => ⟨hd.1, h'.keeps _ hd.2⟩
    · refine .inr ⟨?_, hslot⟩
      exact Bool.eq_false_iff.mpr fun hm => by simp [h.keeps _ hm] at hnew
  distinct := h'.distinct ∘ h.distinct

theorem Admits.purged (h : Admits S m m') (hm : m.Purged) : m'.Purged := by
  intro addr hslot
  rw [isBanned, h.banned]
  exact (h.fresh addr hslot).elim (hm addr) And.right

variable {dials : List SocketAddr}

theorem handle_insert {guard : Bool} :
    ({ m with
      peers := m.peers.insert other guard
      pendingDials := dials } : PeerManager).handle addr ↔
      addr = other ∨ m.handle addr := by
  rw [handle, lookup_insert, handle]
  split_ifs with h
  · simp [h]
  · simp [h]

theorem handle_iff_mem : m.handle addr ↔ addr ∈ m.peers.keys :=
  AList.lookup_isSome.trans AList.mem_keys

theorem connectedCount_insert (h : m.handle addr = false) (guard : Bool) :
    (m.peers.insert addr guard).keys.length = m.connectedCount + 1 := by
  have hmem : addr ∉ m.peers.keys := by
    rw [← handle_iff_mem, h]
    exact Bool.false_ne_true
  rw [AList.keys_insert, erase_of_not_mem hmem, length_cons]
  rfl

theorem admits_insert (hmem : addr.ip ∈ S) (hban : m.isBanned addr.ip = false)
    (hslot : m.handle addr = false) (hroom : m.connectedCount < m.maxPeers)
    (guard : Bool) (hdials : ∀ a ∈ dials, a ∈ m.pendingDials ∨ a = addr)
    (hnodup : m.pendingDials.Nodup → dials.Nodup) :
    Admits S m { m with
      peers := m.peers.insert addr guard, pendingDials := dials } where
  banned := rfl
  violations := rfl
  limits := ⟨rfl, rfl⟩
  keeps a h := handle_insert.mpr (.inr h)
  fresh a h := by
    rcases handle_insert.mp h with rfl | h
    · exact .inr ⟨hmem, hban⟩
    · exact .inl h
  room _ := by
    rw [connectedCount, connectedCount_insert hslot]
    exact hroom
  pending a ha := by
    refine (hdials a ha).imp id ?_
    rintro rfl
    exact ⟨hslot, handle_insert.mpr (.inl rfl)⟩
  distinct := hnodup

theorem admits_spawnOutgoing {room ok : Bool} (hmem : addr.ip ∈ S)
    (hban : m.isBanned addr.ip = false) (hroom : m.connectedCount < m.maxPeers)
    (h : m.spawnOutgoing addr room = (m', ok)) : Admits S m m' := by
  rw [spawnOutgoing] at h
  split_ifs at h with hslot
  · cases h
    exact .refl m
  · cases h
    exact .refl m
  · split at h
    · cases h
      exact .refl m
    · cases h
      refine admits_insert hmem hban (Bool.eq_false_iff.mpr hslot) hroom _
        (fun a ha => ?_) fun hnodup => ?_
      · exact (mem_cons.mp ha).symm.imp mem_of_mem_filter id
      · refine nodup_cons.mpr ⟨?_, hnodup.filter _⟩
        simp

theorem admits_tryConnectMany (addrs : List (SocketAddr × Bool))
    (hmem : ∀ a ∈ addrs, a.1.ip ∈ S) : Admits S m (m.tryConnectMany addrs) := by
  induction addrs generalizing m with
  | nil => exact .refl m
  | cons a rest ih =>
    obtain ⟨ha, hrest⟩ := forall_mem_cons.mp hmem
    rw [tryConnectMany]
    split_ifs with hfull hslot hban
    · exact .refl m
    · exact ih hrest
    · exact ih hrest
    · have hban := Bool.eq_false_iff.mpr hban
      have hroom := Nat.lt_of_not_le hfull
      split
      next heq => exact admits_spawnOutgoing ha hban hroom heq
      next heq =>
        exact (admits_spawnOutgoing ha hban hroom heq).trans (ih hrest)

theorem admits_acceptIncoming (hmem : addr.ip ∈ S) (room : Bool) :
    Admits S m (m.acceptIncoming addr room) := by
  rw [acceptIncoming]
  split_ifs with hfull hban
  · exact .refl m
  · exact .refl m
  · obtain ⟨hroom, hslot⟩ := not_or.mp hfull
    split
    · exact .refl m
    · exact admits_insert hmem (Bool.eq_false_iff.mpr hban)
        (Bool.eq_false_iff.mpr hslot) (Nat.lt_of_not_le hroom) _
        (fun _ => .inl) id

theorem pendingDials_acceptIncoming (m : PeerManager) (addr : SocketAddr)
    (room : Bool) :
    (m.acceptIncoming addr room).pendingDials = m.pendingDials := by
  rw [acceptIncoming]
  split_ifs
  · rfl
  · rfl
  · split <;> rfl

/-! ## Removal -/

theorem handle_forget :
    (m.forget other).handle addr ↔ addr ≠ other ∧ m.handle addr := by
  rw [handle, forget, lookup_erase, handle]
  split_ifs with h
  · simp [h]
  · simp [h]

theorem connectedCount_forget :
    (m.forget addr).connectedCount ≤ m.connectedCount := by
  rw [connectedCount, forget, AList.keys_erase]
  exact length_erase_le

/-- A fold of `drop_peer` takes away the slots and the dials. -/
theorem foldl_dropPeer (addrs : List SocketAddr) (m : PeerManager) :
    ∃ peers : Dict SocketAddr Bool,
      addrs.foldl dropPeer m = { m with
        peers
        pendingDials := m.pendingDials.filter (· ∉ addrs) } ∧
      peers.keys.length ≤ m.connectedCount ∧
      ∀ addr, (peers.lookup addr).isSome ↔ addr ∉ addrs ∧ m.handle addr := by
  induction addrs generalizing m with
  | nil => exact ⟨m.peers, by simp, le_rfl, by simp [handle]⟩
  | cons a rest ih =>
    obtain ⟨peers, heq, hcount, hslots⟩ := ih (m.dropPeer a)
    refine ⟨peers, ?_, hcount.trans connectedCount_forget, fun addr => ?_⟩
    · rw [foldl_cons, heq, dropPeer]
      simp [filter_filter, Bool.and_comm]
    · have hdrop : (m.dropPeer a).handle addr ↔
          addr ≠ a ∧ m.handle addr := handle_forget
      rw [hslots, hdrop, mem_cons, not_or]
      tauto

/-- A ban takes away the slots of its host and the dials that have one. -/
theorem ban_cases (m : PeerManager) (ip : IpAddr) :
    ∃ peers dials, m.ban ip = { m with
        peers
        banned := if m.isBanned ip then m.banned else ip :: m.banned
        pendingDials := dials } ∧
      peers.keys.length ≤ m.connectedCount ∧
      (∀ addr, (peers.lookup addr).isSome ↔ addr.ip ≠ ip ∧ m.handle addr) ∧
      dials.Sublist m.pendingDials ∧
      ∀ addr ∈ dials, ¬ (addr.ip = ip ∧ m.handle addr) := by
  obtain ⟨peers, heq, hcount, hslots⟩ := foldl_dropPeer
    (m.addrs.filter fun a => a.ip = ip)
    { m with banned := if m.isBanned ip then m.banned else ip :: m.banned }
  have hmem {addr : SocketAddr} : addr ∈ m.addrs.filter (fun a => a.ip = ip) ↔
        addr.ip = ip ∧ m.handle addr := by
    rw [mem_filter, addrs, ← handle_iff_mem, decide_eq_true_eq, and_comm]
  refine ⟨peers, _, heq, hcount, fun addr => ?_, filter_sublist,
    fun addr ha => ?_⟩
  · rw [hslots, hmem]
    change ¬ (_ ∧ m.handle addr) ∧ m.handle addr ↔ _
    tauto
  · rw [← hmem]
    exact of_decide_eq_true (mem_filter.mp ha).2

theorem isBanned_ban {ip' : IpAddr} :
    (m.ban ip).isBanned ip' ↔ ip' = ip ∨ m.isBanned ip' := by
  obtain ⟨peers, dials, heq, -⟩ := m.ban_cases ip
  rw [heq]
  change List.contains (if m.isBanned ip then _ else _) ip' = true ↔
    ip' = ip ∨ m.banned.contains ip' = true
  by_cases hban : m.isBanned ip = true
  · rw [if_pos hban, or_iff_right_of_imp]
    rintro rfl
    exact hban
  · rw [if_neg hban, contains_cons]
    simp

theorem handle_ban : (m.ban ip).handle addr ↔ addr.ip ≠ ip ∧ m.handle addr := by
  obtain ⟨peers, dials, heq, -, hslots, -⟩ := m.ban_cases ip
  rw [heq]
  exact hslots addr

theorem Purged.ban (h : m.Purged) (ip : IpAddr) : (m.ban ip).Purged := by
  intro addr hslot
  obtain ⟨hne, hslot⟩ := handle_ban.mp hslot
  rw [Bool.eq_false_iff]
  intro hban
  rcases isBanned_ban.mp hban with heq | hban
  · exact hne heq
  · rw [h addr hslot] at hban
    cases hban

/-- The violations that still count at a time. -/
def recent (now : ℕ) (times : List ℕ) : List ℕ :=
  times.filter fun t => now - t ≤ violationWindow

theorem recent_recent {now later : ℕ} (h : now ≤ later) (times : List ℕ) :
    recent later (recent now times) = recent later times := by
  rw [recent, recent, recent, filter_filter]
  refine filter_congr fun t _ => ?_
  simp only [← Bool.decide_and, decide_eq_decide]
  omega

theorem recent_append (now : ℕ) (times times' : List ℕ) :
    recent now (times ++ times') = recent now times ++ recent now times' :=
  filter_append ..

/-- One more violation of a host that is not banned is one too many. -/
def banDue (m : PeerManager) (ip : IpAddr) (now : ℕ) : Bool :=
  !m.isBanned ip && decide (violationBanThreshold ≤
    (recent now ((m.violations.lookup ip).getD [])).length + 1)

/-- The table after a violation. -/
def noted (m : PeerManager) (ip : IpAddr) (now : ℕ) :
    Dict IpAddr (List ℕ) :=
  if m.isBanned ip then m.violations
  else m.violations.insert ip
    (recent now ((m.violations.lookup ip).getD []) ++ [now])

section

variable (m : PeerManager) (ip : IpAddr)

/-- A violation is noted, and it may be one too many. -/
theorem recordViolation_eq (now : ℕ) :
    m.recordViolation ip now =
      if m.banDue ip now then
        ({ m with violations := m.noted ip now } : PeerManager).ban ip
      else { m with violations := m.noted ip now } := by
  rw [recordViolation, banDue, noted]
  by_cases hban : m.isBanned ip = true
  · rw [if_pos hban, hban]
    rfl
  · rw [if_neg hban, if_neg hban, Bool.eq_false_iff.mpr hban]
    simp only [length_append, length_singleton, Bool.not_false,
      Bool.true_and, decide_eq_true_eq]
    rfl

theorem violations_ban : (m.ban ip).violations = m.violations := by
  obtain ⟨peers, dials, heq, -⟩ := m.ban_cases ip
  rw [heq]

theorem violations_recordViolation (now : ℕ)
    : (m.recordViolation ip now).violations = m.noted ip now := by
  rw [recordViolation_eq]
  split
  · exact violations_ban _ ip
  · rfl

end

theorem lookup_gcViolations (now : ℕ) :
    ((m.gcViolations now).violations.lookup ip).getD [] =
      recent now ((m.violations.lookup ip).getD []) := by
  rw [gcViolations, lookup_retain, lookup_mapValues]
  cases m.violations.lookup ip with
  | none => rfl
  | some times =>
    rw [Option.map_some, Option.getD_some, Option.filter_some]
    split_ifs with h
    · rfl
    · simp only [Bool.not_eq_true, Bool.not_eq_false', List.isEmpty_iff] at h
      exact h.symm

/-! ## Operations -/

/-- An operation, with the answers of the shared cap and the time. -/
inductive Op where
  | tryConnectMany (addrs : List (SocketAddr × Bool))
  | noteEstablished (addr : SocketAddr)
  | acceptIncoming (addr : SocketAddr) (room : Bool)
  | forget (addr : SocketAddr)
  | dropPeer (addr : SocketAddr)
  | ban (ip : IpAddr)
  | recordViolation (ip : IpAddr) (now : ℕ)
  | gcViolations (now : ℕ)

/-- The IPs that an operation names. -/
def Op.ips : Op → List IpAddr
  | .tryConnectMany addrs => addrs.map fun a => a.1.ip
  | .noteEstablished addr | .acceptIncoming addr _ => [addr.ip]
  | .forget addr | .dropPeer addr => [addr.ip]
  | .ban ip | .recordViolation ip _ => [ip]
  | .gcViolations _ => []

/-- The time that an operation reads. -/
def Op.time : Op → Option ℕ
  | .recordViolation _ now | .gcViolations now => some now
  | _ => none

/-- The operation on a manager. -/
def apply (m : PeerManager) : Op → PeerManager
  | .tryConnectMany addrs => m.tryConnectMany addrs
  | .noteEstablished addr => m.noteEstablished addr
  | .acceptIncoming addr room => m.acceptIncoming addr room
  | .forget addr => m.forget addr
  | .dropPeer addr => m.dropPeer addr
  | .ban ip => m.ban ip
  | .recordViolation ip now => m.recordViolation ip now
  | .gcViolations now => m.gcViolations now

/-- Slots and dials are only taken away, a dial before or with its slot unless
it is that of `lost`, and only hosts of `S` are banned. -/
structure Sheds (S : Set IpAddr) (lost : Option SocketAddr)
    (m m' : PeerManager) : Prop where
  limits : m'.maxPeers = m.maxPeers ∧ m'.globalCap = m.globalCap
  slots : ∀ addr, m'.handle addr → m.handle addr
  count : m'.connectedCount ≤ m.connectedCount
  pending : m'.pendingDials.Sublist m.pendingDials
  kept : ∀ addr ∈ m'.pendingDials, m.handle addr → m'.handle addr ∨
    lost = some addr
  purged : m.Purged → m'.Purged
  lasting : ∀ ip, m.isBanned ip → m'.isBanned ip
  bans : ∀ ip, m'.isBanned ip → m.isBanned ip ∨ ip ∈ S

theorem sheds_ban (m : PeerManager) (hip : ip ∈ S) :
    Sheds S none m (m.ban ip) := by
  refine { limits := ?_, slots := fun _ h => (handle_ban.mp h).2, count := ?_,
           pending := ?_, kept := fun addr ha hslot => .inl ?_,
           purged := (·.ban ip),
           lasting := fun _ h => isBanned_ban.mpr (.inr h),
           bans := fun _ h => (isBanned_ban.mp h).symm.imp id fun h => by rwa [h] }
  all_goals
    obtain ⟨peers, dials, heq, hcount, -, hsub, hdials⟩ := m.ban_cases ip
  · rw [heq]
    exact ⟨rfl, rfl⟩
  · rw [heq]
    exact hcount
  · rw [heq]
    exact hsub
  · rw [heq] at ha
    exact handle_ban.mpr ⟨fun hip => hdials addr ha ⟨hip, hslot⟩, hslot⟩

theorem sheds_violations {violations : Dict IpAddr (List ℕ)}
    (h : dials.Sublist m.pendingDials) :
    Sheds S none m { m with violations, pendingDials := dials } where
  limits := ⟨rfl, rfl⟩
  slots _ := id
  count := le_rfl
  pending := h
  kept _ _ := .inl
  purged := id
  lasting _ := id
  bans _ := .inl

theorem sheds_recordViolation (m : PeerManager) (hip : ip ∈ S) (now : ℕ) :
    Sheds S none m (m.recordViolation ip now) := by
  have hnoted : Sheds S none m { m with violations := m.noted ip now } :=
    sheds_violations (List.Sublist.refl _)
  rw [recordViolation_eq]
  split
  · exact { sheds_ban { m with violations := m.noted ip now } hip with }
  · exact hnoted

theorem sheds_forget (m : PeerManager) (addr : SocketAddr) :
    Sheds S (some addr) m (m.forget addr) where
  limits := ⟨rfl, rfl⟩
  slots _ h := (handle_forget.mp h).2
  count := connectedCount_forget
  pending := List.Sublist.refl _
  kept other _ hslot := by
    by_cases heq : other = addr
    · exact .inr (heq ▸ rfl)
    · exact .inl (handle_forget.mpr ⟨heq, hslot⟩)
  purged h other hslot := h other (handle_forget.mp hslot).2
  lasting _ := id
  bans _ := .inl

theorem sheds_dropPeer (m : PeerManager) (addr : SocketAddr) :
    Sheds S none m (m.dropPeer addr) where
  limits := ⟨rfl, rfl⟩
  slots _ h := (handle_forget.mp h).2
  count := connectedCount_forget
  pending := filter_sublist
  kept other ha hslot := by
    have hne : other ≠ addr := of_decide_eq_true (mem_filter.mp ha).2
    exact .inl (handle_forget.mpr ⟨hne, hslot⟩)
  purged h other hslot := h other (handle_forget.mp hslot).2
  lasting _ := id
  bans _ := .inl

/-- The address whose slot is taken away without its dial. -/
def Op.forgets : Op → Option SocketAddr
  | .forget addr => some addr
  | _ => none

/-- Whether an operation admits peers. -/
def Op.admits : Op → Bool
  | .tryConnectMany _ | .acceptIncoming _ _ => true
  | _ => false

theorem admits_apply {op : Op} (m : PeerManager) (hop : op.admits = true)
    (hS : ∀ ip ∈ op.ips, ip ∈ S) : Admits S m (m.apply op) := by
  cases op with
  | tryConnectMany addrs =>
    exact admits_tryConnectMany addrs fun a ha =>
      hS _ (mem_map_of_mem ha)
  | acceptIncoming addr room =>
    exact admits_acceptIncoming (hS _ mem_cons_self) room
  | _ => cases hop

theorem sheds_apply {op : Op} (m : PeerManager) (hop : op.admits = false)
    (hS : ∀ ip ∈ op.ips, ip ∈ S) : Sheds S op.forgets m (m.apply op) := by
  cases op with
  | tryConnectMany addrs => cases hop
  | acceptIncoming addr room => cases hop
  | noteEstablished addr => exact sheds_violations filter_sublist
  | gcViolations now => exact sheds_violations (List.Sublist.refl _)
  | forget addr => exact sheds_forget m addr
  | dropPeer addr => exact sheds_dropPeer m addr
  | ban ip => exact sheds_ban m (hS ip mem_cons_self)
  | recordViolation ip now =>
    exact sheds_recordViolation m (hS ip mem_cons_self) now

/-- An operation admits peers or takes slots away. -/
theorem apply_cases (m : PeerManager) (op : Op) (hS : ∀ ip ∈ op.ips, ip ∈ S) :
    Admits S m (m.apply op) ∨ Sheds S op.forgets m (m.apply op) := by
  cases hop : op.admits with
  | true => exact .inl (m.admits_apply hop hS)
  | false => exact .inr (m.sheds_apply hop hS)

/-! ## Runs -/

/-- The manager and what a run has done with it: the time, the slots that
still wait for an outgoing handshake and the violations recorded. -/
structure Watched where
  manager : PeerManager
  clock : ℕ
  dialing : List SocketAddr
  strikes : List (IpAddr × ℕ)

namespace Watched

variable {w : Watched} {op : Op}

/-- A new manager. -/
def start (maxPeers : ℕ) (globalCap : Bool) : Watched :=
  ⟨.new maxPeers globalCap, 0, [], []⟩

/-- The next state. -/
def next (w : Watched) (op : Op) : Watched where
  manager := w.manager.apply op
  clock := op.time.getD w.clock
  dialing :=
    match op with
    | .tryConnectMany addrs =>
      (w.manager.tryConnectMany addrs).addrs.filter (!w.manager.handle ·) ++
        w.dialing
    | .noteEstablished addr => w.dialing.filter (· ≠ addr)
    | op => w.dialing.filter (w.manager.apply op).handle
  strikes :=
    match op with
    | .recordViolation ip now =>
      if w.manager.isBanned ip then w.strikes else w.strikes ++ [(ip, now)]
    | _ => w.strikes

/-- The recorded violations of the hosts that `p` selects. -/
def struck (strikes : List (IpAddr × ℕ)) (p : IpAddr → Bool) : List ℕ :=
  (strikes.filter fun s => p s.1).map Prod.snd

end Watched

/-- Runs of a manager; the clock does not go back. -/
def operations : System Watched Op where
  next := Watched.next
  may w op := w.clock ≤ op.time.getD w.clock

instance (w : Watched) (op : Op) : Decidable (operations.may w op) :=
  inferInstanceAs (Decidable (w.clock ≤ op.time.getD w.clock))

namespace Watched

variable {w : Watched} {op : Op}

/-- What holds in every run: no banned host has a slot, there are no more
slots than permitted, and the table counts the violations that are recent. -/
structure Tracks (w : Watched) : Prop where
  purged : w.manager.Purged
  room : w.manager.connectedCount ≤ w.manager.maxPeers
  counted : ∀ ip now, w.manager.isBanned ip = false → w.clock ≤ now →
    recent now ((w.manager.violations.lookup ip).getD []) =
      recent now (struck w.strikes (decide <| · = ip))

theorem Tracks.start (maxPeers : ℕ) (globalCap : Bool) :
    (start maxPeers globalCap).Tracks :=
  ⟨nofun, Nat.zero_le _, fun _ _ _ _ => rfl⟩

theorem lasting_apply {m : PeerManager} (op : Op) (h : m.isBanned ip) :
    (m.apply op).isBanned ip := by
  rcases m.apply_cases op fun _ _ => Set.mem_univ _ with hadds | hshed
  · rwa [isBanned, hadds.banned]
  · exact hshed.lasting ip h

theorem struck_snoc {strikes : List (IpAddr × ℕ)} {p : IpAddr → Bool}
    {now : ℕ} :
    struck (strikes ++ [(ip, now)]) p =
      struck strikes p ++ if p ip then [now] else [] := by
  rw [struck, struck, filter_append, map_append]
  cases h : p ip <;> simp [h]

theorem Tracks.counted_next (h : w.Tracks) (hmay : operations.may w op)
    (ip : IpAddr) (now : ℕ) (hban : (w.next op).manager.isBanned ip = false)
    (hnow : (w.next op).clock ≤ now) :
    recent now (((w.next op).manager.violations.lookup ip).getD []) =
      recent now (struck (w.next op).strikes (decide <| · = ip)) := by
  have hold : w.manager.isBanned ip = false := by
    rw [Bool.eq_false_iff] at hban ⊢
    exact mt (lasting_apply op) hban
  have hsame := h.counted ip now hold (hmay.trans hnow)
  have hkept (heq : (w.manager.apply op).violations = w.manager.violations)
      (hs : (w.next op).strikes = w.strikes) :
      recent now (((w.next op).manager.violations.lookup ip).getD []) =
        recent now (struck (w.next op).strikes (decide <| · = ip)) := by
    change recent now (((w.manager.apply op).violations.lookup ip).getD []) = _
    rw [heq, hs]
    exact hsame
  cases op with
  | tryConnectMany addrs =>
    have hadds := admits_tryConnectMany (m := w.manager) addrs
      fun _ _ => Set.mem_univ _
    exact hkept hadds.violations rfl
  | acceptIncoming addr room =>
    exact hkept (admits_acceptIncoming (Set.mem_univ _) room).violations rfl
  | ban ip' => exact hkept (violations_ban _ _) rfl
  | recordViolation ip' now' =>
    have hclock : now' ≤ now := hnow
    change recent now (((w.manager.recordViolation ip' now').violations.lookup
      ip).getD []) = recent now (struck (if _ then _ else _) _)
    rw [violations_recordViolation, noted]
    by_cases hb : w.manager.isBanned ip' = true
    · rw [if_pos hb, if_pos hb]
      exact hsame
    · rw [if_neg hb, if_neg hb, lookup_insert, struck_snoc]
      by_cases heq : ip = ip'
      · subst heq
        rw [if_pos rfl, if_pos (decide_eq_true rfl), Option.getD_some,
          recent_append, recent_append, recent_recent hclock, hsame]
      · rw [if_neg heq, if_neg (by simpa using Ne.symm heq), append_nil]
        exact hsame
  | gcViolations now' =>
    have hclock : now' ≤ now := hnow
    change recent now (((w.manager.gcViolations now').violations.lookup
      ip).getD []) = _
    rw [lookup_gcViolations, recent_recent hclock]
    exact hsame
  | _ => exact hkept rfl rfl

theorem Tracks.next (h : w.Tracks) (hmay : operations.may w op) :
    (w.next op).Tracks := by
  refine ⟨?_, ?_, fun ip now => h.counted_next hmay ip now⟩ <;>
    rcases w.manager.apply_cases op fun _ _ => Set.mem_univ _ with
      hadds | hshed
  · exact hadds.purged h.purged
  · exact hshed.purged h.purged
  · exact (hadds.room h.room).trans hadds.limits.1.ge
  · exact (hshed.count.trans h.room).trans hshed.limits.1.ge

/-- A violation bans its host if the host is banned or the violation is the
third recent one. -/
theorem Tracks.isBanned_recordViolation (h : w.Tracks) {now : ℕ}
    (hnow : w.clock ≤ now) :
    (w.manager.recordViolation ip now).isBanned ip ↔
      w.manager.isBanned ip ∨ violationBanThreshold ≤
        (recent now (struck w.strikes (decide <| · = ip))).length + 1 := by
  cases hban : w.manager.isBanned ip with
  | true =>
    exact iff_of_true (lasting_apply (.recordViolation ip now) hban) (.inl rfl)
  | false =>
    rw [recordViolation_eq, banDue, hban, h.counted ip now hban hnow]
    simp only [Bool.not_false, Bool.true_and, decide_eq_true_eq,
      Bool.false_eq_true, false_or]
    split_ifs with hdue
    · exact iff_of_true (isBanned_ban.mpr (.inl rfl)) hdue
    · refine iff_of_false ?_ hdue
      change ¬ w.manager.isBanned ip = true
      rw [hban]
      exact Bool.false_ne_true

/-! ## The gate -/

/-- Every pending dial has a slot that waits for its handshake. -/
structure Gated (w : Watched) : Prop where
  distinct : w.manager.pendingDials.Nodup
  waits : ∀ addr ∈ w.manager.pendingDials,
    w.manager.handle addr ∧ addr ∈ w.dialing

/-- No slot is forgotten while its dial is pending. -/
def ForgetsSettled (w : Watched) (op : Op) : Prop :=
  ∀ addr ∈ op.forgets, addr ∉ w.manager.pendingDials

theorem Gated.next (h : w.Gated) (hop : w.ForgetsSettled op) :
    (w.next op).Gated := by
  have hsheds (hs : Sheds .univ op.forgets w.manager (w.manager.apply op))
      (hd : ∀ addr ∈ (w.manager.apply op).pendingDials,
        (w.manager.apply op).handle addr → addr ∈ w.dialing →
          addr ∈ (w.next op).dialing) : (w.next op).Gated := by
    refine ⟨h.distinct.sublist hs.pending, fun addr ha => ?_⟩
    have hpending := hs.pending.subset ha
    obtain ⟨hslot, hwaits⟩ := h.waits addr hpending
    have hkept := (hs.kept addr ha hslot).resolve_right fun hlost =>
      hop addr hlost hpending
    exact ⟨hkept, hd addr ha hkept hwaits⟩
  have hfilter {dials : List SocketAddr} {addr : SocketAddr}
      (hslot : (w.manager.apply op).handle addr) (ha : addr ∈ dials) :
      addr ∈ dials.filter (w.manager.apply op).handle :=
    mem_filter.mpr ⟨ha, hslot⟩
  cases op with
  | tryConnectMany addrs =>
    have hadds := admits_tryConnectMany (m := w.manager) addrs
      fun _ _ => Set.mem_univ _
    refine ⟨hadds.distinct h.distinct, fun addr ha => ?_⟩
    rcases hadds.pending addr ha with hold | ⟨hnew, hslot⟩
    · obtain ⟨hslot, hwaits⟩ := h.waits addr hold
      exact ⟨hadds.keeps addr hslot, mem_append_right _ hwaits⟩
    · refine ⟨hslot, mem_append_left _ (mem_filter.mpr ⟨?_, ?_⟩)⟩
      · exact handle_iff_mem.mp hslot
      · rw [hnew]
        rfl
  | acceptIncoming addr room =>
    have hadds := admits_acceptIncoming (m := w.manager)
      (Set.mem_univ addr.ip) room
    have hsame := pendingDials_acceptIncoming w.manager addr room
    refine ⟨hsame ▸ h.distinct, fun a ha => ?_⟩
    obtain ⟨hslot, hwaits⟩ := h.waits a (hsame ▸ ha)
    have hslot := hadds.keeps a hslot
    exact ⟨hslot, hfilter hslot hwaits⟩
  | noteEstablished addr =>
    refine hsheds (sheds_violations filter_sublist) fun a ha _ hwaits => ?_
    exact mem_filter.mpr ⟨hwaits, (mem_filter.mp ha).2⟩
  | _ =>
    exact hsheds (w.manager.sheds_apply rfl fun _ _ => Set.mem_univ _)
      fun _ _ => hfilter

/-- A pending dial is one in progress, and the gate is open while fewer dials
than it permits are in progress. -/
theorem pendingDials_in_progress {maxPeers : ℕ} {globalCap : Bool}
    {ops : List Op}
    (hrun : operations.Allowed (start maxPeers globalCap) ops)
    (hforget : operations.Along ForgetsSettled (start maxPeers globalCap) ops) :
    let w := operations.after (start maxPeers globalCap) ops
    (∀ addr ∈ w.manager.pendingDials,
      w.manager.handle addr ∧ addr ∈ w.dialing) ∧
    (w.dialing.length < maxPendingOutgoingDials →
      w.manager.pendingDials.length < maxPendingOutgoingDials) := by
  intro w
  have hstart : (start maxPeers globalCap).Gated := ⟨List.nodup_nil, nofun⟩
  have hgated : w.Gated :=
    System.Along.invariant (fun _ _ h _ hop => h.next hop) hstart hrun hforget
  refine ⟨hgated.waits, fun hlt => lt_of_le_of_lt ?_ hlt⟩
  refine (List.subperm_of_subset hgated.distinct fun addr ha => ?_).length_le
  exact (hgated.waits addr ha).2

instance (w : Watched) (op : Op) : Decidable (w.ForgetsSettled op) :=
  inferInstanceAs (Decidable (∀ addr ∈ op.forgets, _))

/-- The loopback host. -/
def localHost (port : UInt16) : SocketAddr := ⟨.localhost, port⟩

theorem pendingDials_in_progress_example :
    let ops := [Op.tryConnectMany [(localHost 1, true)],
      .noteEstablished (localHost 1), .forget (localHost 1)]
    let w := operations.after (start 50 false) ops
    (∀ addr ∈ w.manager.pendingDials,
      w.manager.handle addr ∧ addr ∈ w.dialing) ∧
    (w.dialing.length < maxPendingOutgoingDials →
      w.manager.pendingDials.length < maxPendingOutgoingDials) :=
  pendingDials_in_progress (by decide +kernel) (by decide +kernel)

/-- Eight dials fail and their slots are forgotten; none is in progress, and
the gate is closed. -/
theorem pendingDials_after_failed_dials :
    let addrs := [1, 2, 3, 4, 5, 6, 7, 8].map localHost
    let ops := Op.tryConnectMany (addrs.map (·, true)) ::
      addrs.map Op.forget ++ [.tryConnectMany [(localHost 9, true)]]
    let w := operations.after (start 50 false) ops
    operations.Allowed (start 50 false) ops ∧
      w.manager.addrs = [] ∧ w.dialing = [] ∧
      w.manager.pendingDials.length = maxPendingOutgoingDials := by
  decide +kernel

/-! ## Bans -/

/-- The hosts with slots, bans or strikes are in `S`. -/
structure Named (S : Set IpAddr) (w : Watched) : Prop where
  slots : ∀ addr, w.manager.handle addr → addr.ip ∈ S
  banned : ∀ ip, w.manager.isBanned ip → ip ∈ S
  strikes : ∀ s ∈ w.strikes, s.1 ∈ S

theorem Named.start {S : Set IpAddr} (maxPeers : ℕ) (globalCap : Bool) :
    (start maxPeers globalCap).Named S :=
  ⟨nofun, nofun, nofun⟩

theorem Named.next {S : Set IpAddr} (h : w.Named S)
    (hop : ∀ ip ∈ op.ips, ip ∈ S) : (w.next op).Named S := by
  have hcases := w.manager.apply_cases op hop
  refine ⟨fun addr hslot => ?_, fun ip hban => ?_, fun s hs => ?_⟩
  · rcases hcases with hadds | hshed
    · exact (hadds.fresh addr hslot).elim (h.slots addr) And.left
    · exact h.slots addr (hshed.slots addr hslot)
  · rcases hcases with hadds | hshed
    · exact h.banned ip (by rwa [isBanned, ← hadds.banned])
    · exact (hshed.bans ip hban).elim (h.banned ip) id
  · cases op with
    | recordViolation ip now =>
      change s ∈ if _ then _ else _ at hs
      split_ifs at hs
      · exact h.strikes s hs
      · rcases mem_append.mp hs with hs | hs
        · exact h.strikes s hs
        · rw [mem_singleton.mp hs]
          exact hop ip mem_cons_self
    | _ => exact h.strikes s hs

/-- Two IPs are forms of one host. -/
def SameHost (ip ip' : IpAddr) : Prop :=
  Util.unwrapMapped ip = Util.unwrapMapped ip'

instance (ip ip' : IpAddr) : Decidable (SameHost ip ip') :=
  inferInstanceAs (Decidable (_ = _))

/-- Bans hold per host, and the violations of a host count together: `ips` are
those that may come next. -/
structure HoldsPerHost (ips : Set IpAddr) (w : Watched) : Prop where
  apart : ∀ addr, w.manager.handle addr →
    ∀ ip, w.manager.isBanned ip → ¬ SameHost addr.ip ip
  lasting : ∀ ip op, w.manager.isBanned ip →
    (w.manager.apply op).isBanned ip
  together : ∀ ip ∈ ips, ∀ now, w.clock ≤ now →
    ((∃ b, SameHost ip b ∧ (w.manager.recordViolation ip now).isBanned b) ↔
      (∃ b, SameHost ip b ∧ w.manager.isBanned b) ∨ violationBanThreshold ≤
        (recent now (struck w.strikes (decide <| SameHost ip ·))).length + 1)

/-- Bans hold per host as long as every host is named in one form. -/
theorem bans_hold_per_host {maxPeers : ℕ} {globalCap : Bool} {ops : List Op}
    {S : Set IpAddr} (hS : S.InjOn Util.unwrapMapped)
    (hrun : operations.Allowed (start maxPeers globalCap) ops)
    (hops : operations.Along (fun _ op => ∀ ip ∈ op.ips, ip ∈ S)
      (start maxPeers globalCap) ops) :
    HoldsPerHost S (operations.after (start maxPeers globalCap) ops) := by
  have htracks := System.Along.invariant (I := Tracks)
    (fun _ _ h hmay _ => h.next hmay) (.start maxPeers globalCap) hrun hops
  have hnamed := System.Along.invariant (I := Named S)
    (fun _ _ h _ hop => h.next hop) (.start maxPeers globalCap) hrun hops
  set w := operations.after (start maxPeers globalCap) ops
  have hform {ip ip' : IpAddr} (h : ip ∈ S) (h' : ip' ∈ S) :
      SameHost ip ip' ↔ ip' = ip :=
    ⟨fun hhost => (hS h h' hhost).symm, fun heq => heq ▸ rfl⟩
  refine ⟨fun addr hslot ip hban hhost => ?_, fun ip op => lasting_apply op,
    fun ip hip now hnow => ?_⟩
  · rw [hform (hnamed.slots addr hslot) (hnamed.banned ip hban)] at hhost
    have hpurged := htracks.purged addr hslot
    rw [← hhost, hban] at hpurged
    cases hpurged
  · have hstruck : struck w.strikes (decide <| SameHost ip ·) =
        struck w.strikes (decide <| · = ip) := by
      refine congrArg (List.map Prod.snd) (List.filter_congr fun s hs => ?_)
      rw [decide_eq_decide]
      exact hform hip (hnamed.strikes s hs)
    have hforms {m : PeerManager} (hm : ∀ b, m.isBanned b → b ∈ S) :
        (∃ b, SameHost ip b ∧ m.isBanned b) ↔ m.isBanned ip := by
      refine ⟨fun ⟨b, hhost, hb⟩ => ?_, fun hb => ⟨ip, rfl, hb⟩⟩
      rwa [← (hform hip (hm b hb)).mp hhost]
    rw [hstruck, hforms hnamed.banned, hforms fun b hb =>
      ((sheds_recordViolation w.manager hip now).bans b hb).elim
        (hnamed.banned b) id]
    exact htracks.isBanned_recordViolation hnow

theorem bans_hold_per_host_example :
    HoldsPerHost {(localHost 1).ip} (operations.after (start 50 false)
      [.acceptIncoming (localHost 1) true,
        .recordViolation (localHost 1).ip 5]) :=
  bans_hold_per_host (Set.injOn_singleton _ _) (by decide +kernel)
    (by simp [System.Along, Op.ips])

/-- The loopback host as an IPv4-mapped address. -/
def mappedHost (port : UInt16) : SocketAddr :=
  ⟨.v6 #v[0, 0, 0, 0, 0, 0, 0, 0, 0, 0, 0xFF, 0xFF, 127, 0, 0, 1], port⟩

/-- A banned host is admitted under its other form. -/
theorem ban_misses_mapped_form :
    let ops := [.ban (localHost 1).ip, .acceptIncoming (mappedHost 1) true]
    let w := operations.after (start 50 false) ops
    operations.Allowed (start 50 false) ops ∧ w.manager.handle (mappedHost 1) ∧
      w.manager.isBanned (localHost 1).ip ∧
      SameHost (mappedHost 1).ip (localHost 1).ip := by
  decide +kernel

end Watched

end RustyTorrent.Peer.PeerManager
