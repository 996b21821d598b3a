import RustyTorrent.Metainfo.Torrent
import RustyTorrent.Peer.Extension

/-!
# The peer store of the DHT node

`dht/server.rs`: for each info-hash the addresses announced for it, with the
time of the announce.  Both levels are bounded, and an address that has to make
room is the one announced longest ago (`peerStore_bounded`).
-/

namespace RustyTorrent.Dht

open Metainfo List

/-- `ANNOUNCE_TTL`, in nanoseconds. -/
def announceTtl : ℕ := 30 * 60 * 10 ^ 9

def maxInfoHashes : ℕ := 16384

def maxPeersPerInfoHash : ℕ := 256

/-- The addresses under one info-hash, each with the time of its announce. -/
abbrev PeerEntry := List (SocketAddr × ℕ)

/-- The info-hashes in the map, and the entry of each.  An info-hash that is
not in the map has the default entry. -/
structure PeerStore where
  hashes : List Digest
  entry : Digest → PeerEntry

/-- The entry with the address pushed, before it is trimmed. -/
def PeerEntry.push (addr : SocketAddr) (now : ℕ) (entry : PeerEntry) :
    PeerEntry :=
  entry.filter (fun p => p.1 ≠ addr) ++ [(addr, now)]

def PeerEntry.announce (addr : SocketAddr) (now : ℕ) (entry : PeerEntry) :
    PeerEntry :=
  -- Nothing is drained when the entry is not too long.
  (entry.push addr now).drop
    ((entry.push addr now).length - maxPeersPerInfoHash)

namespace PeerStore

def recordAnnounce (store : PeerStore) (infoHash : Digest) (addr : SocketAddr)
    (now : ℕ) : PeerStore :=
  if store.hashes.length < maxInfoHashes ∨ infoHash ∈ store.hashes then
    ⟨store.hashes.insert infoHash, Function.update store.entry infoHash
      ((store.entry infoHash).announce addr now)⟩
  else store

def prunePeerStore (store : PeerStore) (now : ℕ) : PeerStore :=
  let entry hash := (store.entry hash).filter fun p => now - p.2 ≤ announceTtl
  ⟨store.hashes.filter fun hash => !(entry hash).isEmpty, entry⟩

end PeerStore

inductive StoreOp where
  | announce (infoHash : Digest) (addr : SocketAddr) (now : ℕ)
  | prune (now : ℕ)

namespace StoreOp

def now : StoreOp → ℕ
  | .announce _ _ now | .prune now => now

def apply (store : PeerStore) : StoreOp → PeerStore
  | .announce infoHash addr now => store.recordAnnounce infoHash addr now
  | .prune now => store.prunePeerStore now

/-- The time of the announce of an address under an info-hash. -/
def announced (infoHash : Digest) (addr : SocketAddr) : StoreOp → Option ℕ
  | .announce infoHash' addr' now =>
    if infoHash' = infoHash ∧ addr' = addr then some now else none
  | .prune _ => none

end StoreOp

/-- The time of the latest announce. -/
def latest (ops : List StoreOp) (infoHash : Digest) (addr : SocketAddr) :
    Option ℕ :=
  (ops.filterMap (StoreOp.announced infoHash addr)).getLast?

/-- An entry whose addresses are those of the latest announces, oldest first
and each once. -/
structure PeerEntry.Kept (ops : List StoreOp) (infoHash : Digest)
    (entry : PeerEntry) : Prop where
  length_le : entry.length ≤ maxPeersPerInfoHash
  apart : entry.Pairwise fun p r => p.1 ≠ r.1 ∧ p.2 ≤ r.2
  latest : ∀ p ∈ entry, latest ops infoHash p.1 = some p.2

structure PeerStore.Kept (ops : List StoreOp) (store : PeerStore) : Prop where
  length_le : store.hashes.length ≤ maxInfoHashes
  nodup : store.hashes.Nodup
  absent : ∀ hash ∉ store.hashes, store.entry hash = []
  entries : ∀ hash, (store.entry hash).Kept ops hash

/-- The clock does not go back. -/
def Timely (ops : List StoreOp) : Prop :=
  ops.Pairwise fun op op' => op.now ≤ op'.now

instance (ops : List StoreOp) : Decidable (Timely ops) :=
  inferInstanceAs (Decidable (Pairwise _ _))

section

variable {ops : List StoreOp} {op : StoreOp} {infoHash : Digest}
  {addr : SocketAddr} {now : ℕ} {entry : PeerEntry} {store : PeerStore}

theorem latest_append : latest (ops ++ [op]) infoHash addr =
    (op.announced infoHash addr).or (latest ops infoHash addr) := by
  cases h : op.announced infoHash addr <;> simp [latest, h]

theorem latest_le (h : Timely (ops ++ [op]))
    (hlatest : latest ops infoHash addr = some now) : now ≤ op.now := by
  obtain ⟨o, ho, hnow⟩ := mem_filterMap.mp (mem_of_getLast? hlatest)
  have hle : o.now ≤ op.now := (pairwise_append.mp h).2.2 o ho op (by simp)
  cases o with
  | announce =>
    rw [StoreOp.announced, Option.ite_none_right_eq_some] at hnow
    obtain rfl : _ = now := Option.some.inj hnow.2
    exact hle
  | prune => cases hnow

namespace PeerEntry

theorem Kept.nil : PeerEntry.Kept ops infoHash [] :=
  ⟨Nat.zero_le _, .nil, fun p hp => by cases hp⟩

theorem Kept.sublist (h : entry.Kept ops infoHash) {entry' : PeerEntry}
    (hsub : entry' <+ entry) : entry'.Kept ops infoHash :=
  ⟨hsub.length_le.trans h.length_le, h.apart.sublist hsub,
    fun p hp => h.latest p (hsub.subset hp)⟩

theorem Kept.append (h : entry.Kept ops infoHash)
    (hop : ∀ addr, op.announced infoHash addr = none) :
    entry.Kept (ops ++ [op]) infoHash :=
  ⟨h.length_le, h.apart, fun p hp => by
    rw [latest_append, hop, Option.none_or, h.latest p hp]⟩

section

variable (h : entry.Kept ops infoHash)
  (htime : Timely (ops ++ [.announce infoHash addr now]))

include h htime

theorem Kept.push_apart :
    (entry.push addr now).Pairwise fun p r => p.1 ≠ r.1 ∧ p.2 ≤ r.2 := by
  refine pairwise_append.mpr ⟨h.apart.filter _, pairwise_singleton _ _, ?_⟩
  intro p hp r hr
  obtain rfl := mem_singleton.mp hr
  obtain ⟨hp, hne⟩ := mem_filter.mp hp
  exact ⟨of_decide_eq_true hne, latest_le htime (h.latest p hp)⟩

theorem Kept.announce :
    (entry.announce addr now).Kept (ops ++ [.announce infoHash addr now])
      infoHash := by
  refine ⟨?_, (h.push_apart htime).sublist (drop_sublist _ _), ?_⟩
  · rw [PeerEntry.announce, length_drop]
    omega
  · intro p hp
    rw [latest_append, StoreOp.announced]
    rcases mem_append.mp (mem_of_mem_drop hp) with hp | hp
    · obtain ⟨hp, hne⟩ := mem_filter.mp hp
      rw [if_neg fun heq => of_decide_eq_true hne heq.2.symm]
      exact h.latest p hp
    · obtain rfl := mem_singleton.mp hp
      simp

end

end PeerEntry

namespace PeerStore

theorem Kept.recordAnnounce (h : store.Kept ops)
    (htime : Timely (ops ++ [.announce infoHash addr now])) :
    (store.recordAnnounce infoHash addr now).Kept
      (ops ++ [.announce infoHash addr now]) := by
  have hother : ∀ hash ≠ infoHash,
      (store.entry hash).Kept (ops ++ [.announce infoHash addr now]) hash :=
    fun hash hne => (h.entries hash).append fun _ =>
      if_neg fun heq => hne heq.1.symm
  rw [PeerStore.recordAnnounce]
  split_ifs with hroom
  · refine ⟨?_, h.nodup.insert, ?_, ?_⟩
    · by_cases hmem : infoHash ∈ store.hashes
      · exact (length_insert_of_mem hmem).trans_le h.length_le
      · exact (length_insert_of_not_mem hmem).trans_le
          (hroom.resolve_right hmem)
    · intro hash habsent
      rw [mem_insert_iff, not_or] at habsent
      exact (Function.update_of_ne habsent.1 _ _).trans
        (h.absent hash habsent.2)
    · exact (Function.forall_update_iff _ fun hash entry =>
        PeerEntry.Kept _ hash entry).mpr ⟨(h.entries infoHash).announce htime, hother⟩
  · refine ⟨h.length_le, h.nodup, h.absent, fun hash => ?_⟩
    by_cases hne : hash = infoHash
    · subst hne
      rw [h.absent hash fun hmem => hroom (.inr hmem)]
      exact .nil
    · exact hother hash hne

theorem Kept.prunePeerStore (h : store.Kept ops) (now : ℕ) :
    (store.prunePeerStore now).Kept (ops ++ [.prune now]) := by
  refine ⟨(length_filter_le _ _).trans h.length_le, h.nodup.filter _, ?_,
    fun hash => ((h.entries hash).sublist filter_sublist).append fun _ => rfl⟩
  intro hash habsent
  by_cases hmem : hash ∈ store.hashes
  · rw [PeerStore.prunePeerStore, mem_filter, not_and] at habsent
    have hempty := habsent hmem
    rw [Bool.not_eq_true', Bool.not_eq_false] at hempty
    exact List.isEmpty_iff.mp hempty
  · simp [PeerStore.prunePeerStore, h.absent hash hmem]

end PeerStore

end

end RustyTorrent.Dht
