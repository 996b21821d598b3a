import RustyTorrent.Metainfo.BencodeRoundTrip
import RustyTorrent.Peer.Extension

/-!
# Peer exchange round trip

What `build_pex_payload` writes, `parse_pex` reads back: the added addresses
of version 4, then those of version 6, except for those without a port
(`parsePex_buildPexPayload`).
-/

namespace RustyTorrent.Extension

open Metainfo BencodeValue SortedMap

variable {d : List (Bytes × BencodeValue)}

def isV4 (a : SocketAddr) : Bool :=
  match a.ip with
  | .v4 _ => true
  | .v6 _ => false

/-- A dictionary in key order that holds byte strings only. -/
structure Flat (d : List (Bytes × BencodeValue)) : Prop where
  sorted : SortedMap.Sorted d
  bytes : ∀ e ∈ d, ∃ b, e.2 = .bytes b

theorem Flat.insert (h : Flat d) (k b : Bytes) :
    Flat (insert k (.bytes b) d) where
  sorted := h.sorted.insert k _
  bytes e he := by
    rcases mem_of_mem_insert he with rfl | he
    · exact ⟨b, rfl⟩
    · exact h.bytes e he

theorem Flat.pexField (h : Flat d) (key : String) (flags : Option String)
    (list : ℕ × Bytes) : Flat (pexField key flags list d) := by
  unfold Extension.pexField
  split_ifs
  · exact h
  · cases flags with
    | none => exact h.insert _ _
    | some f => exact (h.insert _ _).insert _ _

theorem Flat.parseAll (h : Flat d) (hlen : (dict d).toBytes.length < 2 ^ 63) :
    parseAll (dict d).toBytes = .ok (.dict d) := by
  refine parseAll_toBytes (nested_dict h.sorted fun e he => ?_) hlen
  obtain ⟨b, hb⟩ := h.bytes e he
  rw [hb]
  exact nested_bytes _ b

theorem get_pexField (key : String) (flags : Option String) (list : ℕ × Bytes)
    (k : Bytes) (hflags : ∀ f ∈ flags, k ≠ ascii f) :
    get (pexField key flags list d) k =
      if k = ascii key ∧ list.1 ≠ 0 then some (.bytes list.2)
      else get d k := by
  unfold pexField
  split_ifs with hempty hkey hkey
  · exact absurd hempty hkey.2
  · rfl
  all_goals cases flags <;> simp_all [get_insert]

section

variable {n : ℕ} {ip : Bytes → IpAddr} {f : SocketAddr → Option Bytes}
  {addrs : List SocketAddr} (hf : ∀ a c, f a = some c → ∃ o : Vector UInt8 n,
    c = o.toList ++ toBytesBe 2 a.port.toNat ∧ ip o.toList = a.ip)

include hf

/-- The compact entries of one version are read back, except for port
zero. -/
theorem read_entries :
    (chunksExact (n + 2) (addrs.filterMap f).flatten).filterMap
        (compactEntry n ip) =
      addrs.filter fun a => (f a).isSome ∧ a.port ≠ 0 := by
  have hlen : ∀ c ∈ addrs.filterMap f, (id c).length = n + 2 := fun c hc => by
    obtain ⟨a, -, ha⟩ := List.mem_filterMap.mp hc
    obtain ⟨o, rfl, -⟩ := hf a c ha
    simp
  rw [← List.flatMap_id, chunksExact_flatMap (Nat.succ_pos _) hlen, List.map_id,
    List.filterMap_filterMap, ← List.filterMap_eq_filter]
  refine List.filterMap_congr fun a _ => ?_
  cases hfa : f a with
  | none => simp [Option.guard, hfa]
  | some c =>
    obtain ⟨o, rfl, hip⟩ := hf a c hfa
    simp only [Option.bind_some, compactEntry_compact, hip, Option.guard, hfa]
    by_cases hport : a.port = 0 <;> simp [hport]

theorem compactList_eq {key : String} (hget : get d (ascii key) =
      if (addrs.filterMap f).length ≠ 0 then
        some (.bytes (addrs.filterMap f).flatten) else none) :
    compactList d key n ip =
      addrs.filter fun a => (f a).isSome ∧ a.port ≠ 0 := by
  rw [← read_entries hf, compactList, hget]
  cases addrs.filterMap f with
  | nil => simp [chunksExact]
  | cons c entries => rfl

end

/-- The dictionary of the payload. -/
def pexDict (added dropped : List SocketAddr) : List (Bytes × BencodeValue) :=
  pexField "dropped6" none (compactsV6 dropped)
    (pexField "dropped" none (compactsV4 dropped)
      (pexField "added6" (some "added6.f") (compactsV6 added)
        (pexField "added" (some "added.f") (compactsV4 added) [])))

variable (added dropped : List SocketAddr)

theorem flat_pexDict : Flat (pexDict added dropped) :=
  have h : Flat [] := ⟨sorted_nil, nofun⟩
  (((h.pexField ..).pexField ..).pexField ..).pexField ..

theorem compactList_added :
    compactList (pexDict added dropped) "added" 4 (fun b => .v4 (octets 4 b)) =
      added.filter fun a => isV4 a ∧ a.port ≠ 0 := by
  have hget : get (pexDict added dropped) (ascii "added") =
      if (compactsV4 added).1 ≠ 0 then some (.bytes (compactsV4 added).2)
      else none := by
    simp +decide [pexDict, get_pexField, show get [] _ = none from rfl]
  rw [@compactList_eq _ _ _ _ added ?_ _ hget]
  · refine List.filter_congr fun a _ => ?_
    obtain ⟨o | o, port⟩ := a <;> rfl
  · rintro ⟨o | o, port⟩ c hc
    · cases hc
      exact ⟨o, rfl, congrArg IpAddr.v4 (octets_toList o)⟩
    · cases hc

theorem compactList_added6 :
    compactList (pexDict added dropped) "added6" 16
        (fun b => .v6 (octets 16 b)) =
      added.filter fun a => !isV4 a ∧ a.port ≠ 0 := by
  have hget : get (pexDict added dropped) (ascii "added6") =
      if (compactsV6 added).1 ≠ 0 then some (.bytes (compactsV6 added).2)
      else none := by
    simp +decide [pexDict, get_pexField, show get [] _ = none from rfl]
  rw [@compactList_eq _ _ _ _ added ?_ _ hget]
  · refine List.filter_congr fun a _ => ?_
    obtain ⟨o | o, port⟩ := a <;> rfl
  · rintro ⟨o | o, port⟩ c hc
    · cases hc
    · cases hc
      exact ⟨o, rfl, congrArg IpAddr.v6 (octets_toList o)⟩

theorem parsePex_buildPexPayload (added dropped : List SocketAddr)
    (hlen : (buildPexPayload added dropped).length < 2 ^ 63) :
    parsePex (buildPexPayload added dropped) =
      .ok ((added.filter isV4 ++ added.filter fun a => !isV4 a).filter
        fun a => a.port ≠ 0) := by
  have hread : parseAll (buildPexPayload added dropped) =
      .ok (.dict (pexDict added dropped)) :=
    (flat_pexDict added dropped).parseAll hlen
  rw [parsePex, hread]
  change Outcome.ok (_ ++ _) = _
  rw [compactList_added, compactList_added6, List.filter_append,
    List.filter_filter, List.filter_filter]
  simp [Bool.and_comm]

theorem parsePex_buildPexPayload_example :
    parsePex (buildPexPayload [⟨.v4 #v[10, 0, 0, 1], 6881⟩] []) =
      .ok [⟨.v4 #v[10, 0, 0, 1], 6881⟩] :=
  parsePex_buildPexPayload _ [] (by decide +kernel)

end RustyTorrent.Extension
