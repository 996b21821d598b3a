import RustyTorrent.Metainfo.Torrent
import RustyTorrent.Peer.Extension

/-!
# Tokens of the DHT node

`dht/server.rs`: a token is a hash of a salt and the IP it is issued to.  The
salts of the last two periods are accepted.  Only a request for a token begins
a new period, so a token lives as long as documented but outlives its time when
no such requests come (`tokens_live`).
-/

namespace RustyTorrent.Dht

open Metainfo

/-- `TOKEN_TTL`, in nanoseconds. -/
def tokenTtl : ℕ := 10 * 60 * 10 ^ 9

abbrev TokenSalt := Vector UInt8 8

structure TokenState where
  current : TokenSalt
  previous : TokenSalt
  lastRotated : ℕ

/-- A call of `issue_token`: the clock when the age of the salt is asked for
and when the call is done, and the salt it draws if it replaces the old one. -/
structure Issue where
  addr : SocketAddr
  now : ℕ
  later : ℕ
  salt : TokenSalt

variable (sha1Of : Bytes → Digest)

def tokenFor (addr : SocketAddr) (salt : TokenSalt) : Bytes :=
  let octets :=
    match addr.ip with
    | .v4 octets => octets.toList
    | .v6 octets => octets.toList
  (sha1Of (salt.toList ++ octets)).1.take 8

namespace TokenState

variable (ts : TokenState)

/-- Whether a call replaces the salt. -/
def Due (q : Issue) : Prop := tokenTtl ≤ q.now - ts.lastRotated

instance (q : Issue) : Decidable (ts.Due q) :=
  inferInstanceAs (Decidable (_ ≤ _))

/-- The state that `issue_token` leaves. -/
def rotate (q : Issue) : TokenState :=
  if ts.Due q then ⟨q.salt, ts.current, q.later⟩ else ts

def issueToken (q : Issue) : Bytes :=
  tokenFor sha1Of q.addr (ts.rotate q).current

def verifyToken (addr : SocketAddr) (token : Bytes) : Bool :=
  token = tokenFor sha1Of addr ts.current ∨
    token = tokenFor sha1Of addr ts.previous

/-- The state after a sequence of calls. -/
def after (qs : List Issue) : TokenState := qs.foldl rotate ts

/-- The tokens of the salt are accepted. -/
def InUse (c : TokenSalt) : Prop := ts.current = c ∨ ts.previous = c

end TokenState

/-- Calls one after the other. -/
def InOrder (qs : List Issue) : Prop :=
  (∀ q ∈ qs, q.now ≤ q.later) ∧ qs.Pairwise fun q r => q.later ≤ r.now

instance (qs : List Issue) : Decidable (InOrder qs) :=
  inferInstanceAs (Decidable (_ ∧ _))

/-- The calls replace twice a salt drawn at `time`: one comes a lifetime after
it, and one a lifetime after that call. -/
def Spent (time : ℕ) (qs : List Issue) : Prop :=
  ∃ q ∈ qs, ∃ r ∈ qs, time + tokenTtl ≤ q.now ∧ q.later + tokenTtl ≤ r.now

instance (time : ℕ) (qs : List Issue) : Decidable (Spent time qs) :=
  inferInstanceAs (Decidable (∃ q ∈ qs, _))

namespace TokenState

variable {ts : TokenState} {c : TokenSalt} {q : Issue} {qs : List Issue}

theorem due_iff : ts.Due q ↔ ts.lastRotated + tokenTtl ≤ q.now := by
  have hpos : 0 < tokenTtl := by decide
  unfold Due
  omega

/-- A salt that is no longer in use does not come back. -/
theorem not_inUse_after (hold : ¬ts.InUse c) (hfresh : ∀ q ∈ qs, q.salt ≠ c) :
    ¬(ts.after qs).InUse c := by
  induction qs generalizing ts with
  | nil => exact hold
  | cons q qs ih =>
    obtain ⟨hq, hfresh⟩ := List.forall_mem_cons.mp hfresh
    refine ih ?_ hfresh
    rw [rotate]
    split_ifs
    · exact not_or.mpr ⟨hq, fun h => hold (.inl h)⟩
    · exact hold

/-- The previous salt stays in use until a call comes that replaces the
current one. -/
theorem previous_inUse_after (hprevious : ts.previous = c)
    (hcurrent : ts.current ≠ c) (hfresh : ∀ q ∈ qs, q.salt ≠ c) :
    (ts.after qs).InUse c ↔ ∀ q ∈ qs, q.now < ts.lastRotated + tokenTtl := by
  induction qs with
  | nil => exact iff_of_true (.inr hprevious) (by simp)
  | cons q qs ih =>
    obtain ⟨hq, hfresh⟩ := List.forall_mem_cons.mp hfresh
    rw [List.forall_mem_cons, after, List.foldl_cons, rotate]
    split_ifs with hdue
    · have hlate := due_iff.mp hdue
      refine iff_of_false (not_inUse_after ?_ hfresh) fun h => ?_
      · exact not_or.mpr ⟨hq, hcurrent⟩
      · exact h.1.not_ge hlate
    · rw [← ih hfresh, and_iff_right (not_le.mp (due_iff.not.mp hdue))]
      rfl

theorem current_inUse_after (hcurrent : ts.current = c)
    (hfresh : ∀ q ∈ qs, q.salt ≠ c) (horder : InOrder qs) :
    (ts.after qs).InUse c ↔ ¬Spent ts.lastRotated qs := by
  have hpos : 0 < tokenTtl := by decide
  induction qs with
  | nil => exact iff_of_true (.inl hcurrent) fun ⟨q, hq, _⟩ => by simp at hq
  | cons q qs ih =>
    obtain ⟨hq, hfresh⟩ := List.forall_mem_cons.mp hfresh
    obtain ⟨hspan, horder⟩ := horder
    obtain ⟨hnow, hspan⟩ := List.forall_mem_cons.mp hspan
    obtain ⟨hfirst, horder⟩ := List.pairwise_cons.mp horder
    rw [after, List.foldl_cons, rotate]
    split_ifs with hdue
    · refine (previous_inUse_after hcurrent hq hfresh).trans ?_
      have hlate := due_iff.mp hdue
      constructor
      · rintro hcalls ⟨r, hr, r', hr', -, hafter⟩
        have hle : q.later ≤ r.later := by
          rcases List.mem_cons.mp hr with heq | hr
          · rw [heq]
          · exact (hfirst r hr).trans (hspan r hr)
        rcases List.mem_cons.mp hr' with rfl | hr'
        · omega
        · have := hcalls r' hr'
          dsimp only at this
          omega
      · intro hspent r hr
        by_contra hge
        exact hspent ⟨q, List.mem_cons_self, r, List.mem_cons_of_mem _ hr, hlate,
          not_lt.mp hge⟩
    · refine (ih hfresh ⟨hspan, horder⟩).trans (not_congr ⟨?_, ?_⟩)
      · rintro ⟨r, hr, r', hr', h⟩
        exact ⟨r, List.mem_cons_of_mem _ hr, r', List.mem_cons_of_mem _ hr', h⟩
      · rintro ⟨r, hr, r', hr', hlate, hafter⟩
        have hearly := due_iff.not.mp hdue
        rcases List.mem_cons.mp hr with rfl | hr
        · exact absurd hlate hearly
        have := hfirst r hr
        have := hspan r hr
        rcases List.mem_cons.mp hr' with rfl | hr'
        · omega
        · exact ⟨r, hr, r', hr', hlate, hafter⟩

/-- The token of a salt is accepted when its IP asks and the salt is in use, if
the hash tells it from the tokens of the salts in use. -/
theorem verifyToken_iff {addr addr' : SocketAddr}
    (hinj : ∀ salt, ts.InUse salt →
      tokenFor sha1Of addr' c = tokenFor sha1Of addr salt →
        salt = c ∧ addr.ip = addr'.ip) :
    ts.verifyToken sha1Of addr (tokenFor sha1Of addr' c) = true ↔
      addr.ip = addr'.ip ∧ ts.InUse c := by
  rw [verifyToken, decide_eq_true_iff]
  constructor
  · rintro (heq | heq)
    · obtain ⟨hsalt, hip⟩ := hinj _ (.inl rfl) heq
      exact ⟨hip, .inl hsalt⟩
    · obtain ⟨hsalt, hip⟩ := hinj _ (.inr rfl) heq
      exact ⟨hip, .inr hsalt⟩
  · rintro ⟨hip, rfl | rfl⟩
    · exact .inl (by rw [tokenFor, tokenFor, hip])
    · exact .inr (by rw [tokenFor, tokenFor, hip])

end TokenState

/-- A token is accepted from the IP it was issued to for its lifetime, and
from no other IP.  From its IP it is refused exactly when two calls have come,
the first a lifetime after its salt was drawn and the second a lifetime after
the first. -/
theorem tokens_live {ts : TokenState} {q : Issue} {qs : List Issue}
    (horder : InOrder (q :: qs))
    (hfresh : (ts.current :: ts.previous :: (q :: qs).map Issue.salt).Nodup)
    {addr : SocketAddr}
    (hinj : ∀ salt, (ts.after (q :: qs)).InUse salt →
      ts.issueToken sha1Of q = tokenFor sha1Of addr salt →
        salt = (ts.rotate q).current ∧ addr.ip = q.addr.ip)
    {time : ℕ} (htime : ∀ r ∈ q :: qs, r.later ≤ time) :
    let issued := if ts.Due q then q.later else q.now
    let verifies := (ts.after (q :: qs)).verifyToken sha1Of addr
      (ts.issueToken sha1Of q)
    (addr.ip = q.addr.ip → time ≤ issued + tokenTtl → verifies = true) ∧
      (addr.ip ≠ q.addr.ip → verifies = false) ∧
      (addr.ip = q.addr.ip →
        (verifies = false ↔ Spent (ts.rotate q).lastRotated qs)) := by
  intro issued verifies
  have hverifies : verifies = true ↔ _ :=
    TokenState.verifyToken_iff sha1Of hinj
  have hsalts : ∀ r ∈ qs, r.salt ≠ (ts.rotate q).current := by
    intro r hr heq
    have hmem : r.salt ∈ qs.map Issue.salt := List.mem_map_of_mem hr
    rw [TokenState.rotate] at heq
    split_ifs at heq <;> simp_all
  have hinUse := TokenState.current_inUse_after rfl hsalts
    ⟨(List.forall_mem_cons.mp horder.1).2, horder.2.tail⟩
  have hissued : issued < (ts.rotate q).lastRotated + tokenTtl := by
    simp only [issued, TokenState.rotate]
    split_ifs with hdue
    · exact Nat.lt_add_of_pos_right (by decide)
    · exact not_le.mp (TokenState.due_iff.not.mp hdue)
  have hrefused : verifies = false ↔ ¬verifies = true := by simp
  refine ⟨fun hip hlive => hverifies.mpr ⟨hip, hinUse.mpr ?_⟩,
    fun hip => hrefused.mpr fun h => hip (hverifies.mp h).1, fun hip => ?_⟩
  · rintro ⟨r, hr, r', hr', hlate, hlate'⟩
    have := htime r' (List.mem_cons_of_mem _ hr')
    have := horder.1 r (List.mem_cons_of_mem _ hr)
    have := horder.1 r' (List.mem_cons_of_mem _ hr')
    omega
  · rw [hrefused, hverifies, and_iff_right hip]
    exact hinUse.not.trans not_not

/-- A digest that begins with the last bytes. -/
def backwards (b : Bytes) : Digest :=
  ⟨(b.reverse ++ List.replicate 20 0).take 20, by simp⟩

/-- A call with a salt of equal bytes. -/
def callAt (time : ℕ) (n : UInt8) : Issue :=
  ⟨⟨.v4 (.replicate 4 9), 1⟩, time, time, .replicate 8 n⟩

/-- No call follows the one that issues a token at `1`: it is accepted at
three lifetimes, as at any time. -/
theorem tokens_outlive :
    let ts : TokenState := ⟨.replicate 8 1, .replicate 8 2, 0⟩
    InOrder [callAt 1 3] ∧ 1 + 2 * tokenTtl < 3 * tokenTtl ∧
      (ts.after [callAt 1 3]).verifyToken backwards (callAt 1 3).addr
        (ts.issueToken backwards (callAt 1 3)) = true := by
  decide +kernel

/-- Two calls put a token out of use. -/
theorem tokens_live_example :
    let ts : TokenState := ⟨.replicate 8 1, .replicate 8 2, 0⟩
    let qs := [callAt (2 * tokenTtl) 4, callAt (3 * tokenTtl) 5]
    (ts.after (callAt 1 3 :: qs)).verifyToken backwards (callAt 1 3).addr
      (ts.issueToken backwards (callAt 1 3)) = false := by
  intro ts qs
  refine ((@tokens_live backwards ts (callAt 1 3) qs ?_ ?_ (callAt 1 3).addr ?_
    (3 * tokenTtl) ?_).2.2 rfl).mpr ?_
  · decide +kernel
  · decide +kernel
  · rintro salt (rfl | rfl) <;> decide +kernel
  · decide +kernel
  · decide +kernel

end RustyTorrent.Dht
