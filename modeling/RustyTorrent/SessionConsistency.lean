import RustyTorrent.Session

/-!
# Consistency of the session map, the registry and the store

A `remove` takes the session out of the map and only then, at a second await
point, deletes the registry entry and the persisted torrent.  An `add` of the
same info hash that registers in between has its new entries deleted by the
older call.  Nothing else goes wrong: at quiescence the three sets agree
exactly when no session now in the map was registered while such a `remove`
was under way.
-/

namespace RustyTorrent.Session

open Metainfo Function Manager

/-! ## What one call changes -/

namespace Manager

variable (m : Manager) (id : ℕ)

theorem resume_cases {P : Manager → Prop} (hready : Ready m (m.calls id))
    (returned : ∀ point result, m.calls id = some point →
      (∀ h p, point ≠ .addRegistry h p) → (∀ h, point ≠ .removeRegistry h) →
      P (m.finish id result))
    (holding : ∀ h p, m.calls id = some (.addMap h p) →
      m.mapHolder = none → m.sessions h = none → P (m.addHolds id h p))
    (inserted : ∀ h p, m.calls id = some (.addRegistry h p) →
      P (m.addInserts id h p))
    (taken : ∀ h, m.calls id = some (.removeMap h) → m.mapHolder = none →
      P (m.removeTakes id h))
    (forgotten : ∀ h, m.calls id = some (.removeRegistry h) →
      P (m.removeForgets id h)) : P (m.resume id) := by
  rw [resume]
  cases hcall : m.calls id with
  | none =>
    rw [hcall] at hready
    exact hready.elim
  | some call =>
    rw [hcall] at hready
    cases call with
    | addMap h p =>
      change P (m.addChecks id h p)
      rw [addChecks]
      split
      · exact returned _ _ hcall nofun nofun
      · rename_i hsession
        refine holding h p hcall hready ?_
        simpa using hsession
    | addRegistry h p => exact inserted h p hcall
    | removeMap h =>
      change P (m.removeChecks id h)
      rw [removeChecks]
      cases m.sessions h with
      | none => exact returned _ _ hcall nofun nofun
      | some c => exact taken h hcall hready
    | removeRegistry h => exact forgotten h hcall
    | removeSend => exact returned _ _ hcall nofun nofun

end Manager

/-! ## The invariant of every reachable state -/

/-- Some `remove` of `h` has taken the session out and not yet deleted the
registry entry. -/
def Removing (m : Manager) (h : InfoHash) : Prop :=
  ∃ id, m.calls id = some (.removeRegistry h)

/-- What ties the session map and its lock to the calls in progress. -/
structure Locked (m : Manager) : Prop where
  /-- Calls are numbered in the order they are made. -/
  started : ∀ id call, m.calls id = some call → id < m.started
  /-- The call that made a session has returned. -/
  made : ∀ h c, m.sessions h = some c → c < m.started ∧ m.calls c = none
  /-- An `add` that waits for the registry holds the map, and the map has no
  session for its info hash. -/
  holder : ∀ id h p, m.calls id = some (.addRegistry h p) →
    m.mapHolder = some id ∧ m.sessions h = none

/-- In addition, a registry entry without its session is about to be
deleted. -/
structure Inv (m : Manager) : Prop extends Locked m where
  entry : ∀ h c, m.registry h = some c →
    m.sessions h = some c ∨ Removing m h

theorem inv_withShared : Inv withShared where
  started := nofun
  made := nofun
  holder := nofun
  entry := nofun

variable {m m' : Manager} {h : InfoHash} {id : ℕ} {p : Bool}

theorem removing_update {call : Option Call}
    (hcalls : m'.calls = update m.calls id call)
    (hid : m.calls id ≠ some (.removeRegistry h)) :
    Removing m' h ↔ call = some (.removeRegistry h) ∨ Removing m h := by
  constructor
  · rintro ⟨other, hother⟩
    rw [hcalls, update_apply] at hother
    split at hother
    · exact .inl hother
    · exact .inr ⟨other, hother⟩
  · rintro (rfl | ⟨other, hother⟩)
    · exact ⟨id, by rw [hcalls, update_self]⟩
    · have hne : other ≠ id := by
        rintro rfl
        exact hid hother
      exact ⟨other, by rw [hcalls, update_of_ne hne, hother]⟩

section

variable (hm : Inv m)

include hm

theorem Inv.calls_started : m.calls m.started = none := by
  by_contra hcall
  obtain ⟨call, hcall⟩ := Option.ne_none_iff_exists'.mp hcall
  exact lt_irrefl _ (hm.started _ _ hcall)

theorem Inv.invoke (request : Request) : Inv (m.invoke request) := by
  have hnew := hm.calls_started
  obtain ⟨⟨hstarted, hmade, hholder⟩, hentry⟩ := hm
  refine ⟨?_, ?_⟩
  · have hfirst : ∀ h p, request.first ≠ .addRegistry h p := by
      cases request <;> exact nofun
    constructor <;> simp only [Manager.invoke, Manager.suspend] <;>
      grind [update_apply]
  · intro h c hc
    refine (hentry h c hc).imp_right fun hr => ?_
    exact (removing_update rfl (by simp [hnew])).mpr (.inr hr)

theorem Inv.finish (result : Bool)
    (hid : ∀ h, m.calls id ≠ some (.removeRegistry h)) :
    Inv (m.finish id result) := by
  obtain ⟨⟨hstarted, hmade, hholder⟩, hentry⟩ := hm
  refine ⟨?_, ?_⟩
  · constructor <;> simp only [Manager.finish] <;>
      grind [update_apply]
  · intro h c hc
    refine (hentry h c hc).imp_right fun hr => ?_
    exact (removing_update rfl (hid h)).mpr (.inr hr)

theorem Inv.addHolds (hcall : m.calls id = some (.addMap h p))
    (hfree : m.mapHolder = none) (habsent : m.sessions h = none) :
    Inv (m.addHolds id h p) := by
  obtain ⟨⟨hstarted, hmade, hholder⟩, hentry⟩ := hm
  refine ⟨?_, ?_⟩
  · constructor <;> simp only [Manager.addHolds, Manager.suspend] <;>
      grind [update_apply]
  · intro h' c hc
    refine (hentry h' c hc).imp_right fun hr => ?_
    exact (removing_update rfl (by simp [hcall])).mpr (.inr hr)

theorem Inv.addInserts (hcall : m.calls id = some (.addRegistry h p)) :
    Inv (m.addInserts id h p) := by
  obtain ⟨⟨hstarted, hmade, hholder⟩, hentry⟩ := hm
  refine ⟨?_, ?_⟩
  · constructor <;> simp only [Manager.addInserts, Manager.finish] <;>
      grind [update_apply]
  · intro h' c hc
    by_cases hh : h' = h
    · subst hh
      simp only [addInserts, update_self] at hc ⊢
      exact .inl hc
    · simp only [Manager.addInserts, update_of_ne hh] at hc ⊢
      refine (hentry h' c hc).imp_right fun hr => ?_
      exact (removing_update rfl (by simp [hcall])).mpr (.inr hr)

theorem Inv.removeTakes (hcall : m.calls id = some (.removeMap h)) :
    Inv (m.removeTakes id h) := by
  obtain ⟨⟨hstarted, hmade, hholder⟩, hentry⟩ := hm
  refine ⟨?_, ?_⟩
  · constructor <;> simp only [Manager.removeTakes, Manager.suspend] <;>
      grind [update_apply]
  · intro h' c hc
    have hid : m.calls id ≠ some (.removeRegistry h') := by simp [hcall]
    by_cases hh : h' = h
    · subst hh
      exact .inr ((removing_update rfl hid).mpr (.inl rfl))
    · simp only [Manager.removeTakes, update_of_ne hh]
      refine (hentry h' c hc).imp_right fun hr => ?_
      exact (removing_update rfl hid).mpr (.inr hr)

theorem Inv.removeForgets (hcall : m.calls id = some (.removeRegistry h)) :
    Inv (m.removeForgets id h) := by
  obtain ⟨⟨hstarted, hmade, hholder⟩, hentry⟩ := hm
  refine ⟨?_, ?_⟩
  · constructor <;> simp only [Manager.removeForgets, Manager.suspend] <;>
      grind [update_apply]
  · intro h' c hc
    by_cases hh : h' = h
    · subst hh
      simp [removeForgets] at hc
    · simp only [Manager.removeForgets, update_of_ne hh] at hc ⊢
      refine (hentry h' c hc).imp_right fun hr => ?_
      refine (removing_update rfl ?_).mpr (.inr hr)
      simpa [hcall] using Ne.symm hh

theorem Inv.resume (hready : Ready m (m.calls id)) : Inv (m.resume id) := by
  refine m.resume_cases id hready ?_ ?_ ?_ ?_ ?_
  · intro point result hcall _ hremove
    exact hm.finish result fun h => by simpa [hcall] using hremove h
  · intro h p hcall hfree habsent
    exact hm.addHolds hcall hfree habsent
  · intro h p hcall
    exact hm.addInserts hcall
  · intro h hcall _
    exact hm.removeTakes hcall
  · intro h hcall
    exact hm.removeForgets hcall

end

/-! ## Registrations that a removal overtakes -/

/-- The step by which the `add` numbered `c` registers its session for `h` is
not taken while a `remove` of `h` is on its way to the registry. -/
def Alone (h : InfoHash) (c : ℕ) (m : Manager) (a : Action) : Prop :=
  a = .resume c → (∃ p, m.calls c = some (.addRegistry h p)) → ¬ Removing m h

/-- In the run, no `remove` of `h` was on its way to the registry when the
`add` numbered `c` registered its session. -/
def RegisteredAlone (as : List Action) (h : InfoHash) (c : ℕ) : Prop :=
  daemon.Along (Alone h c) Manager.withShared as

/-- What a run leaves in the registry for the sessions in the map. -/
structure Traced (as : List Action) (m : Manager) : Prop extends Inv m where
  /-- A call that has not returned has not registered anything. -/
  pending : ∀ h c, m.calls c ≠ none ∨ m.started ≤ c → RegisteredAlone as h c
  alone : ∀ h c, m.sessions h = some c → RegisteredAlone as h c →
    m.registry h = some c ∧ ¬ Removing m h
  overtaken : ∀ h c, m.sessions h = some c → ¬ RegisteredAlone as h c →
    m.registry h = none ∨ Removing m h

theorem traced_nil : Traced [] withShared where
  toInv := inv_withShared
  pending _ _ _ := trivial
  alone := nofun
  overtaken := nofun

section Step

variable {as : List Action} {a : Action} (hm : m = daemon.after .withShared as)
include hm

theorem registeredAlone_append {c : ℕ} : RegisteredAlone (as ++ [a]) h c ↔
      RegisteredAlone as h c ∧ Alone h c m a := by
  rw [hm]
  exact System.along_append

section

variable (ht : Traced as m)

include ht

/-- A step that registers nothing, and that leaves the registry entry of each
session alone or deletes it for a `remove` under way. -/
theorem Traced.keep (hm' : Inv m')
    (hcall : ∀ h c p, a = .resume c → m.calls c ≠ some (.addRegistry h p))
    (hpending : ∀ c, m'.calls c ≠ none ∨ m'.started ≤ c →
      m.calls c ≠ none ∨ m.started ≤ c)
    (hkey : ∀ h c, m'.sessions h = some c → m.sessions h = some c ∧
      ((m'.registry h = m.registry h ∧ (Removing m' h ↔ Removing m h)) ∨
        (m'.registry h = none ∧ Removing m h))) : Traced (as ++ [a]) m' := by
  have hsame : ∀ h c, RegisteredAlone (as ++ [a]) h c ↔
      RegisteredAlone as h c := by
    intro h c
    refine (registeredAlone_append hm).trans (and_iff_left ?_)
    rintro hc ⟨p, hp⟩
    exact absurd hp (hcall h c p hc)
  refine { toInv := hm', pending := ?_, alone := ?_, overtaken := ?_ }
  · intro h c hc
    exact (hsame h c).mpr (ht.pending h c (hpending c hc))
  · intro h c hc halone
    obtain ⟨hsession, hentry⟩ := hkey h c hc
    obtain ⟨hregistry, hnot⟩ := ht.alone h c hsession ((hsame h c).mp halone)
    rcases hentry with ⟨heq, hiff⟩ | ⟨-, hremoving⟩
    · exact ⟨heq.trans hregistry, mt hiff.mp hnot⟩
    · exact absurd hremoving hnot
  · intro h c hc hover
    obtain ⟨hsession, hentry⟩ := hkey h c hc
    have hbefore := ht.overtaken h c hsession (mt (hsame h c).mpr hover)
    rcases hentry with ⟨heq, hiff⟩ | ⟨hnone, -⟩
    · rwa [heq, hiff]
    · exact .inl hnone

theorem Traced.invoke (request : Request) :
    Traced (as ++ [.invoke request]) (m.invoke request) := by
  have hnew := ht.calls_started
  refine ht.keep hm (ht.toInv.invoke request) nofun ?_ ?_
  · intro c hc
    simp only [Manager.invoke, Manager.suspend] at hc
    grind [update_apply]
  · intro h c hc
    refine ⟨hc, .inl ⟨rfl, (removing_update rfl (by simp [hnew])).trans ?_⟩⟩
    cases request <;> simp [Request.first]

/-- A call that waits at the next point or returns, but not after it took a
session out of the map. -/
theorem Traced.move (hm' : Inv m') {call : Option Call} {point : Call}
    (hfrom : m.calls id = some point) (hadd : ∀ h p, point ≠ .addRegistry h p)
    (hremove : ∀ h, point ≠ .removeRegistry h)
    (hcalls : m'.calls = update m.calls id call)
    (hto : ∀ h c, m'.sessions h = some c → call ≠ some (.removeRegistry h))
    (hstarted : m'.started = m.started) (hregistry : m'.registry = m.registry)
    (hsessions : ∀ h c, m'.sessions h = some c → m.sessions h = some c) :
    Traced (as ++ [.resume id]) m' := by
  refine ht.keep hm hm' ?_ ?_ ?_
  · rintro h c p ⟨rfl⟩
    simpa [hfrom] using hadd h p
  · intro c hc
    rw [hcalls, hstarted] at hc
    grind [update_apply]
  · intro h c hc
    have hid : m.calls id ≠ some (.removeRegistry h) := by
      simpa [hfrom] using hremove h
    refine ⟨hsessions h c hc, .inl ⟨by rw [hregistry], ?_⟩⟩
    exact (removing_update hcalls hid).trans (or_iff_right (hto h c hc))

theorem Traced.removeForgets (hcall : m.calls id = some (.removeRegistry h)) :
    Traced (as ++ [.resume id]) (m.removeForgets id h) := by
  refine ht.keep hm (ht.toInv.removeForgets hcall) ?_ ?_ ?_
  · rintro h c p ⟨rfl⟩
    simp [hcall]
  · intro c hc
    simp only [Manager.removeForgets, Manager.suspend] at hc
    grind [update_apply]
  · intro h' c hc
    refine ⟨hc, ?_⟩
    by_cases hh : h' = h
    · subst hh
      exact .inr ⟨update_self .., id, hcall⟩
    · refine .inl ⟨update_of_ne hh .., ?_⟩
      have hid : m.calls id ≠ some (.removeRegistry h') := by
        simpa [hcall] using Ne.symm hh
      exact (removing_update rfl hid).trans (or_iff_right (by simp))

theorem Traced.addInserts (hcall : m.calls id = some (.addRegistry h p)) :
    Traced (as ++ [.resume id]) (m.addInserts id h p) := by
  have hremoving : ∀ h', Removing (m.addInserts id h p) h' ↔
      Removing m h' := fun h' =>
    (removing_update rfl (by simp [hcall])).trans (or_iff_right nofun)
  -- the registration of `id` for `h` is the only one this step makes
  have hother : ∀ h' c, c ≠ id → (RegisteredAlone (as ++ [.resume id]) h' c ↔
        RegisteredAlone as h' c) := by
    intro h' c hc
    refine (registeredAlone_append hm).trans (and_iff_left ?_)
    rintro ⟨rfl⟩
    exact absurd rfl hc
  have hself : RegisteredAlone (as ++ [.resume id]) h id ↔ ¬ Removing m h := by
    rw [registeredAlone_append hm,
      and_iff_right (ht.pending h id (.inl (by simp [hcall])))]
    exact ⟨fun halone => halone rfl ⟨p, hcall⟩, fun hnot _ _ => hnot⟩
  have hkey : ∀ h' c, (m.addInserts id h p).sessions h' = some c →
      (h' = h ∧ c = id) ∨ (h' ≠ h ∧ c ≠ id ∧ m.sessions h' = some c) := by
    intro h' c hc
    by_cases hh : h' = h
    · subst hh
      simp only [addInserts, update_self] at hc
      exact .inl ⟨rfl, (Option.some.inj hc).symm⟩
    · simp only [Manager.addInserts, update_of_ne hh] at hc
      refine .inr ⟨hh, ?_, hc⟩
      rintro rfl
      simpa [hcall] using (ht.made h' c hc).2
  refine { toInv := ht.toInv.addInserts hcall, pending := ?_,
           alone := ?_, overtaken := ?_ }
  · intro h' c hc
    have hne : c ≠ id := by
      rintro rfl
      have := ht.started c _ hcall
      simp only [addInserts, finish, update_self] at hc
      grind
    refine (hother h' c hne).mpr (ht.pending h' c ?_)
    simpa only [Manager.addInserts, Manager.finish, update_of_ne hne] using hc
  · intro h' c hc halone
    rw [hremoving]
    rcases hkey h' c hc with ⟨rfl, rfl⟩ | ⟨hh, hne, hold⟩
    · exact ⟨update_self .., hself.mp halone⟩
    · simp only [Manager.addInserts, update_of_ne hh]
      exact ht.alone h' c hold ((hother h' c hne).mp halone)
  · intro h' c hc hover
    rw [hremoving]
    rcases hkey h' c hc with ⟨rfl, rfl⟩ | ⟨hh, hne, hold⟩
    · exact .inr (not_not.mp (mt hself.mpr hover))
    · simp only [Manager.addInserts, update_of_ne hh]
      exact ht.overtaken h' c hold (mt (hother h' c hne).mpr hover)

theorem Traced.resume (hready : Ready m (m.calls id)) :
    Traced (as ++ [.resume id]) (m.resume id) := by
  have hinv := ht.toInv.resume hready
  revert hinv
  refine m.resume_cases (P := fun m' => Inv m' → Traced _ m') id hready
    ?_ ?_ ?_ ?_ ?_
  · intro point result hcall hadd hremove hinv
    exact ht.move hm hinv hcall hadd hremove rfl
      (fun _ _ _ => nofun) rfl rfl fun _ _ hc => hc
  · intro h p hcall _ _ hinv
    exact ht.move hm hinv hcall nofun nofun rfl
      (fun _ _ _ => nofun) rfl rfl fun _ _ hc => hc
  · intro h p hcall _
    exact ht.addInserts hm hcall
  · intro h hcall _ hinv
    refine ht.move hm hinv hcall nofun nofun rfl ?_ rfl rfl ?_
    · rintro h' c hc ⟨rfl⟩
      simp [removeTakes] at hc
    · intro h' c hc
      simp only [removeTakes] at hc
      grind [update_apply]
  · intro h hcall _
    exact ht.removeForgets hm hcall

end

end Step

theorem traced_after {as : List Action} (h : daemon.Allowed .withShared as) :
    Traced as (daemon.after .withShared as) := by
  refine System.Allowed.history traced_nil ?_ h
  intro as a _ ht hmay
  cases a with
  | invoke request => exact ht.invoke rfl request
  | resume id => exact ht.resume rfl hmay

/-! ## What is persisted -/

/-- Every torrent of the run is added through `add_persistent`. -/
def AllPersistent (as : List Action) : Prop :=
  ∀ h, .invoke (.add h false) ∉ as

/-- The store has what the registry has, and every `add` in progress will
save its torrent. -/
structure Persisted (m : Manager) : Prop where
  saves : ∀ id h, m.calls id ≠ some (.addMap h false) ∧
    m.calls id ≠ some (.addRegistry h false)
  same : ∀ h, m.store h = (m.registry h).isSome

/-- A call moves to a point at which it does not wait to add a torrent
without saving it. -/
theorem Persisted.move (hm : Persisted m) {call : Option Call}
    (hcalls : m'.calls = update m.calls id call)
    (hcall : ∀ h, call ≠ some (.addMap h false) ∧
      call ≠ some (.addRegistry h false))
    (hsame : ∀ h, m'.store h = (m'.registry h).isSome) : Persisted m' := by
  refine ⟨fun id' h => ?_, hsame⟩
  rw [hcalls, update_apply]
  split_ifs
  · exact hcall h
  · exact hm.saves id' h

theorem Persisted.invoke (hm : Persisted m) {request : Request}
    (hrequest : ∀ h, request ≠ .add h false) :
    Persisted (m.invoke request) := by
  refine hm.move rfl ?_ hm.same
  cases request <;> simp_all [Request.first]

theorem Persisted.resume (hm : Persisted m)
    (hready : Ready m (m.calls id)) : Persisted (m.resume id) := by
  have hsame := hm.same
  refine m.resume_cases id hready ?_ ?_ ?_ ?_ ?_
  · intro point result hcall _ _
    exact hm.move rfl (fun _ => ⟨nofun, nofun⟩) hsame
  · intro h p hcall _ _
    refine hm.move rfl (fun h' => ⟨nofun, ?_⟩) hsame
    rintro ⟨⟩
    exact (hm.saves id h).1 hcall
  · intro h p hcall
    have hp : p = true := by
      cases p with
      | true => rfl
      | false => exact absurd hcall (hm.saves id h).2
    refine hm.move rfl (fun _ => ⟨nofun, nofun⟩) ?_
    simp only [addInserts]
    grind [update_apply]
  · intro h hcall _
    exact hm.move rfl (fun _ => ⟨nofun, nofun⟩) hsame
  · intro h hcall
    refine hm.move rfl (fun _ => ⟨nofun, nofun⟩) ?_
    simp only [removeForgets]
    grind [update_apply]

theorem persisted_after {as : List Action} (h : daemon.Allowed .withShared as)
    (hall : AllPersistent as) : Persisted (daemon.after .withShared as) := by
  revert hall
  refine System.Allowed.history
    (P := fun as m => AllPersistent as → Persisted m) ?_ ?_ h
  · exact fun _ => ⟨fun _ _ => ⟨nofun, nofun⟩, fun _ => rfl⟩
  · intro as a _ ih hmay hall
    have hm := ih fun h hh => hall h (List.mem_append_left _ hh)
    cases a with
    | invoke request =>
      refine hm.invoke ?_
      rintro h rfl
      exact hall h (by simp)
    | resume id => exact hm.resume hmay

/-! ## Consistency at quiescence -/

theorem quiescent_iff (hm : Inv m) :
    Quiescent m ↔ ∀ id < m.started, m.calls id = none := by
  refine ⟨fun hquiet id _ => hquiet id, fun hcalls id => ?_⟩
  by_contra hid
  obtain ⟨call, hcall⟩ := Option.ne_none_iff_exists'.mp hid
  exact hid (hcalls id (hm.started id call hcall))

/-- The session map, the registry and, when every torrent was added through
`add_persistent`, the store have the same info hashes, and the registry leads
to the sessions in the map. -/
def Consistent (as : List Action) (m : Manager) : Prop :=
  (∀ h, (m.registry h).isSome = (m.sessions h).isSome) ∧
    (AllPersistent as → ∀ h, m.store h = (m.sessions h).isSome) ∧
      ∀ h c, m.registry h = some c → m.sessions h = some c

/-- When no call is in progress, the daemon's books agree exactly when none of
the sessions in the map was registered while a `remove` of the same info hash
had taken the older session out and not yet deleted the registry entry. -/
theorem consistent_iff_registeredAlone {as : List Action}
    (hrun : daemon.Allowed .withShared as)
    (hquiet : Quiescent (daemon.after .withShared as)) :
    Consistent as (daemon.after .withShared as) ↔
      ∀ h c, (daemon.after .withShared as).sessions h = some c →
        RegisteredAlone as h c := by
  have ht := traced_after hrun
  have hpersisted := persisted_after hrun
  generalize daemon.after .withShared as = m at *
  have hnot : ∀ h, ¬ Removing m h := by
    rintro h ⟨id, hid⟩
    simp [hquiet id] at hid
  constructor
  · rintro ⟨hkeys, -, -⟩ h c hc
    by_contra hover
    have hnone := (ht.overtaken h c hc hover).resolve_right (hnot h)
    have hkey := hkeys h
    simp [hnone, hc] at hkey
  · intro halone
    have hentry : ∀ h c, m.registry h = some c → m.sessions h = some c :=
      fun h c hc => (ht.entry h c hc).resolve_right (hnot h)
    have hkeys : ∀ h, (m.registry h).isSome = (m.sessions h).isSome := by
      intro h
      cases hsession : m.sessions h with
      | some c => rw [(ht.alone h c hsession (halone h c hsession)).1]
      | none =>
        cases hregistry : m.registry h with
        | none => rfl
        | some c => simp [hentry h c hregistry] at hsession
    refine ⟨hkeys, ?_, hentry⟩
    intro hall h
    rw [(hpersisted hall).same h, hkeys h]

/-- A torrent is added, removed and added again, one call after the other. -/
def sequentialRun (h : InfoHash) : List Action :=
  [.invoke (.add h true), .resume 0, .resume 0,
    .invoke (.remove h), .resume 1, .resume 1, .resume 1,
    .invoke (.add h true), .resume 2, .resume 2]

theorem consistent_iff_registeredAlone_sequential :
    daemon.Allowed .withShared (sequentialRun .zeroed) ∧
      Quiescent (daemon.after .withShared (sequentialRun .zeroed)) ∧
        (Consistent (sequentialRun .zeroed)
            (daemon.after .withShared (sequentialRun .zeroed)) ↔
          ∀ h c, (daemon.after .withShared
              (sequentialRun .zeroed)).sessions h = some c →
            RegisteredAlone (sequentialRun .zeroed) h c) := by
  have hrun : daemon.Allowed .withShared (sequentialRun .zeroed) := by
    decide +kernel
  have hquiet := (quiescent_iff (traced_after hrun).toInv).mpr
    (by decide +kernel)
  exact ⟨hrun, hquiet, consistent_iff_registeredAlone hrun hquiet⟩

/-- The same calls, with the second `add` granted both locks while the
`remove` waits for the registry. -/
def overtakenRun (h : InfoHash) : List Action :=
  [.invoke (.add h true), .resume 0, .resume 0,
    .invoke (.remove h), .resume 1,
    .invoke (.add h true), .resume 2, .resume 2,
    .resume 1, .resume 1]

/-- The second session stays in the map, but the acceptor does not route to
it and a restart does not resume it. -/
theorem overtakenRun_inconsistent :
    daemon.Allowed .withShared (overtakenRun .zeroed) ∧
      Quiescent (daemon.after .withShared (overtakenRun .zeroed)) ∧
      (daemon.after .withShared (overtakenRun .zeroed)).sessions .zeroed =
        some 2 ∧
      (daemon.after .withShared (overtakenRun .zeroed)).registry .zeroed =
        none ∧
      (daemon.after .withShared (overtakenRun .zeroed)).store .zeroed = false ∧
      ¬ Consistent (overtakenRun .zeroed)
        (daemon.after .withShared (overtakenRun .zeroed)) := by
  have hrun : daemon.Allowed .withShared (overtakenRun .zeroed) := by
    decide +kernel
  have hquiet := (quiescent_iff (traced_after hrun).toInv).mpr
    (by decide +kernel)
  have hsession : (daemon.after .withShared
      (overtakenRun .zeroed)).sessions .zeroed = some 2 := by
    decide +kernel
  have hregistry : (daemon.after .withShared
      (overtakenRun .zeroed)).registry .zeroed = none := by
    decide +kernel
  refine ⟨hrun, hquiet, hsession, hregistry, by decide +kernel, ?_⟩
  rintro ⟨hkeys, -, -⟩
  have hkey := hkeys .zeroed
  simp [hsession, hregistry] at hkey

end RustyTorrent.Session
