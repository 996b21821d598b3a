import RustyTorrent.Metainfo.Torrent
import RustyTorrent.Support.Run

/-!
# The session manager

`session.rs`: `add`, `add_persistent` and `remove` of a manager with a shared
acceptor and a store, suspended at their await points.  Between two of these
points a call runs alone.

A call that waits for a lock may resume whenever the lock is free.  The locks
serve the requests in their queue in order, but a task that has used up its
budget is suspended before its request is queued, so no order among the
waiting calls is assumed.  Nothing holds the registry across an await point;
the session map is held by a call of `add` while it waits for the registry.

A session is the inbound channel its engine owns, and a channel is the number
of the call that made it.  What is persisted under an info hash is only
present or absent; writing and deleting the files does not fail.  Statistics,
the engines and the returned info hash are left out.
-/

namespace RustyTorrent.Session

open Metainfo

abbrev InfoHash := Digest

/-- The calls of the manager: `add` and `add_persistent`, and `remove`. -/
inductive Request where
  | add (h : InfoHash) (persistent : Bool)
  | remove (h : InfoHash)
  deriving DecidableEq

/-- The await point at which a call is suspended. -/
inductive Call where
  /-- `self.inner.lock()` of `add`. -/
  | addMap (h : InfoHash) (persistent : Bool)
  /-- `shared.registry.lock()` of `add`, with the session map held. -/
  | addRegistry (h : InfoHash) (persistent : Bool)
  /-- `self.inner.lock()` of `remove`. -/
  | removeMap (h : InfoHash)
  /-- `shared.registry.lock()` of `unregister`, the session taken out. -/
  | removeRegistry (h : InfoHash)
  /-- `s.ctl_tx.send(EngineControl::Shutdown)`. -/
  | removeSend
  deriving DecidableEq

/-- Both functions wait for the session map first. -/
def Request.first : Request → Call
  | .add h persistent => .addMap h persistent
  | .remove h => .removeMap h

/-- `SessionManager` with the calls in progress. -/
structure Manager where
  sessions : InfoHash → Option ℕ
  registry : InfoHash → Option ℕ
  store : InfoHash → Bool
  /-- The call that holds the session map across an await point. -/
  mapHolder : Option ℕ
  calls : ℕ → Option Call
  /-- The number of calls made so far. -/
  started : ℕ
  /-- The calls that have returned, with `is_some` of an `add` and the result
  of a `remove`. -/
  returned : List (ℕ × Bool)

namespace Manager

/-- `SessionManager::with_shared`, with an empty store. -/
def withShared : Manager where
  sessions _ := none
  registry _ := none
  store _ := false
  mapHolder := none
  calls _ := none
  started := 0
  returned := []

/-- A call waits at its next await point. -/
def suspend (m : Manager) (id : ℕ) (call : Call) : Manager :=
  { m with calls := Function.update m.calls id (some call) }

/-- A call returns. -/
def finish (m : Manager) (id : ℕ) (result : Bool) : Manager :=
  { m with
    calls := Function.update m.calls id none
    returned := m.returned ++ [(id, result)] }

/-- A call is made. -/
def invoke (m : Manager) (request : Request) : Manager :=
  { m.suspend m.started request.first with started := m.started + 1 }

/-- `add` of an absent torrent goes on to the registry with the map held. -/
def addHolds (m : Manager) (id : ℕ) (h : InfoHash) (persistent : Bool) :
    Manager :=
  { m.suspend id (.addRegistry h persistent) with mapHolder := some id }

/-- `add`, after it was granted the session map. -/
def addChecks (m : Manager) (id : ℕ) (h : InfoHash) (persistent : Bool) :
    Manager :=
  if (m.sessions h).isSome then m.finish id false
  else m.addHolds id h persistent

/-- The rest of `add`, and of `add_persistent` when the torrent is saved. -/
def addInserts (m : Manager) (id : ℕ) (h : InfoHash) (persistent : Bool) :
    Manager :=
  { m.finish id true with
    registry := Function.update m.registry h (some id)
    sessions := Function.update m.sessions h (some id)
    mapHolder := none
    store := if persistent then Function.update m.store h true else m.store }

/-- `remove` takes the session out of the map and goes on to the registry. -/
def removeTakes (m : Manager) (id : ℕ) (h : InfoHash) : Manager :=
  { m.suspend id (.removeRegistry h) with
    sessions := Function.update m.sessions h none }

/-- `remove`, after it was granted the session map. -/
def removeChecks (m : Manager) (id : ℕ) (h : InfoHash) : Manager :=
  match m.sessions h with
  | none => m.finish id false
  | some _ => m.removeTakes id h

/-- `remove`, after `unregister` was granted the registry. -/
def removeForgets (m : Manager) (id : ℕ) (h : InfoHash) : Manager :=
  { m.suspend id .removeSend with
    registry := Function.update m.registry h none
    store := Function.update m.store h false }

/-- A call runs from its await point to the next one, or returns. -/
def resume (m : Manager) (id : ℕ) : Manager :=
  match m.calls id with
  | none => m
  | some (.addMap h persistent) => m.addChecks id h persistent
  | some (.addRegistry h persistent) => m.addInserts id h persistent
  | some (.removeMap h) => m.removeChecks id h
  | some (.removeRegistry h) => m.removeForgets id h
  | some .removeSend => m.finish id true

end Manager

/-- What can happen: a call is made, or one that waits runs on. -/
inductive Action where
  | invoke (request : Request)
  | resume (id : ℕ)
  deriving DecidableEq

/-- A call may run on when the lock it waits for is free. -/
def Ready (m : Manager) : Option Call → Prop
  | some (.addMap _ _) => m.mapHolder = none
  | some (.removeMap _) => m.mapHolder = none
  | some _ => True
  | none => False

instance (m : Manager) : (call : Option Call) → Decidable (Ready m call)
  | some (.addMap _ _) => inferInstanceAs (Decidable (m.mapHolder = none))
  | some (.removeMap _) => inferInstanceAs (Decidable (m.mapHolder = none))
  | some (.addRegistry _ _) => inferInstanceAs (Decidable True)
  | some (.removeRegistry _) => inferInstanceAs (Decidable True)
  | some .removeSend => inferInstanceAs (Decidable True)
  | none => inferInstanceAs (Decidable False)

/-- Any number of calls, interleaved at their await points. -/
def daemon : System Manager Action where
  next m
    | .invoke request => m.invoke request
    | .resume id => m.resume id
  may m
    | .invoke _ => True
    | .resume id => Ready m (m.calls id)

instance (m : Manager) : (a : Action) → Decidable (daemon.may m a)
  | .invoke _ => inferInstanceAs (Decidable True)
  | .resume id => inferInstanceAs (Decidable (Ready m (m.calls id)))

/-- No call is in progress. -/
def Quiescent (m : Manager) : Prop := ∀ id, m.calls id = none

end RustyTorrent.Session
