import RustyTorrent.Peer.Utp.Sender

/-!
# The hard timeout

A connection is watched through its history together with the time at which
each packet in flight was sent for the first time.  `tick` ends a connection
at its deadline, `HARD_TIMEOUT` after its creation, and nothing moves the
deadline.  So a history is free of unjustified ends exactly if no tick finds
the connection open at that age without a packet in flight for as long
(`hard_kill_justified_iff`).
-/

namespace RustyTorrent.Utp.Connection

open List

theorem length_tick (c : Connection) (now : ℕ) :
    (c.tick now).1.inFlight.length = c.inFlight.length := by
  unfold tick
  split_ifs
  · rfl
  · rfl
  · simp

theorem tick_reset_iff {c : Connection} (h : c.state ≠ .reset) (now : ℕ) :
    (c.tick now).1.state = .reset ↔ c.isClosed = false ∧ c.deadline ≤ now := by
  unfold tick
  split_ifs with hclosed hlate
  · simp [h, hclosed]
  · simp [hclosed, hlate]
  · simp [h, hlate]

/-- A connection, and when each packet in flight was sent first. -/
structure Watched where
  conn : Connection
  flight : List (InFlight × ℕ)
  aligned : flight.map Prod.fst = conn.inFlight

namespace Watched

/-- A connection that was just created. -/
def start (c : Connection) (now : ℕ) : Watched where
  conn := c
  flight := c.inFlight.map fun e => (e, now)
  aligned := by simp [Function.comp_def]

/-- The times of the packets that are in flight after an operation: those
that were there keep theirs, those that are sent first get the current one. -/
def times (w : Watched) : Op → List ℕ
  | .incoming p _ =>
    if w.conn.matchesIncoming p = true ∧ p.packetType ≠ .reset then
      (remainingAt p w.flight).map Prod.snd
    else w.flight.map Prod.snd
  | .send now => w.flight.map Prod.snd ++
      List.replicate (w.conn.assigned (.send now)) now
  | _ => w.flight.map Prod.snd

theorem length_flight (w : Watched) :
    w.flight.length = w.conn.inFlight.length := by
  rw [← w.aligned, length_map]

theorem length_times (w : Watched) (op : Op) :
    (w.times op).length = (w.conn.perform op).inFlight.length := by
  have hsame {c : Connection} (h : c.inFlight = w.conn.inFlight) :
      (w.flight.map Prod.snd).length = c.inFlight.length := by
    rw [length_map, length_flight, h]
  cases op with
  | incoming p now =>
    rw [times]
    split_ifs with h
    · obtain ⟨-, ⟨state, hout, -⟩, -⟩ := handleIncoming_spec h.1 h.2 now
      have hleft : (w.conn.perform (.incoming p now)).inFlight =
          remaining p w.conn.inFlight := congrArg Outbound.flight hout
      rw [hleft, ← w.aligned, ← map_remainingAt, length_map, length_map]
    · apply hsame
      unfold perform handleIncoming
      by_cases hmatch : w.conn.matchesIncoming p = true
      · have hreset : p.packetType = .reset := by
          by_contra hne
          exact h ⟨hmatch, hne⟩
        simp [hmatch, hreset]
      · simp [hmatch]
  | take max => exact hsame rfl
  | enqueue block =>
    obtain ⟨blocks, len, heq⟩ := enqueueSendBlock_eq w.conn block
    rw [perform, heq]
    exact hsame rfl
  | close =>
    obtain ⟨state, heq⟩ := close_eq w.conn
    rw [perform, heq]
    exact hsame rfl
  | send now =>
    rw [(send_numbers w.conn now).flight, times, length_append,
      length_map, length_replicate, length_flight]
  | tick now =>
    rw [perform, length_tick]
    exact hsame rfl

/-- An operation on a watched connection. -/
def step (w : Watched) (op : Op) : Watched where
  conn := w.conn.perform op
  flight := (w.conn.perform op).inFlight.zip (w.times op)
  aligned := List.map_fst_zip (w.length_times op).ge

/-- Watched connections under all operations, whatever the clock says. -/
def watching : System Watched Op := ⟨step, fun _ _ => True⟩

/-- A packet has been in flight for the hard timeout. -/
def Overdue (w : Watched) (now : ℕ) : Prop :=
  ∃ x ∈ w.flight, x.2 + hardTimeout ≤ now

instance (w : Watched) (now : ℕ) : Decidable (w.Overdue now) :=
  inferInstanceAs (Decidable (∃ x ∈ w.flight, _))

/-- If the operation is a tick that resets the connection, a packet is
overdue. -/
def Justified (w : Watched) (op : Op) : Prop :=
  ∀ now, op = .tick now → w.conn.state ≠ .reset →
    (w.step op).conn.state = .reset → w.Overdue now

/-- No tick finds an overdue packet, and the peer sends neither FIN nor
RESET. -/
def Healthy (w : Watched) (op : Op) : Prop :=
  (∀ now, op = .tick now → ¬ w.Overdue now) ∧
    ∀ p now, op = .incoming p now →
      p.packetType ≠ .fin ∧ p.packetType ≠ .reset

/-- A tick comes before the connection created at `born` has the age of the
hard timeout, or finds it over, or finds a packet overdue. -/
def Timely (born : ℕ) (w : Watched) (op : Op) : Prop :=
  ∀ now, op = .tick now →
    now < born + hardTimeout ∨ w.conn.isClosed = true ∨ w.Overdue now

/-! ## One operation -/

variable {w : Watched}

theorem justified_iff_timely {born : ℕ}
    (hborn : w.conn.deadline = born + hardTimeout) (op : Op) :
    w.Justified op ↔ w.Timely born op := by
  refine forall₂_congr fun now hop => ?_
  subst hop
  have hreset := fun h => tick_reset_iff (c := w.conn) h now
  constructor
  · intro hjust
    by_cases hlate : born + hardTimeout ≤ now
    · cases hclosed : w.conn.isClosed with
      | true => exact .inr (.inl rfl)
      | false =>
        have hne : w.conn.state ≠ .reset := by
          intro hstate
          simp [isClosed, hstate] at hclosed
        have hkill := (hreset hne).mpr ⟨hclosed, hborn ▸ hlate⟩
        exact .inr (.inr (hjust hne hkill))
    · exact .inl (not_le.mp hlate)
  · intro htimely hne hkill
    obtain ⟨hclosed, hlate⟩ := (hreset hne).mp hkill
    rw [hborn] at hlate
    rcases htimely with hearly | hover | hoverdue
    · exact absurd hlate (not_le.mpr hearly)
    · cases hclosed.symm.trans hover
    · exact hoverdue

theorem step_open {op : Op} (hopen : w.conn.isClosed = false)
    (hhealthy : w.Healthy op) (hjust : w.Justified op) :
    (w.step op).conn.isClosed = false := by
  change (w.conn.perform op).isClosed = false
  cases op with
  | incoming p now =>
    obtain ⟨hfin, hreset⟩ := hhealthy.2 p now rfl
    exact handleIncoming_open hopen hfin hreset now
  | take max => exact hopen
  | enqueue block =>
    obtain ⟨blocks, len, heq⟩ := enqueueSendBlock_eq w.conn block
    rw [perform, heq]
    exact hopen
  | close =>
    rw [perform, close]
    split_ifs
    · exact hopen
    · rfl
  | send now =>
    rw [isClosed_eq_false, (send_numbers w.conn now).state, ← isClosed_eq_false]
    exact hopen
  | tick now =>
    have hne := isClosed_eq_false.mp hopen
    have halive : (w.conn.tick now).1.state ≠ .reset := fun hkill =>
      hhealthy.1 now rfl (hjust now rfl hne.2 hkill)
    have hclosed : (w.conn.tick now).1.state ≠ .closed := by
      unfold tick
      split_ifs
      · exact hne.1
      · simp
      · exact hne.1
    exact isClosed_eq_false.mpr ⟨hclosed, halive⟩

/-! ## Histories -/

theorem along_justified_iff {born : ℕ}
    (hborn : w.conn.deadline = born + hardTimeout) (ops : List Op) :
    watching.Along Justified w ops ↔ watching.Along (Timely born) w ops := by
  induction ops generalizing w with
  | nil => rfl
  | cons op ops ih =>
    have hnext : (w.step op).conn.deadline = born + hardTimeout :=
      (congrArg Fixed.deadline (perform_fixed w.conn op)).trans hborn
    exact and_congr (justified_iff_timely hborn op) (ih hnext)

theorem after_open {ops : List Op} (hopen : w.conn.isClosed = false)
    (hhealthy : watching.Along Healthy w ops)
    (hjust : watching.Along Justified w ops) :
    (watching.after w ops).conn.isClosed = false := by
  induction ops generalizing w with
  | nil => exact hopen
  | cons op ops ih =>
    exact ih (step_open hopen hhealthy.1 hjust.1) hhealthy.2 hjust.2

/-- Every tick of a history that resets the connection finds an overdue
packet, and a healthy connection is not ended by its history, exactly if each
tick comes within the hard timeout after the creation, or finds the
connection over or a packet overdue. -/
theorem hard_kill_justified_iff {c : Connection} {born : ℕ}
    (h : c.Opens born) (ops : List Op) :
    (watching.Along Justified (start c born) ops ∧
      (watching.Along Healthy (start c born) ops →
        (watching.after (start c born) ops).conn.isClosed = false)) ↔
      watching.Along (Timely born) (start c born) ops := by
  rw [← along_justified_iff h.fresh.1 ops]
  refine and_iff_left_of_imp fun hjust hhealthy => ?_
  exact after_open h.fresh.2.1 hhealthy hjust

/-- A byte written at once and acknowledged a second later, and a tick. -/
def acknowledgedRun (now : ℕ) : List Op :=
  [.enqueue [1], .send 0, .incoming (Packet.new .state 8 0 100) second,
    .tick now]

/-- The packet was in flight for a second, and the tick at the age of the hard
timeout resets the connection. -/
theorem healthy_connection_killed :
    ∃ c state, newReceiverWithSeq (Packet.new .syn 7 1 0) 0 100 =
        some (c, state) ∧
      watching.Along Healthy (start c 0) (acknowledgedRun hardTimeout) ∧
      (watching.after (start c 0)
        (acknowledgedRun hardTimeout)).conn.state = .reset := by
  refine ⟨_, _, rfl, ⟨⟨nofun, nofun⟩, ⟨nofun, nofun⟩, ⟨nofun, ?_⟩,
    ⟨?_, nofun⟩, trivial⟩, by decide +kernel⟩
  · intro p now hop
    cases hop
    exact ⟨nofun, nofun⟩
  · intro now hop
    cases hop
    decide +kernel

theorem hard_kill_justified_iff_early :
    ∃ c state, newReceiverWithSeq (Packet.new .syn 7 1 0) 0 100 =
        some (c, state) ∧
      watching.Along Justified (start c 0) (acknowledgedRun second) := by
  obtain ⟨c, state, hopen⟩ : ∃ c state,
      newReceiverWithSeq (Packet.new .syn 7 1 0) 0 100 = some (c, state) :=
    ⟨_, _, rfl⟩
  refine ⟨c, state, hopen, ((hard_kill_justified_iff
    (newReceiverWithSeq_opens hopen) _).mpr ?_).1⟩
  refine ⟨nofun, nofun, nofun, ?_, trivial⟩
  intro now hop
  cases hop
  exact .inl (by decide)

end Watched

end RustyTorrent.Utp.Connection
