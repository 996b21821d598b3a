import RustyTorrent.Peer.Extension
import RustyTorrent.Support.Dict

/-!
# The choke scheduler

`scheduler/choke.rs`: which peers may download from us.  An `Instant` is a
number of nanoseconds; a clock reading is an argument wherever the source
reads the clock, and a number stands for the random choice of the optimistic
peer.  The sum of the bytes in a window is not bounded.
-/

namespace RustyTorrent.Scheduler

/-- One second in nanoseconds. -/
def second : ℕ := 10 ^ 9

def optimisticInterval : ℕ := 30 * second

def rateWindow : ℕ := 20 * second

def snubThreshold : ℕ := 60 * second

def regularUnchokeSlots : ℕ := 3

structure ChokeScheduler where
  samples : Dict SocketAddr (List (ℕ × ℕ))
  lastBlock : Dict SocketAddr ℕ
  unchoked : Dict SocketAddr Bool
  optimistic : Option SocketAddr
  lastOptimisticTick : ℕ
  seeding : Bool

structure ChokeDecision where
  toUnchoke : List SocketAddr
  toChoke : List SocketAddr
  optimistic : Option SocketAddr

namespace ChokeScheduler

def new (now : ℕ) : ChokeScheduler where
  samples := ∅
  lastBlock := ∅
  unchoked := ∅
  optimistic := none
  lastOptimisticTick := now
  seeding := false

variable (s : ChokeScheduler)

def setSeeding (seeding : Bool) : ChokeScheduler :=
  { s with seeding := seeding }

/-- A sample is added, and those before the window are dropped. -/
def sample (addr : SocketAddr) (bytes now : ℕ) : ChokeScheduler :=
  let q := (s.samples.lookup addr).getD [] ++ [(now, bytes)]
  { s with
    samples := s.samples.insert addr
      (q.dropWhile fun e => e.1 + rateWindow < now) }

def recordDownload (addr : SocketAddr) (bytes now : ℕ) : ChokeScheduler :=
  { s.sample addr bytes now with lastBlock := s.lastBlock.insert addr now }

def recordUpload (addr : SocketAddr) (bytes now : ℕ) : ChokeScheduler :=
  s.sample addr bytes now

def forget (addr : SocketAddr) : ChokeScheduler :=
  { s with
    samples := s.samples.erase addr
    lastBlock := s.lastBlock.erase addr
    unchoked := s.unchoked.erase addr
    optimistic := if s.optimistic = some addr then none else s.optimistic }

def rateFor (addr : SocketAddr) : ℕ :=
  match s.samples.lookup addr with
  | some q => (q.map Prod.snd).sum
  | none => 0

def isSnubbed (addr : SocketAddr) (now : ℕ) : Bool :=
  match s.lastBlock.lookup addr with
  | some t => snubThreshold < now - t
  | none => true

/-- The rotation of the optimistic slot. -/
def rotate (candidates : List SocketAddr) (now choice : ℕ) :
    ChokeScheduler :=
  if optimisticInterval ≤ now - s.lastOptimisticTick ∨
      s.optimistic = none then
    { s with
      lastOptimisticTick := now
      optimistic := (candidates[choice % candidates.length]?).or
        s.optimistic }
  else s

/-- The candidates for the regular slots, fastest first.  The clock is read
again for each of them. -/
def ranked (candidates : List SocketAddr) (later : ℕ → ℕ) :
    List (SocketAddr × ℕ) :=
  let eligible := candidates.zipIdx.filter fun e =>
    !s.isSnubbed e.1 (later e.2) || s.seeding
  (eligible.map fun e => (e.1, s.rateFor e.1)).insertionSort
    fun x y => y.2 ≤ x.2

/-- The peers that get a slot. -/
def chosen (candidates : List SocketAddr) (later : ℕ → ℕ) :
    List SocketAddr :=
  let regular := ((s.ranked candidates later).take regularUnchokeSlots).map
    Prod.fst
  match s.optimistic with
  | some opt => if opt ∈ regular then regular else regular ++ [opt]
  | none => regular

/-- The loop over the candidates that notes what changes. -/
def decide (chosen : List SocketAddr) :
    List SocketAddr → ChokeScheduler → ChokeDecision →
      ChokeScheduler × ChokeDecision
  | [], s, dec => (s, dec)
  | addr :: rest, s, dec =>
    let want := chosen.contains addr
    let have_ := (s.unchoked.lookup addr).getD false
    if want && !have_ then
      decide chosen rest
        { s with unchoked := s.unchoked.insert addr true }
        { dec with toUnchoke := dec.toUnchoke ++ [addr] }
    else if !want && have_ then
      decide chosen rest
        { s with unchoked := s.unchoked.insert addr false }
        { dec with toChoke := dec.toChoke ++ [addr] }
    else decide chosen rest s dec

def tick (candidates : List SocketAddr) (now choice : ℕ) (later : ℕ → ℕ) :
    ChokeScheduler × ChokeDecision :=
  let s := s.rotate candidates now choice
  decide (s.chosen candidates later) candidates s ⟨[], [], s.optimistic⟩

end ChokeScheduler

end RustyTorrent.Scheduler
