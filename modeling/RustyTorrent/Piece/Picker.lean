import RustyTorrent.Peer.Extension
import RustyTorrent.Piece.Manager
import RustyTorrent.Support.Dict

/-!
# The piece picker

`piece/picker.rs`: which pieces each peer has, how many peers have each piece,
and which piece a peer is to fetch next.  The tie among the rarest pieces is
broken by a number that stands for the shuffle.
-/

namespace RustyTorrent.Piece

/-- `saturating_add` of an unsigned type of width `w`. -/
def saturatingAdd (w a b : ℕ) : ℕ := min (a + b) (2 ^ w - 1)

structure Picker where
  numPieces : ℕ
  peerBitfields : Dict SocketAddr (List Bool)
  /-- One `u32` for each piece. -/
  availability : List ℕ
  assigned : Dict SocketAddr ℕ
  sequential : Bool

namespace Picker

def new (numPieces : ℕ) : Picker where
  numPieces := numPieces
  peerBitfields := ∅
  availability := List.replicate numPieces 0
  assigned := ∅
  sequential := false

variable (p : Picker)

def setSequential (on : Bool) : Picker := { p with sequential := on }

/-- The loop over the pieces of a bitfield, applied to their counts. -/
def count (bf : List Bool) (f : ℕ → ℕ) (availability : List ℕ) : List ℕ :=
  availability.mapIdx fun i a => if bf.getD i false then f a else a

/-- The contributions of the bitfield of `addr`, if any, are removed. -/
def discount (addr : SocketAddr) : List ℕ :=
  match p.peerBitfields.lookup addr with
  | some old => count old (· - 1) p.availability
  | none => p.availability

def setPeerBitfield (addr : SocketAddr) (bf : List Bool) : Picker :=
  { p with
    availability := count bf (saturatingAdd 32 · 1) (p.discount addr)
    peerBitfields := p.peerBitfields.insert addr bf }

def peerHas (addr : SocketAddr) (index : ℕ) : Bool :=
  match p.peerBitfields.lookup addr with
  | some bf => bf.getD index false
  | none => false

def addHave (addr : SocketAddr) (index : ℕ) : Picker :=
  if p.numPieces ≤ index then p
  else
    let bf := (p.peerBitfields.lookup addr).getD
      (List.replicate p.numPieces false)
    -- `resize`, for a bitfield that is too short
    let bf := bf ++ List.replicate (p.numPieces - bf.length) false
    if bf.getD index false then
      { p with peerBitfields := p.peerBitfields.insert addr bf }
    else
      { p with
        peerBitfields := p.peerBitfields.insert addr (bf.set index true)
        availability := p.availability.modify index (saturatingAdd 32 · 1) }

def forgetPeer (addr : SocketAddr) : Picker :=
  { p with
    availability := p.discount addr
    peerBitfields := p.peerBitfields.erase addr
    assigned := p.assigned.erase addr }

def assignment (addr : SocketAddr) : Option ℕ := p.assigned.lookup addr

def releaseAssignment (addr : SocketAddr) : Picker :=
  { p with assigned := p.assigned.erase addr }

def clearAssignmentIf (addr : SocketAddr) (index : ℕ) : Picker :=
  if p.assigned.lookup addr = some index then p.releaseAssignment addr else p

/-- The closure `usable` of `pick_for`. -/
def usable (pm : PieceManager) (bf : List Bool) (endgame : Bool) (i : ℕ) :
    Outcome Error Bool :=
  if bf.getD i false then do
    let state ← pm.state i
    return state ≠ .complete && pm.isWanted i &&
      (endgame || !p.assigned.values.contains i)
  else return false

/-- The first usable piece of a list. -/
def findUsable (pm : PieceManager) (bf : List Bool) (endgame : Bool) :
    List ℕ → Outcome Error (Option ℕ)
  | [] => .ok none
  | i :: is => do
    if ← p.usable pm bf endgame i then return some i
    else findUsable pm bf endgame is

/-- The pass over the pieces that keeps the rarest usable ones. -/
def rarest (pm : PieceManager) (bf : List Bool) (endgame : Bool) :
    List ℕ → ℕ → List ℕ → Outcome Error (List ℕ)
  | [], _, ties => .ok ties
  | i :: is, minAv, ties => do
    if ← p.usable pm bf endgame i then do
      let av ← Outcome.index i p.availability
      if av < minAv then rarest pm bf endgame is av [i]
      else if av = minAv then rarest pm bf endgame is minAv (ties ++ [i])
      else rarest pm bf endgame is minAv ties
    else rarest pm bf endgame is minAv ties

/-- The piece taken for a peer that is not at work on one. -/
def choose (pm : PieceManager) (bf : List Bool) (endgame : Bool)
    (choice : ℕ) : Outcome Error (Option ℕ) :=
  if p.sequential then p.findUsable pm bf endgame (List.range p.numPieces)
  else do
    let ties ← p.rarest pm bf endgame (List.range p.numPieces) (2 ^ 32 - 1) []
    return ties[choice % ties.length]?

/-- The pick of a new piece, with its assignment. -/
def pickNew (addr : SocketAddr) (pm : PieceManager) (endgame : Bool)
    (choice : ℕ) : Outcome Error (Picker × Option ℕ) :=
  match p.peerBitfields.lookup addr with
  | none => .ok (p, none)
  | some bf => do
    match ← p.choose pm bf endgame choice with
    | none => return (p, none)
    | some i =>
      return ({ p with assigned := p.assigned.insert addr i }, some i)

def pickFor (addr : SocketAddr) (pm : PieceManager) (endgame : Bool)
    (choice : ℕ) : Outcome Error (Picker × Option ℕ) :=
  match p.assigned.lookup addr with
  | none => p.pickNew addr pm endgame choice
  | some i => do
    let state ← pm.state i
    if state ≠ .complete && pm.isWanted i then return (p, some i)
    else p.pickNew addr pm endgame choice

end Picker

end RustyTorrent.Piece
