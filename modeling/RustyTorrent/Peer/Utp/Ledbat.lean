import RustyTorrent.Support.Float64

/-!
# The congestion controller

`Ledbat` of `peer/utp/connection.rs`.  An instant is a number of nanoseconds;
delays are microseconds.  The window is an `f64`, computed in the rounded
arithmetic of `Float64`; whatever the samples are it stays between two packets
and the receive window (`onAck_cwnd`), so `windowPackets_le` bounds the number
of packets it allows.
-/

namespace RustyTorrent.Utp

open Float64

def maxDataPayload : ℕ := 1200

def recvWindowBytes : ℕ := 1024 * 1024

def initialWindowPackets : ℕ := 8

/-- Nanoseconds in a second. -/
def second : ℕ := 1000000000

def ledbatTargetMicros : ℚ := 100000

def ledbatMaxCwndIncrease : ℚ := maxDataPayload

def ledbatMinWindow : ℚ := (2 * maxDataPayload : ℕ)

def ledbatMaxWindow : ℚ := recvWindowBytes

def baseDelaySlot : ℕ := 60 * second

def baseDelaySlots : ℕ := 13

structure Ledbat where
  cwndBytes : ℚ
  fixedFloor : Option ℕ
  baseHistory : List ℕ
  curSlotStart : Option ℕ
  hasSample : Bool
  deriving DecidableEq, Repr

namespace Ledbat

def new : Ledbat where
  cwndBytes := (initialWindowPackets * maxDataPayload : ℕ)
  fixedFloor := none
  baseHistory := []
  curSlotStart := none
  hasSample := false

/-- One round of the loop that opens new slots: the oldest slot is dropped
once the history is full. -/
def pushSlot (sample : ℕ) (history : List ℕ) : List ℕ :=
  let history := history ++ [sample]
  if baseDelaySlots < history.length then history.tail else history

/-- Folds a sample into the newest slot. -/
def foldIntoLast (sample : ℕ) (history : List ℕ) : List ℕ :=
  match history.getLast? with
  | none => history ++ [sample]
  | some cur => history.dropLast ++ [min cur sample]

/-- `update_base`: the controller and the base delay it returns. -/
def updateBase (l : Ledbat) (delaySample now : ℕ) : Ledbat × ℕ :=
  let floor :=
    match l.fixedFloor with
    | none => delaySample
    | some f => min f delaySample
  let (history, start) :=
    match l.curSlotStart with
    | none => (l.baseHistory ++ [delaySample], now)
    | some start =>
      if baseDelaySlot ≤ now - start then
        let slotsPassed :=
          max ((now - start) / second / (baseDelaySlot / second)) 1
        -- The number of slots is cut to 32 bits before the product.
        ((pushSlot delaySample)^[slotsPassed] l.baseHistory,
          start + baseDelaySlot * (slotsPassed % 2 ^ 32))
      else (foldIntoLast delaySample l.baseHistory, start)
  let histMin := history.min?.getD floor
  ({ l with
      fixedFloor := some floor
      baseHistory := history
      curSlotStart := some start },
    max histMin floor)

/-- The window after an acknowledgement, from the window before it. -/
def nextWindow (cwnd : ℚ) (queuingMicros bytesAcked peerWnd : ℕ) : ℚ :=
  let queuing := Float64.ofNat queuingMicros
  let offTarget :=
    Float64.div (Float64.sub ledbatTargetMicros queuing) ledbatTargetMicros
  let windowFactor := Float64.div (Float64.ofNat bytesAcked) cwnd
  let gain :=
    Float64.mul (Float64.mul ledbatMaxCwndIncrease offTarget) windowFactor
  let grown :=
    Float64.clamp (Float64.add cwnd gain) ledbatMinWindow ledbatMaxWindow
  if 0 < peerWnd then
    max (min grown (Float64.ofNat peerWnd)) ledbatMinWindow
  else grown

def onAck (l : Ledbat) (delaySample bytesAcked peerWnd now : ℕ) : Ledbat :=
  if delaySample = 0 ∨ bytesAcked = 0 then l
  else
    let r := { l with hasSample := true }.updateBase delaySample now
    { r.1 with
      cwndBytes :=
        nextWindow r.1.cwndBytes (delaySample - r.2) bytesAcked peerWnd }

def windowPackets (l : Ledbat) : Option ℕ :=
  if l.hasSample then
    some (max (Float64.toNat (Float64.div l.cwndBytes maxDataPayload)) 2)
  else none

/-- The window never leaves its bounds. -/
def InBounds (l : Ledbat) : Prop :=
  ledbatMinWindow ≤ l.cwndBytes ∧ l.cwndBytes ≤ ledbatMaxWindow

theorem min_le_max_window : ledbatMinWindow ≤ ledbatMaxWindow := by
  norm_num [ledbatMinWindow, ledbatMaxWindow, maxDataPayload, recvWindowBytes]

theorem inBounds_new : new.InBounds := by
  norm_num [InBounds, new, ledbatMinWindow, ledbatMaxWindow, maxDataPayload,
    recvWindowBytes, initialWindowPackets]

theorem nextWindow_bounds (cwnd : ℚ) (queuing bytesAcked peerWnd : ℕ) :
    ledbatMinWindow ≤ nextWindow cwnd queuing bytesAcked peerWnd ∧
      nextWindow cwnd queuing bytesAcked peerWnd ≤ ledbatMaxWindow := by
  have hlo := min_le_max_window
  simp only [nextWindow]
  split_ifs with hwnd
  · refine ⟨le_max_right _ _, max_le ?_ hlo⟩
    exact (min_le_left _ _).trans (clamp_le hlo)
  · exact ⟨le_clamp hlo, clamp_le hlo⟩

theorem onAck_inBounds {l : Ledbat} (h : l.InBounds)
    (delaySample bytesAcked peerWnd now : ℕ) :
    (l.onAck delaySample bytesAcked peerWnd now).InBounds := by
  unfold onAck
  split_ifs with husable
  · exact h
  · exact nextWindow_bounds _ _ _ _

theorem windowPackets_le {l : Ledbat} (h : l.InBounds) {n : ℕ}
    (hn : l.windowPackets = some n) : n ≤ 874 := by
  unfold windowPackets at hn
  split_ifs at hn
  cases hn
  refine max_le (toNat_le ?_) (by norm_num)
  obtain ⟨hlo, hhi⟩ := h
  norm_num [ledbatMinWindow, ledbatMaxWindow, maxDataPayload,
    recvWindowBytes] at hlo hhi
  refine round_le ?_ ?_ (by norm_num)
  · exact div_nonneg (by linarith) (Nat.cast_nonneg _)
  · rw [div_le_iff₀ (by norm_num [maxDataPayload])]
    norm_num [maxDataPayload]
    linarith

end Ledbat

end RustyTorrent.Utp
