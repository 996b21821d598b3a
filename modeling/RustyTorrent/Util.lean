import Mathlib.Data.List.Basic

/-!
# Cleaning remote text for logs

`util.rs`: the filter applied to remote-supplied text before it is echoed in
an error.  Text is a list of code points.
-/

namespace RustyTorrent.Util

/-- `char::is_control`: the two control blocks. -/
def isControl (c : ℕ) : Bool :=
  decide (c < 0x20 ∨ (0x7F ≤ c ∧ c < 0xA0))

def isInvisibleOrDirectional (c : ℕ) : Bool :=
  decide ((0x200B ≤ c ∧ c ≤ 0x200F) ∨ (0x202A ≤ c ∧ c ≤ 0x202E) ∨
    (0x2066 ≤ c ∧ c ≤ 0x2069) ∨ c = 0xFEFF)

/-- The two dots that mark a cut. -/
def cutMark : List ℕ := [46, 46]

/-- The first `n` characters, with the mark when something was cut off. -/
def truncateChars (n : ℕ) (text : List ℕ) : List ℕ :=
  if n < text.length then text.take n ++ cutMark else text

def sanitizeRemoteText (text : List ℕ) : List ℕ :=
  (truncateChars 512 text).filter
    fun c => !isControl c && !isInvisibleOrDirectional c

end RustyTorrent.Util
