import RustyTorrent.Error
import RustyTorrent.Support.Hex
import RustyTorrent.Support.Splitting

/-!
# The request guard of the web servers

`csrf_guard` of `web.rs`: requests pass when the extractor `host_part` finds a
loopback name in their `Host` header and, for a POST, in their `Origin`
header.  It is compared with the authority grammar of RFC 3986: the two agree
on everything the guard admits except on names in stray brackets, an
unbracketed `::1`, names followed by something that is no port, headers with a
scheme that is none, and an `Origin` that is not visible ASCII.
-/

namespace RustyTorrent.Web

open Splitting List Option

/-! ## The guard -/

/-- The methods the guard tells apart. -/
inductive Method where
  | post
  | other (name : Bytes)
  deriving DecidableEq

/-- The parts of a request the guard reads. -/
structure Request where
  method : Method
  host : Option Bytes
  origin : Option Bytes
  deriving DecidableEq

/-- The bytes `HeaderValue::to_str` accepts. -/
def isVisibleAscii (b : UInt8) : Bool :=
  (32 ≤ b.toNat && b.toNat < 127) || b = 9

/-- The characters that can stand in an authority. -/
def inAuthority (c : UInt8) : Bool :=
  c ≠ asciiByte '/' ∧ c ≠ asciiByte '?' ∧ c ≠ asciiByte '#'

/-- What follows the first `://`, or all of the value. -/
def afterScheme (value : Bytes) : Bytes :=
  match splitOnce (ascii "://") value with
  | some s => s.2
  | none => value

def isBracket (c : UInt8) : Bool := c = asciiByte '[' ∨ c = asciiByte ']'

/-- The names `is_loopback_host` compares with. -/
def loopbackNames : List Bytes :=
  [ascii "127.0.0.1", ascii "::1", ascii "localhost"]

/-- `unreserved`, `sub-delims`, the colon and the sign of an escape. -/
def inUserinfo (c : UInt8) : Bool :=
  (48 ≤ c.toNat && c.toNat ≤ 57) || (65 ≤ c.toNat && c.toNat ≤ 90) ||
    (97 ≤ c.toNat && c.toNat ≤ 122) || c ∈ ascii "-._~!$&'()*+,;=:%"

/-- `userinfo`. -/
def IsUserinfo (u : Bytes) : Prop :=
  (∀ c ∈ u, inUserinfo c = true) ∧ Hex.WellEscaped u

/-- The part of an authority before its host. -/
def IsCredentials (s : Bytes) : Prop :=
  s = [] ∨ ∃ u, IsUserinfo u ∧ s = u ++ [asciiByte '@']

def isDigit (c : UInt8) : Bool := 48 ≤ c.toNat && c.toNat ≤ 57

/-- The part of an authority behind its host. -/
def IsPort (s : Bytes) : Prop :=
  s = [] ∨ ∃ ds, s = asciiByte ':' :: ds ∧ ∀ c ∈ ds, isDigit c = true

/-- The loopback hosts, with the brackets of an IPv6 literal. -/
def loopbackHosts : List Bytes :=
  [ascii "127.0.0.1", ascii "localhost", ascii "[::1]"]

/-- The authority `[userinfo "@"] host [":" port]` has a loopback host. -/
def NamesLoopback (authority : Bytes) : Prop :=
  ∃ credentials host port, authority = credentials ++ (host ++ port) ∧
    IsCredentials credentials ∧ host ∈ loopbackHosts ∧ IsPort port

/-- A loopback name between brackets of any kind and number, with anything
behind the last closing bracket, or, without one, behind the last colon. -/
def Dressed (authority : Bytes) : Prop :=
  ∃ b₁ name b₂ tail, authority = b₁ ++ (name ++ b₂) ++ tail ∧
    name ∈ loopbackNames ∧ (∀ c ∈ b₁, isBracket c = true) ∧
    (∀ c ∈ b₂, isBracket c = true) ∧
    (((∃ b, b₂ = b ++ [asciiByte ']']) ∧ asciiByte ']' ∉ tail) ∨
      (asciiByte ']' ∉ authority ∧
        ((tail = [] ∧ asciiByte ':' ∉ authority) ∨
          ∃ t, tail = asciiByte ':' :: t ∧ asciiByte ':' ∉ t)))

variable {authority : Bytes} (value : Bytes)

/-- The forms in which a dressed authority does name a loopback host: the host
with nothing but a port behind it, or a loopback name and more as the
credentials of a loopback host. -/
def Straight (authority : Bytes) : Prop :=
  (∃ host port, authority = host ++ port ∧ host ∈ loopbackHosts ∧
    IsPort port) ∨
  ∃ name x host, authority = name ++ asciiByte ':' :: (x ++
      asciiByte '@' :: host) ∧
    name ∈ loopbackNames ∧ IsUserinfo x ∧ asciiByte ':' ∉ x ∧
    host ∈ [ascii "127.0.0.1", ascii "localhost"]

theorem IsPort.not_mem {port : Bytes} (h : IsPort port) {c : UInt8}
    (hcolon : c ≠ asciiByte ':') (hdigit : isDigit c = false) : c ∉ port := by
  rcases h with rfl | ⟨ds, rfl, hds⟩
  · exact not_mem_nil
  · intro hmem
    rcases mem_cons.mp hmem with rfl | hmem
    · exact hcolon rfl
    · rw [hds c hmem] at hdigit
      cases hdigit

/-- The bytes of the value can be shown as text. -/
def Visible (value : Bytes) : Prop := value.all isVisibleAscii = true

/-- The authority the extractor looks at. -/
def seenAuthority (value : Bytes) : Bytes :=
  (afterScheme value).takeWhile inAuthority

/-- The guard takes the value for a local one. -/
def Taken (value : Bytes) : Prop :=
  Visible value ∧ Dressed (seenAuthority value)

/-- The authority is what it is taken for: in one of the straight forms if it
is the one that was looked at, and itself with a loopback host otherwise. -/
def Honest (value authority : Bytes) : Prop :=
  (Taken value ∧ seenAuthority value = authority ∧ Straight authority) ∨
    (¬ (Taken value ∧ seenAuthority value = authority) ∧
      NamesLoopback authority)

end RustyTorrent.Web
