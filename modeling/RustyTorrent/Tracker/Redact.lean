import RustyTorrent.Support.Splitting
import RustyTorrent.Util

/-!
# Redacting tracker URLs

`tracker/mod.rs`: the form of an announce URL that may be shown in logs and
errors.  Text is a list of characters.  The query and the userinfo are cut out
first, and control characters are dropped afterwards.
-/

namespace RustyTorrent.Tracker

open Splitting

/-- A `str`. -/
abbrev Text := List Char

/-- `"://"`. -/
def schemeSep : Text := [':', '/', '/']

def isControl (c : Char) : Bool := Util.isControl c.toNat

/-- `url.split(['?', '#']).next()`. -/
def beforeQuery (url : Text) : Text :=
  url.takeWhile fun c => c ≠ '?' ∧ c ≠ '#'

/-- `rest.split_once('/')`: all of the text when there is no slash. -/
def splitAuthority (rest : Text) : Text × Option Text :=
  match splitOnce ['/'] rest with
  | some (authority, after) => (authority, some after)
  | none => (rest, none)

/-- `authority.rsplit_once('@')`: what follows the last sign, if there is
one. -/
def afterUserinfo (authority : Text) : Text :=
  (authority.reverse.takeWhile (· ≠ '@')).reverse

/-- The userinfo is cut out of the authority.  Without a scheme the text is
left as it is. -/
def stripUserinfo (base : Text) : Text :=
  match splitOnce schemeSep base with
  | some (scheme, rest) =>
    let authority := afterUserinfo (splitAuthority rest).1
    match (splitAuthority rest).2 with
    | some tail => scheme ++ schemeSep ++ authority ++ '/' :: tail
    | none => scheme ++ schemeSep ++ authority
  | none => base

/-- The characters that are not control characters. -/
def visible (text : Text) : Text := text.filter fun c => !isControl c

def maxChars : ℕ := 512

/-- A text that is too long is cut and marked. -/
def bounded (filtered : Text) : Text :=
  if maxChars < filtered.length then filtered.take maxChars ++ ['.', '.']
  else filtered

def redactUrlQuery (url : Text) : Text :=
  bounded (visible (stripUserinfo (beforeQuery url)))

/-! ## Reading a text as a URL -/

/-- The authority: what stands between the first `://` and the path, query or
fragment. -/
def authorityOf (text : Text) : Option Text :=
  (splitOnce schemeSep text).map fun s =>
    s.2.takeWhile fun c => c ≠ '/' ∧ c ≠ '?' ∧ c ≠ '#'

/-- The authority carries no userinfo. -/
def NoUserinfo (text : Text) : Prop := ∀ a ∈ authorityOf text, '@' ∉ a

end RustyTorrent.Tracker
