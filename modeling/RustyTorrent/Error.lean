import Mathlib.Data.List.Basic

/-!
# The crate's error type

The constructors of `Error` with the texts they carry.  An `io::Error` is its
kind together with its message.  A text that echoes remote input is kept as
its fragments, with the echoed characters next to the format they are shown
in.
-/

namespace RustyTorrent

/-- Raw byte strings (`Vec<u8>` and `&[u8]`). -/
abbrev Bytes := List UInt8

/-- The kinds of `io::Error` the modelled code constructs or inspects. -/
inductive IoErrorKind where
  | notFound
  | invalidInput
  | unexpectedEof
  | other
  deriving DecidableEq, Repr

/-- A fragment of an error text: literal text, characters shown as they are,
or characters shown in the escaped form of a debug format. -/
inductive Fragment where
  | text (s : String)
  | shown (chars : List ℕ)
  | debug (chars : List ℕ)
  deriving DecidableEq, Repr

inductive Error where
  | bencode (msg : String)
  | bencodeEcho (parts : List Fragment)
  | handshake (msg : String)
  | verifyFailed (index : ℕ)
  | io (kind : IoErrorKind) (msg : String)
  | network (msg : String)
  | protocol (msg : String)
  | crypto (msg : String)
  deriving DecidableEq, Repr

/-- The characters of a fragment.  The escapes of the debug format are not
expanded, only its quotes are put around the text. -/
def Fragment.display : Fragment → String
  | .text s => s
  | .shown chars => String.ofList (chars.map Char.ofNat)
  | .debug chars => "\"" ++ String.ofList (chars.map Char.ofNat) ++ "\""

/-- The `Display` form of the bencode errors, around their message. -/
def bencodeDisplay (msg : String) : String :=
  "invalid torrent/magnet data (" ++ msg ++ "); the file or link is " ++
    "malformed or truncated — re-download it or check the magnet URI"

/-- `to_string`.  Only bencode errors are ever shown inside another error;
the advice that follows the message of the others is left out. -/
def Error.display : Error → String
  | .bencode msg => bencodeDisplay msg
  | .bencodeEcho parts =>
    bencodeDisplay (String.join (parts.map Fragment.display))
  | .handshake msg => "peer handshake failed (" ++ msg ++ ")"
  | .verifyFailed index =>
    s!"piece {index} failed hash verification"
  | .io _ msg => "I/O error (" ++ msg ++ ")"
  | .network msg => "network error (" ++ msg ++ ")"
  | .protocol msg => "peer protocol violation (" ++ msg ++ ")"
  | .crypto msg => "crypto/encrypted-spool error (" ++ msg ++ ")"

end RustyTorrent
