import RustyTorrent.Peer.Extension

/-!
# The screen for addresses and hosts

`util.rs`: which addresses may be dialed, and which hosts of announce URLs may
be contacted.  `bare.parse::<IpAddr>()` is a parameter.
-/

namespace RustyTorrent.Util

/-! ## Predicates of the standard library -/

/-- `Ipv6Addr::segments`. -/
def segment (octets : Vector UInt8 16) (i : Fin 8) : ℕ :=
  256 * (octets.get ⟨2 * i, by omega⟩).toNat +
    (octets.get ⟨2 * i + 1, by omega⟩).toNat

def toIpv4Mapped (o : Vector UInt8 16) : Option (Vector UInt8 4) :=
  if (o.toList.take 10).all (· = 0) ∧ o[10] = 0xFF ∧ o[11] = 0xFF then
    some #v[o[12], o[13], o[14], o[15]]
  else none

/-- An address in an IPv4 wrapper is judged as the one inside. -/
def unwrapMapped : IpAddr → IpAddr
  | .v4 o => .v4 o
  | .v6 o =>
    match toIpv4Mapped o with
    | some v4 => .v4 v4
    | none => .v6 o

def isLoopback : IpAddr → Bool
  | .v4 o => o[0] = 127
  | .v6 o => (o.toList.take 15).all (· = 0) ∧ o[15] = 1

def isUnspecified : IpAddr → Bool
  | .v4 o => o.toList.all (· = 0)
  | .v6 o => o.toList.all (· = 0)

def isMulticast : IpAddr → Bool
  | .v4 o => (224 : UInt8) ≤ o[0] ∧ o[0] ≤ 239
  | .v6 o => o[0] = 0xFF

def isBroadcast (o : Vector UInt8 4) : Bool := o.toList.all (· = 255)

def isLinkLocal (o : Vector UInt8 4) : Bool := o[0] = 169 ∧ o[1] = 254

def isDocumentation (o : Vector UInt8 4) : Bool :=
  (o[0] = 192 ∧ o[1] = 0 ∧ o[2] = 2) ∨
    (o[0] = 198 ∧ o[1] = 51 ∧ o[2] = 100) ∨
    (o[0] = 203 ∧ o[1] = 0 ∧ o[2] = 113)

def isPrivate (o : Vector UInt8 4) : Bool :=
  o[0] = 10 ∨ (o[0] = 172 ∧ (16 : UInt8) ≤ o[1] ∧ o[1] ≤ 31) ∨
    (o[0] = 192 ∧ o[1] = 168)

/-! ## The screen -/

/-- The ranges of version 4 that are never dialed. -/
def refusedV4 (o : Vector UInt8 4) : Bool :=
  let cgnat : Bool := o[0] = 100 ∧ (64 : UInt8) ≤ o[1] ∧ o[1] ≤ 127
  let benchmarking : Bool := o[0] = 198 ∧ (18 : UInt8) ≤ o[1] ∧ o[1] ≤ 19
  let reserved : Bool := o[0] &&& 0xF0 = 240 ∧ ¬ isBroadcast o
  let thisNetwork : Bool := o[0] = 0
  let ietfProtocols : Bool := o[0] = 192 ∧ o[1] = 0 ∧ o[2] = 0
  let sixToFourRelay : Bool := o[0] = 192 ∧ o[1] = 88 ∧ o[2] = 99
  isBroadcast o || isLinkLocal o || cgnat || benchmarking ||
    isDocumentation o || reserved || thisNetwork ||
    ietfProtocols || sixToFourRelay

/-- The ranges of version 6 that are never dialed. -/
def refusedV6 (o : Vector UInt8 16) : Bool :=
  let s := segment o
  let nat64 : Bool := s 0 = 0x64 ∧ s 1 = 0xFF9B ∧ s 2 = 0 ∧ s 3 = 0
  let nat64LocalUse : Bool := s 0 = 0x64 ∧ s 1 = 0xFF9B ∧ s 2 = 1
  let sixToFour : Bool := s 0 = 0x2002
  let teredo : Bool := s 0 = 0x2001 ∧ s 1 = 0
  let doc6 : Bool := s 0 = 0x2001 ∧ s 1 = 0xDB8
  let zeronet6 : Bool := (o.toList.take 14).all (· = 0)
  let discardOnly : Bool := s 0 = 0x100 ∧ s 1 = 0 ∧ s 2 = 0 ∧ s 3 = 0
  let ietfProtocols6 : Bool := s 0 = 0x2001 ∧ s 1 = 1
  let benchmarking6 : Bool := s 0 = 0x2001 ∧ s 1 = 2 ∧ s 2 = 0
  let orchid : Bool := s 0 = 0x2001 ∧ s 1 &&& 0xFFF0 = 0x10
  let amt : Bool := s 0 = 0x2001 ∧ s 1 = 3
  let as112v6 : Bool := s 0 = 0x2001 ∧ s 1 = 4 ∧ s 2 = 0x112
  let orchidV2 : Bool := s 0 = 0x2001 ∧ s 1 &&& 0xFFF0 = 0x20
  let droneRta : Bool := s 0 = 0x2001 ∧ s 1 &&& 0xFFF0 = 0x30
  let linkLocal : Bool := s 0 &&& 0xFFC0 = 0xFE80
  nat64 || nat64LocalUse || sixToFour ||
    teredo || doc6 || ietfProtocols6 ||
    benchmarking6 || orchid || amt || as112v6 ||
    orchidV2 || droneRta || zeronet6 || discardOnly ||
    linkLocal

/-- The ranges of a site, refused in strict mode only. -/
def isSiteLocal : IpAddr → Bool
  | .v4 o => isPrivate o
  | .v6 o => segment o 0 &&& 0xFE00 = 0xFC00

/-- The ranges refused in both modes. -/
def isMartian : IpAddr → Bool
  | .v4 o => refusedV4 o
  | .v6 o => refusedV6 o

def isDialableIp (ip : IpAddr) (strict : Bool) : Bool :=
  let ip := unwrapMapped ip
  if isLoopback ip || isUnspecified ip || isMulticast ip then false
  else !isMartian ip && !(strict && isSiteLocal ip)

def isDialablePeerAddr (addr : SocketAddr) (strict : Bool) : Bool :=
  isDialableIp addr.ip strict

/-- `trim_matches` of the brackets around an address of version 6. -/
def trimBrackets (host : List Char) : List Char :=
  let bracket (c : Char) : Bool := c = '[' ∨ c = ']'
  ((host.dropWhile bracket).reverse.dropWhile bracket).reverse

/-- `is_dialable_url_host`: domains pass, and so does the own machine. -/
def isDialableUrlHost (parseIp : List Char → Option IpAddr)
    (host : List Char) (strict : Bool) : Bool :=
  match parseIp (trimBrackets host) with
  | none => true
  | some parsed =>
    let ip := unwrapMapped parsed
    if isLoopback ip then true else isDialableIp ip strict

end RustyTorrent.Util
