import RustyTorrent.Peer.Extension
import RustyTorrent.Support.Program

/-!
# The SOCKS5 client

`socks5.rs`: the handshake with one proxy over an open stream, and the chain
of handshakes that tunnels through several.  A handshake is a program over the
stream; what the proxy sends, when it stops sending, and which writes fail is
up to the connection it runs over.  The overall timeout is one of the errors a
connection can end with.
-/

namespace RustyTorrent.Socks5

def verSocks5 : UInt8 := 0x05
def verUserpass : UInt8 := 0x01
def methodNoAuth : UInt8 := 0x00
def methodUserpass : UInt8 := 0x02
def methodNoneAcceptable : UInt8 := 0xFF
def cmdConnect : UInt8 := 0x01
def atypIpv4 : UInt8 := 0x01
def atypDomain : UInt8 := 0x03
def atypIpv6 : UInt8 := 0x04
def repSucceeded : UInt8 := 0x00

/-- `Credentials`, as the bytes that go over the wire. -/
structure Credentials where
  username : Bytes
  password : Bytes
  deriving DecidableEq, Repr

/-- `ProxyConfig` as one dial uses it. -/
structure ProxyConfig where
  addr : SocketAddr
  credentials : Option Credentials
  deriving DecidableEq, Repr

inductive Socks5Error where
  | io (text : String)
  | protocol (msg : String)
  | authFailed
  | refused (rep : UInt8) (meaning : String)
  | timeout
  deriving DecidableEq, Repr

/-- A conversation with a proxy. -/
abbrev Session := Program UInt8 Socks5Error

open Program

/-- The two digits of `{:02x}`. -/
def hexByte (b : UInt8) : String :=
  String.ofList [Nat.digitChar (b.toNat / 16), Nat.digitChar (b.toNat % 16)]

def repMeaning (rep : UInt8) : String :=
  if rep = 0x01 then "general SOCKS server failure"
  else if rep = 0x02 then "connection not allowed by ruleset"
  else if rep = 0x03 then "network unreachable"
  else if rep = 0x04 then "host unreachable"
  else if rep = 0x05 then "connection refused by destination"
  else if rep = 0x06 then "TTL expired"
  else if rep = 0x07 then "command not supported"
  else if rep = 0x08 then "address type not supported"
  else "unknown REP"

/-! ## Method negotiation -/

/-- `methods`: only USER/PASS with credentials, only NO_AUTH without. -/
def offeredMethods (proxy : ProxyConfig) : Bytes :=
  if proxy.credentials.isSome then [methodUserpass] else [methodNoAuth]

def greeting (proxy : ProxyConfig) : Bytes :=
  let methods := offeredMethods proxy
  verSocks5 :: UInt8.ofNat methods.length :: methods

/-- The request of `do_userpass_auth`. -/
def userpassRequest (creds : Credentials) : Bytes :=
  verUserpass :: UInt8.ofNat creds.username.length :: creds.username ++
    UInt8.ofNat creds.password.length :: creds.password

def doUserpassAuth (creds : Credentials) : Session Unit :=
  if 255 < creds.username.length ∨ 255 < creds.password.length then
    .fail (.protocol "username/password must each be ≤255 bytes")
  else do
    writeAll (userpassRequest creds)
    let reply ← readExact 2
    if reply.getD 0 0 ≠ verUserpass then
      .fail (.protocol ("auth reply ver = 0x" ++ hexByte (reply.getD 0 0) ++
        ", expected 0x01"))
    else if reply.getD 1 0 ≠ 0x00 then .fail .authFailed
    else return ()

/-- The reaction to the method the proxy chose. -/
def takeMethod (proxy : ProxyConfig) (method : UInt8) : Session Unit :=
  if method = methodNoAuth then return ()
  else if method = methodUserpass then
    match proxy.credentials with
    | none =>
      .fail (.protocol "proxy demanded USER/PASS but none provided")
    | some creds => doUserpassAuth creds
  else if method = methodNoneAcceptable then .fail .authFailed
  else
    .fail (.protocol ("proxy chose unsupported method 0x" ++ hexByte method))

/-- The first step of `do_handshake_on_stream`. -/
def negotiate (proxy : ProxyConfig) : Session Unit := do
  writeAll (greeting proxy)
  let methodReply ← readExact 2
  if methodReply.getD 0 0 ≠ verSocks5 then
    .fail (.protocol ("method reply ver = 0x" ++
      hexByte (methodReply.getD 0 0) ++ ", expected 0x05"))
  else takeMethod proxy (methodReply.getD 1 0)

/-! ## The CONNECT request -/

def buildConnectRequest (target : SocketAddr) : Bytes :=
  [verSocks5, cmdConnect, 0x00] ++
    (match target.ip with
    | .v4 octets => atypIpv4 :: octets.toList
    | .v6 octets => atypIpv6 :: octets.toList) ++
    toBytesBe 2 target.port.toNat

def drainBindAddrPort (atyp : UInt8) : Session Unit :=
  if atyp = atypIpv4 then do
    let _ ← readExact (4 + 2)
  else if atyp = atypIpv6 then do
    let _ ← readExact (16 + 2)
  else if atyp = atypDomain then do
    let lenBuf ← readExact 1
    let _ ← readExact ((lenBuf.getD 0 0).toNat + 2)
  else
    .fail (.protocol ("unsupported ATYP 0x" ++ hexByte atyp ++
      " in connect reply"))

/-- The second and third step of `do_handshake_on_stream`. -/
def requestConnect (target : SocketAddr) : Session Unit := do
  writeAll (buildConnectRequest target)
  let head ← readExact 4
  if head.getD 0 0 ≠ verSocks5 then
    .fail (.protocol ("connect reply ver = 0x" ++ hexByte (head.getD 0 0)))
  else if head.getD 1 0 ≠ repSucceeded then
    .fail (.refused (head.getD 1 0) (repMeaning (head.getD 1 0)))
  else drainBindAddrPort (head.getD 3 0)

def doHandshakeOnStream (proxy : ProxyConfig) (target : SocketAddr) :
    Session Unit := do
  negotiate proxy
  requestConnect target

/-! ## Chains of proxies -/

/-- The connection to a proxy. -/
abbrev Connection := Wire UInt8 Socks5Error

/-- One handshake of a chain: the connection it found, what it wrote and
received, and how it ended. -/
structure HopRun where
  hop : ProxyConfig
  target : SocketAddr
  found : Connection
  acts : List (Act UInt8)
  result : Except Socks5Error Unit

/-- The handshakes that were run, and the connection to the target. -/
structure ChainRun where
  hops : List HopRun
  result : Except Socks5Error Connection

/-- The loop of `do_connect_chain`: hop `i` connects to hop `i + 1`, the last
one to the target. -/
def connectHops (target : SocketAddr) :
    List ProxyConfig → Connection → ChainRun
  | [], stream => ⟨[], .ok stream⟩
  | hop :: rest, stream =>
    let hopTarget := (rest.head?.map ProxyConfig.addr).getD target
    let t := (doHandshakeOnStream hop hopTarget).run stream
    let here : HopRun := ⟨hop, hopTarget, stream, t.acts, t.result⟩
    match t.result with
    | .error e => ⟨[here], .error e⟩
    | .ok () =>
      let r := connectHops target rest t.wire
      ⟨here :: r.hops, r.result⟩

/-- `connect_chain`: `dialed` is the outcome of connecting to the first
proxy. -/
def connectChain (dialed : Except Socks5Error Connection)
    (chain : List ProxyConfig) (target : SocketAddr) : ChainRun :=
  if chain = [] then
    ⟨[], .error (.protocol "connect_chain called with empty chain")⟩
  else
    match dialed with
    | .error e => ⟨[], .error e⟩
    | .ok stream => connectHops target chain stream

end RustyTorrent.Socks5
