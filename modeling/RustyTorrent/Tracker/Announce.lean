import RustyTorrent.Martian
import RustyTorrent.Peer.Handshake
import RustyTorrent.Socks5
import RustyTorrent.Support.Fallback
import RustyTorrent.Tracker.Redact

/-!
# Announcing to trackers

`tracker/mod.rs`, the front of the HTTP client in `tracker/http.rs` and
`announce_magnet_tracker` of `main.rs`: which of the URLs a torrent or a magnet
link names are contacted, by which client, and in which order.

A contact is one use of a client: the resolution of the name, the connection,
the request and the retries inside the client.  An announce decides whether
there is a contact before it makes any, so each function returns an error or
the contact, and the answers of the network are a function of the contacts so
far.  Parsing of URLs and addresses, the addresses of interfaces and the
answers are parameters.
-/

namespace RustyTorrent.Tracker

open Metainfo Peer Splitting

/-- `Error::Tracker`, the only error here. -/
structure TrackerError where
  msg : Text
  deriving DecidableEq, Repr

inductive Event where
  | none
  | started
  | completed
  | stopped
  deriving DecidableEq, Repr

def Event.asHttpParam : Event → Option Text
  | .none => Option.none
  | .started => some "started".toList
  | .completed => some "completed".toList
  | .stopped => some "stopped".toList

structure AnnounceRequest where
  infoHash : Digest
  peerId : PeerId
  port : UInt16
  uploaded : UInt64
  downloaded : UInt64
  left : UInt64
  event : Event
  numWant : Int32

/-- `AnnounceResponse`, with its durations in seconds. -/
structure AnnounceResponse where
  interval : ℕ
  minInterval : Option ℕ
  seeders : Option UInt32
  leechers : Option UInt32
  peers : List SocketAddr

/-! ## The request URL -/

/-- One byte of `percent_encode`. -/
def percentByte (b : UInt8) : Text :=
  let c := Char.ofNat b.toNat
  let unreserved : Bool :=
    (b < 128 ∧ c.isAlphanum) ∨ c ∈ ['-', '_', '.', '~']
  if unreserved then [c]
  else ['%', (Nat.digitChar (b.toNat / 16)).toUpper,
    (Nat.digitChar (b.toNat % 16)).toUpper]

def percentEncode (bytes : Bytes) : Text := bytes.flatMap percentByte

/-- `{}` of an unsigned number. -/
def showNat (n : ℕ) : Text := Nat.toDigits 10 n

/-- `{}` of a signed number. -/
def showInt (i : ℤ) : Text :=
  if i < 0 then '-' :: showNat i.natAbs else showNat i.natAbs

/-- The parameters `build_url` appends. -/
def announceQuery (req : AnnounceRequest) : Text :=
  "info_hash=".toList ++ percentEncode req.infoHash ++
    "&peer_id=".toList ++ percentEncode req.peerId ++
    "&port=".toList ++ showNat req.port.toNat ++
    "&uploaded=".toList ++ showNat req.uploaded.toNat ++
    "&downloaded=".toList ++ showNat req.downloaded.toNat ++
    "&left=".toList ++ showNat req.left.toNat ++
    "&compact=1&numwant=".toList ++ showInt req.numWant.toInt ++
    match req.event.asHttpParam with
    | some e => "&event=".toList ++ e
    | none => []

def buildUrl (base : Text) (req : AnnounceRequest) : Text :=
  let sep := if '?' ∈ base then '&' else '?'
  base ++ sep :: announceQuery req

/-! ## URLs -/

/-- `reqwest::Url`, as far as it is inspected. -/
structure Url where
  scheme : Text
  host : Option Text
  port : Option UInt16
  deriving DecidableEq, Repr

def udpPrefix : Text := "udp://".toList
def httpPrefix : Text := "http://".toList
def httpsPrefix : Text := "https://".toList

/-- The schemes `reqwest` sends requests to; it refuses the others. -/
def Url.isHttp (u : Url) : Bool :=
  u.scheme = "http".toList ∨ u.scheme = "https".toList

/-- `Url::parse`, with two of its properties: the scheme of a URL is what it
begins with, and appending the announce parameters to a URL of the web changes
neither its scheme nor its host. -/
structure UrlParser where
  parse : Text → Option Url
  udp_scheme : ∀ {t u}, udpPrefix <+: t → parse t = some u → u.isHttp = false
  request_host : ∀ {base req u}, parse (buildUrl base req) = some u →
    u.isHttp = true → ∃ v, parse base = some v ∧ v.host = u.host

/-! ## Contacts -/

/-- The client of an HTTP announce. -/
inductive HttpClient where
  | direct (localIp : Option IpAddr) (strict : Bool)
  | proxied (proxy : Socks5.ProxyConfig) (localIp : Option IpAddr)

/-- A use of one of the two clients, for a listed URL.  The HTTP client sends
to the URL it built and parsed. -/
inductive Contact where
  | udp (url : Text) (bindIface : Option Text)
  | http (url : Text) (target : Url) (client : HttpClient)
      (userAgent : Option Text)

/-- The listed URL. -/
def Contact.url : Contact → Text
  | .udp url _ => url
  | .http url _ _ _ => url

/-- The surroundings: the parsers, the addresses of interfaces, what `reqwest`
says to a URL it does not send to, and the answers of the network to a contact
after others. -/
structure Env where
  parser : UrlParser
  parseIp : Text → Option IpAddr
  interfaceLocalIp : Text → Bool → Except Text IpAddr
  refusal : Text → Text
  answer : List Contact → Contact → Except TrackerError AnnounceResponse

/-- The settings of a session. -/
structure Settings where
  proxy : Option Socks5.ProxyConfig
  anonymous : Bool
  bindIface : Option Text

def Settings.strict (s : Settings) : Bool := s.anonymous || s.proxy.isSome

variable (env : Env) (s : Settings) (req : AnnounceRequest)

/-! ## The HTTP client -/

def urlHostIsIpv6Literal (url : Text) : Bool :=
  let rest :=
    match splitOnce schemeSep url with
    | some (_, r) => r
    | none => url
  let authority := rest.takeWhile fun c => c ≠ '/' ∧ c ≠ '?' ∧ c ≠ '#'
  (afterUserinfo authority).head? = some '['

/-- The source address of the interface, if one is given. -/
def localIp (baseUrl : Text) : Except TrackerError (Option IpAddr) :=
  match s.bindIface with
  | none => .ok none
  | some iface =>
    match env.interfaceLocalIp iface (urlHostIsIpv6Literal baseUrl) with
    | .ok ip => .ok (some ip)
    | .error e =>
      .error ⟨"bind-iface ".toList ++ iface ++ ": ".toList ++ e⟩

/-- `announce_inner` from its source address up to the request. -/
def httpRequest (baseUrl : Text) (ip : Option IpAddr) :
    Except TrackerError Contact :=
  let userAgent :=
    if s.anonymous then some "libtorrent/2.0.9".toList else none
  let client :=
    match s.proxy with
    | some p => .proxied p ip
    | none => .direct ip s.strict
  let url := buildUrl baseUrl req
  match env.parser.parse url with
  | some target =>
    if target.isHttp then .ok (.http baseUrl target client userAgent)
    else .error ⟨"http send: ".toList ++ env.refusal url⟩
  | none => .error ⟨"http send: ".toList ++ env.refusal url⟩

/-- `http::announce_with_proxy_anon` up to the request. -/
def httpAnnounce (baseUrl : Text) : Except TrackerError Contact :=
  match localIp env s baseUrl with
  | .ok ip => httpRequest env s req baseUrl ip
  | .error e => .error e

/-! ## One URL -/

def announceWithProxyAnon (url : Text) : Except TrackerError Contact :=
  if s.anonymous ∧ s.proxy = none then
    .error ⟨("anonymous mode requires a SOCKS5 proxy; " ++
      "refusing direct tracker announce: ").toList ++ redactUrlQuery url⟩
  else if udpPrefix <+: url then
    if s.anonymous ∨ s.proxy.isSome then
      .error ⟨("skipping UDP tracker while proxy is configured or " ++
        "anonymous mode is on: ").toList ++ redactUrlQuery url⟩
    else .ok (.udp url s.bindIface)
  else if httpPrefix <+: url ∨ httpsPrefix <+: url then
    httpAnnounce env s req url
  else
    .error ⟨"unsupported tracker scheme: ".toList ++ redactUrlQuery url⟩

def trackerUrlDialable (url : Text) (strict : Bool) : Bool :=
  match env.parser.parse url with
  | some u =>
    match u.host with
    | some h => Util.isDialableUrlHost env.parseIp h strict
    | none => false
  | none => false

def martianUrlLabel (url : Text) : Text :=
  match env.parser.parse url with
  | some u =>
    match u.host with
    | some h =>
      u.scheme ++ schemeSep ++ h ++
        match u.port with
        | some p => ':' :: showNat p.toNat
        | none => []
    | none => "<unparseable>".toList
  | none => "<unparseable>".toList

/-- The error for a URL that fails the screen. -/
def refusedByScreen (url : Text) : TrackerError :=
  ⟨"tracker host refused by martian screen: ".toList ++
    martianUrlLabel env url⟩

def announceScreened (url : Text) : Except TrackerError Contact :=
  if trackerUrlDialable env url s.strict then httpAnnounce env s req url
  else .error (refusedByScreen env url)

/-- The contacts of a call of `announce_screened`, and its result. -/
def runScreened (url : Text) :
    List Contact × Except TrackerError AnnounceResponse :=
  match announceScreened env s req url with
  | .error e => ([], .error e)
  | .ok c => ([c], env.answer [] c)

/-! ## Walking the tiers -/

/-- One round of the loops in `walk_tiers`. -/
def tryListed (url : Text) : Except TrackerError Contact :=
  if trackerUrlDialable env url s.strict then
    announceWithProxyAnon env s req url
  else .error (refusedByScreen env url)

/-- The state of a walk. -/
abbrev Walk := Fallback.State Text Contact TrackerError AnnounceResponse

/-- The tiers, then the single fallback. -/
def walkTiers (tiers : List (List Text)) (fallbackSingle : Option Text) :
    Walk :=
  let round := Fallback.attempt (tryListed env s req) env.answer
  let walked := tiers.foldl (fun w tier => tier.foldl round w) Fallback.start
  match fallbackSingle with
  | some url => round walked url
  | none => walked

/-- The result of `walk_tiers`. -/
def Walk.result (w : Walk) : Except TrackerError (Text × AnnounceResponse) :=
  match w.outcome with
  | .ok r => .ok r
  | .error last => .error (last.getD ⟨"no trackers configured".toList⟩)

/-- `announce_with_fallback_anon`: the contacts and the result.  The deadline
may strike while the contact of a given number is under way. -/
def announceWithFallbackAnon (tiers : List (List Text))
    (fallbackSingle : Option Text) (deadline : Option ℕ) :
    List Contact × Except TrackerError (Text × AnnounceResponse) :=
  let w := walkTiers env s req tiers fallbackSingle
  match deadline with
  | none => (w.log, Walk.result w)
  | some n =>
    if n ≤ w.log.length then
      (w.log.take n,
        .error ⟨"announce walk exceeded its 60s deadline".toList⟩)
    else (w.log, Walk.result w)

/-! ## The magnet path -/

inductive TrackerOutcome where
  | screened
  | dialed
  deriving DecidableEq, Repr

/-- `announce_magnet_tracker`: its contacts, its outcome and the pool after
it. -/
def announceMagnetTracker (url : Text) (pool : List SocketAddr) :
    List Contact × TrackerOutcome × List SocketAddr :=
  let run := runScreened env s req url
  match run.2 with
  | .ok resp =>
    (run.1, .dialed,
      pool ++ resp.peers.filter fun a => Util.isDialablePeerAddr a s.strict)
  | .error e =>
    if "martian screen".toList <:+: e.msg then (run.1, .screened, pool)
    else (run.1, .dialed, pool)

end RustyTorrent.Tracker
