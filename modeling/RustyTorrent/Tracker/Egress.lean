import RustyTorrent.Tracker.Announce
import RustyTorrent.Tracker.RedactSafety

/-!
# What leaves the machine in an announce

The rules for the contacts of one announce: silence without a proxy in
anonymous mode, UDP only outside of anonymous and proxied sessions, the screen
for hosts, and the order of the list.  The walk over the tiers keeps all of
them.  The announce of the magnet path keeps all but the first, which it does
not check.
-/

namespace RustyTorrent.Tracker

open Splitting List Option Fallback

variable {env : Env} {s : Settings} {req : AnnounceRequest}

/-! ## The rules -/

/-- The host a client turns to passes the screen. -/
def Contact.TargetDialable (env : Env) (strict : Bool) : Contact → Prop
  | .udp _ _ => True
  | .http _ target _ _ =>
    ∃ h, target.host = some h ∧
      Util.isDialableUrlHost env.parseIp h strict = true

/-- The rules for the contacts of one call, over its list of entries. -/
structure Egress (env : Env) (s : Settings) (entries : List Text)
    (log : List Contact) : Prop where
  silent : s.anonymous = true → s.proxy = none → log = []
  udp_only : ∀ c ∈ log, udpPrefix <+: c.url →
    s.proxy = none ∧ s.anonymous = false ∧
      ∃ bindIface, c = .udp c.url bindIface
  screened : ∀ c ∈ log, trackerUrlDialable env c.url s.strict = true ∧
    c.TargetDialable env s.strict
  ordered : (log.map Contact.url).Sublist entries
  stops : ∀ pre c post r, log = pre ++ c :: post → env.answer pre c = .ok r →
    post = []

/-! ## One URL -/

/-- When the HTTP client sends a request for a listed URL. -/
def Sends (env : Env) (s : Settings) (req : AnnounceRequest) (url : Text) :
    Prop :=
  (∃ ip, localIp env s url = .ok ip) ∧
    ∃ target, env.parser.parse (buildUrl url req) = some target ∧
      target.isHttp = true

variable {url : Text} {c : Contact}

theorem httpRequest_eq_ok {ip : Option IpAddr}
    (h : httpRequest env s req url ip = .ok c) :
    ∃ target client userAgent, c = .http url target client userAgent ∧
      env.parser.parse (buildUrl url req) = some target ∧
      target.isHttp = true := by
  unfold httpRequest at h
  dsimp only at h
  split at h
  · rename_i target hparse
    split at h
    · rename_i hhttp
      cases h
      exact ⟨target, _, _, rfl, hparse, hhttp⟩
    · cases h
  · cases h

theorem exists_httpRequest {target : Url}
    (hparse : env.parser.parse (buildUrl url req) = some target)
    (hhttp : target.isHttp = true) (ip : Option IpAddr) :
    ∃ c, httpRequest env s req url ip = .ok c := by
  unfold httpRequest
  dsimp only
  rw [hparse]
  dsimp only
  rw [if_pos hhttp]
  exact ⟨_, rfl⟩

theorem httpAnnounce_eq_ok : httpAnnounce env s req url = .ok c ↔
    ∃ ip, localIp env s url = .ok ip ∧
      httpRequest env s req url ip = .ok c := by
  unfold httpAnnounce
  cases localIp env s url with
  | error | ok => simp

theorem exists_httpAnnounce_iff :
    (∃ c, httpAnnounce env s req url = .ok c) ↔ Sends env s req url := by
  constructor
  · rintro ⟨c, hc⟩
    obtain ⟨ip, hip, hrequest⟩ := httpAnnounce_eq_ok.mp hc
    obtain ⟨target, -, -, -, hparse, hhttp⟩ := httpRequest_eq_ok hrequest
    exact ⟨⟨ip, hip⟩, target, hparse, hhttp⟩
  · rintro ⟨⟨ip, hip⟩, target, hparse, hhttp⟩
    obtain ⟨c, hc⟩ := exists_httpRequest hparse hhttp ip
    exact ⟨c, httpAnnounce_eq_ok.mpr ⟨ip, hip, hc⟩⟩

/-- What the rules ask of a single contact. -/
structure Permitted (env : Env) (s : Settings) (c : Contact) : Prop where
  udp_only : udpPrefix <+: c.url → s.proxy = none ∧ s.anonymous = false ∧
    ∃ bindIface, c = .udp c.url bindIface
  screened : trackerUrlDialable env c.url s.strict = true ∧
    c.TargetDialable env s.strict

theorem permitted_of_http (hdial : trackerUrlDialable env url s.strict = true)
    (h : httpAnnounce env s req url = .ok c) :
    c.url = url ∧ Permitted env s c := by
  obtain ⟨ip, -, hrequest⟩ := httpAnnounce_eq_ok.mp h
  obtain ⟨target, client, userAgent, rfl, hparse, hhttp⟩ :=
    httpRequest_eq_ok hrequest
  refine ⟨rfl, fun hudp => ?_, hdial, ?_⟩
  · -- the request URL begins like the listed one, which is not of the web
    have hbuilt : udpPrefix <+: buildUrl url req :=
      hudp.trans (prefix_append url _)
    have hnot := env.parser.udp_scheme hbuilt hparse
    rw [hhttp] at hnot
    cases hnot
  · obtain ⟨v, hv, hhost⟩ := env.parser.request_host hparse hhttp
    unfold trackerUrlDialable at hdial
    rw [hv] at hdial
    dsimp only at hdial
    rw [hhost] at hdial
    show ∃ h, target.host = some h ∧ _
    cases htarget : target.host with
    | none =>
      rw [htarget] at hdial
      cases hdial
    | some h =>
      rw [htarget] at hdial
      exact ⟨h, rfl, hdial⟩

theorem tryListed_eq_ok (h : tryListed env s req url = .ok c) :
    c.url = url ∧ Permitted env s c ∧
      ¬ (s.anonymous = true ∧ s.proxy = none) := by
  unfold tryListed at h
  split_ifs at h with hdial
  unfold announceWithProxyAnon at h
  split_ifs at h with hanon hudp hrefuse hweb
  · cases h
    simp only [not_or, Bool.not_eq_true, isSome_eq_false_iff,
      isNone_iff_eq_none] at hrefuse
    exact ⟨rfl, ⟨fun _ => ⟨hrefuse.2, hrefuse.1, _, rfl⟩, hdial, trivial⟩,
      hanon⟩
  · obtain ⟨hurl, hperm⟩ := permitted_of_http hdial h
    exact ⟨hurl, hperm, hanon⟩

/-! ## The walk -/

theorem walkTiers_sound (tiers : List (List Text))
    (fallbackSingle : Option Text) :
    Fallback.Sound (tryListed env s req) env.answer
      (tiers.flatten ++ fallbackSingle.toList)
      (walkTiers env s req tiers fallbackSingle) := by
  have hwalked : Fallback.Sound (tryListed env s req) env.answer
      ([] ++ tiers.flatten)
      (tiers.flatten.foldl (attempt (tryListed env s req) env.answer) start) :=
    sound_start.foldl_attempt tiers.flatten
  rw [foldl_flatten, nil_append] at hwalked
  unfold walkTiers
  cases fallbackSingle with
  | none => rwa [toList_none, append_nil]
  | some url => exact hwalked.attempt url

theorem Egress.of_sound {entries : List Text} {w : Walk}
    (h : Fallback.Sound (tryListed env s req) env.answer entries w) :
    Egress env s entries w.log := by
  have hcontact : ∀ c ∈ w.log, Permitted env s c ∧
      ¬ (s.anonymous = true ∧ s.proxy = none) := by
    intro c hc
    obtain ⟨url, -, hurl⟩ := h.mem_log hc
    exact (tryListed_eq_ok hurl).2
  exact {
    silent := fun hanon hproxy => eq_nil_iff_forall_not_mem.mpr
      fun c hc => (hcontact c hc).2 ⟨hanon, hproxy⟩
    udp_only := fun c hc => (hcontact c hc).1.udp_only
    screened := fun c hc => (hcontact c hc).1.screened
    ordered := h.labels_sublist fun _ _ hok => (tryListed_eq_ok hok).1
    stops := fun pre c post r hlog hans => (h.stops pre c post r hlog hans).1 }

theorem Egress.take {entries : List Text} {log : List Contact}
    (h : Egress env s entries log) (n : ℕ) :
    Egress env s entries (log.take n) where
  silent hanon hproxy := by rw [h.silent hanon hproxy, take_nil]
  udp_only c hc := h.udp_only c (mem_of_mem_take hc)
  screened c hc := h.screened c (mem_of_mem_take hc)
  ordered := by
    rw [map_take]
    exact (take_sublist n _).trans h.ordered
  stops pre c post r hlog hans := by
    have hwhole : log = pre ++ c :: (post ++ log.drop n) := by
      rw [← cons_append, ← append_assoc, ← hlog, take_append_drop]
    exact (append_eq_nil_iff.mp (h.stops pre c _ r hwhole hans)).1

theorem announceWithFallbackAnon_egress (tiers : List (List Text))
    (fallbackSingle : Option Text) (deadline : Option ℕ) :
    Egress env s (tiers.flatten ++ fallbackSingle.toList)
      (announceWithFallbackAnon env s req tiers fallbackSingle deadline).1 := by
  have hwalk : Egress env s (tiers.flatten ++ fallbackSingle.toList)
      (walkTiers env s req tiers fallbackSingle).log :=
    .of_sound (walkTiers_sound tiers fallbackSingle)
  unfold announceWithFallbackAnon
  dsimp only
  cases deadline with
  | none => exact hwalk
  | some n =>
    dsimp only
    split_ifs
    · exact hwalk.take n
    · exact hwalk

/-! ## The magnet path -/

theorem egress_nil (entries : List Text) : Egress env s entries [] where
  silent _ _ := rfl
  udp_only c hc := absurd hc not_mem_nil
  screened c hc := absurd hc not_mem_nil
  ordered := nil_sublist entries
  stops pre c post r hlog := by simp at hlog

theorem egress_singleton_iff (h : Permitted env s c) :
    Egress env s [c.url] [c] ↔ (s.anonymous = true → s.proxy ≠ none) := by
  constructor
  · intro hrules hanon hproxy
    exact absurd (hrules.silent hanon hproxy) (cons_ne_nil c [])
  · intro hproxy
    exact {
      silent := fun hanon hnone => absurd hnone (hproxy hanon)
      udp_only := fun d hd => mem_singleton.mp hd ▸ h.udp_only
      screened := fun d hd => mem_singleton.mp hd ▸ h.screened
      ordered := List.Sublist.refl _
      stops := fun pre d post r hlog _ => by
        rcases cons_eq_append_iff.mp hlog with ⟨-, htail⟩ | ⟨pre', -, htail⟩
        · cases htail
          rfl
        · simp at htail }

theorem runScreened_egress_iff (url : Text) :
    Egress env s [url] (runScreened env s req url).1 ↔
      (s.anonymous = true → s.proxy = none →
        ¬ (trackerUrlDialable env url s.strict = true ∧
          Sends env s req url)) := by
  rw [← exists_httpAnnounce_iff]
  unfold runScreened announceScreened
  by_cases hdial : trackerUrlDialable env url s.strict = true
  · rw [if_pos hdial]
    cases hhttp : httpAnnounce env s req url with
    | error e => simp [egress_nil]
    | ok c =>
      obtain ⟨rfl, hperm⟩ := permitted_of_http hdial hhttp
      simp [egress_singleton_iff hperm, hdial]
  · rw [if_neg hdial]
    simp [egress_nil, hdial]

/-- Over every list of tiers, fallback and deadline the walk keeps the rules;
over every URL a screened announce keeps them exactly when it is not made in
anonymous mode without a proxy, or the URL fails the screen, or the HTTP client
would not send to it. -/
theorem egress_iff (env : Env) (s : Settings) (req : AnnounceRequest) :
    (∀ tiers fallbackSingle deadline,
      Egress env s (tiers.flatten ++ fallbackSingle.toList)
        (announceWithFallbackAnon env s req tiers fallbackSingle deadline).1) ∧
    ∀ url, Egress env s [url] (runScreened env s req url).1 ↔
      (s.anonymous = true → s.proxy = none →
        ¬ (trackerUrlDialable env url s.strict = true ∧ Sends env s req url)) :=
  ⟨announceWithFallbackAnon_egress, runScreened_egress_iff⟩

/-! ## A session without a proxy -/

/-- Reading a URL of the form `scheme://authority/…`. -/
def plainParse (t : Text) : Option Url :=
  (splitOnce schemeSep t).map fun r =>
    ⟨r.1, some (r.2.takeWhile inAuthority), none⟩

theorem plainParse_append (scheme : Text)
    (h : splitOnce schemeSep scheme = none) (rest : Text) :
    plainParse (scheme ++ (schemeSep ++ rest)) =
      some ⟨scheme, some (rest.takeWhile inAuthority), none⟩ := by
  rw [plainParse, splitOnce_sep schemeSep_unbordered schemeSep_ne_nil h]
  rfl

theorem takeWhile_query {rest query : Text} {sep : Char}
    (h : sep = '?' ∨ '?' ∈ rest) :
    (rest ++ sep :: query).takeWhile inAuthority =
      rest.takeWhile inAuthority := by
  rw [takeWhile_append]
  split_ifs with hall
  · have hwhole := ( takeWhile_prefix inAuthority).eq_of_length hall
    rcases h with rfl | hmem
    · rw [hwhole]
      simp [inAuthority]
    · rw [← hwhole] at hmem
      have hin := mem_takeWhile_imp hmem
      simp [inAuthority] at hin
  · rfl

theorem plain_of_isHttp {u : Url} (h : u.isHttp = true) :
    splitOnce schemeSep u.scheme = none ∧ '?' ∉ u.scheme ++ schemeSep ∧
      '&' ∉ u.scheme ++ schemeSep := by
  rcases of_decide_eq_true h with hscheme | hscheme
  all_goals
    rw [hscheme]
    decide +kernel

theorem plainParse_buildUrl {base : Text} {req : AnnounceRequest} {u : Url}
    (hparse : plainParse (buildUrl base req) = some u)
    (hhttp : u.isHttp = true) :
    ∃ v, plainParse base = some v ∧ v.host = u.host := by
  obtain ⟨⟨scheme, rest'⟩, hs, rfl⟩ := map_eq_some_iff.mp hparse
  obtain ⟨hnone, hquery, hamp⟩ := plain_of_isHttp hhttp
  dsimp only at hnone hquery hamp
  unfold buildUrl at hs
  dsimp only at hs
  have hwhole := splitOnce_eq_some hs
  rw [← append_assoc] at hwhole
  -- the separator of the query is not part of the scheme
  have hbegin : scheme ++ schemeSep <+: base := by
    refine prefix_of_prefix_append ⟨rest', hwhole.symm⟩ fun c hc => ?_
    rw [head?_cons, mem_some_iff] at hc
    subst hc
    split_ifs
    · exact hamp
    · exact hquery
  obtain ⟨rest, rfl⟩ := hbegin
  rw [append_assoc (scheme ++ schemeSep), append_cancel_left_eq] at hwhole
  have hread := plainParse_append scheme hnone rest
  rw [← append_assoc] at hread
  refine ⟨_, hread, ?_⟩
  rw [← hwhole]
  dsimp only
  rw [takeWhile_query]
  by_cases hmem : '?' ∈ scheme ++ schemeSep ++ rest
  · exact .inr ((mem_append.mp hmem).resolve_left hquery)
  · exact .inl (if_neg hmem)

/-- The plain reading has the properties of `Url::parse`. -/
def plainParser : UrlParser where
  parse := plainParse
  udp_scheme {t u} hudp hparse := by
    obtain ⟨rest, rfl⟩ := hudp
    have hread := plainParse_append "udp".toList (by decide +kernel) rest
    have hudp : udpPrefix ++ rest = "udp".toList ++ (schemeSep ++ rest) := by
      rw [← List.append_assoc]
      rfl
    rw [hudp, hread] at hparse
    cases hparse
    have hscheme : ¬ ("udp".toList = "http".toList ∨
        "udp".toList = "https".toList) := by decide +kernel
    exact decide_eq_false hscheme
  request_host := plainParse_buildUrl

/-- Surroundings in which nothing answers. -/
def silentEnv : Env where
  parser := plainParser
  parseIp _ := none
  interfaceLocalIp _ _ := .error "no interface".toList
  refusal _ := "builder error".toList
  answer _ _ := .error ⟨"no answer".toList⟩

/-- Anonymous mode without a proxy. -/
def anonymousDirect : Settings := ⟨none, true, none⟩

/-- An announce of a magnet link. -/
def magnetRequest : AnnounceRequest where
  infoHash := ⟨List.replicate 20 3, rfl⟩
  peerId := ⟨List.replicate 20 2, rfl⟩
  port := 6881
  uploaded := 0
  downloaded := 0
  left := 0
  event := .started
  numWant := 50

/-- In anonymous mode without a proxy the magnet path sends a direct request,
which the walk refuses to do. -/
theorem anonymousDirect_contacts :
    (runScreened silentEnv anonymousDirect magnetRequest
        "http://tracker/announce".toList).1.length = 1 ∧
      ¬ Egress silentEnv anonymousDirect ["http://tracker/announce".toList]
        (runScreened silentEnv anonymousDirect magnetRequest
          "http://tracker/announce".toList).1 := by
  have hlength : (runScreened silentEnv anonymousDirect magnetRequest
      "http://tracker/announce".toList).1.length = 1 := by
    decide +kernel
  refine ⟨hlength, fun h => ?_⟩
  rw [h.silent rfl rfl] at hlength
  cases hlength

end RustyTorrent.Tracker
