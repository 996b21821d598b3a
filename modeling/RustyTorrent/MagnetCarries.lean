import RustyTorrent.Magnet
import RustyTorrent.Support.Radix
import RustyTorrent.Tracker.Announce

/-!
# What a magnet link carries

A URI put together from an info hash, a display name and trackers, with its
parameters in any order, is read back: the hash from its hexadecimal or base32
form in either case, the name and the trackers from their percent-encoded
form.
-/

namespace RustyTorrent.Magnet

open Metainfo Splitting Utf8 Outcome List Nat Hex Radix UInt8 Digest

/-! ## The hexadecimal form -/

theorem nibbles_eq_join {hi lo : ℕ} (hhi : hi < 16) (hlo : lo < 16) :
    nibbles hi lo = join hi lo := by
  have hall : ∀ hi < 16, ∀ lo < 16, nibbles hi lo = join hi lo := by
    decide +kernel
  exact hall hi hhi lo hlo

variable {c : UInt8} {n : ℕ} {s : Bytes} {h : Digest}

theorem hexNibble_eq_ok : hexNibble c = .ok n ↔ value c = some n :=
  ofOption_eq_ok

theorem nibbles_split (b : UInt8) :
    nibbles (b.toNat / 16) (b.toNat % 16) = b := by
  have hb := b.toNat_lt
  rw [nibbles_eq_join (by omega) (by omega), join_split]

theorem hexPairs_text {bs written : Bytes} {out : Digest}
    (hs : s.map lower = text bs) (hout : written <+: out.1)
    (hlen : written.length + bs.length ≤ 20) :
    ∃ d : Digest, hexPairs written.length out s = .ok d ∧
      written ++ bs <+: d.1 := by
  induction bs generalizing s written out with
  | nil =>
    rw [text_nil, map_eq_nil_iff] at hs
    rw [hs]
    exact ⟨out, rfl, by rwa [append_nil]⟩
  | cons b bs ih =>
    rw [length_cons] at hlen
    match s, hs with
    | [_], hs => simp at hs
    | a :: a' :: s, hs =>
      rw [map_cons, map_cons, text_cons, cons.injEq, cons.injEq] at hs
      obtain ⟨ha, ha', hs⟩ := hs
      have hb := b.toNat_lt
      have hhi := value_of_lower_eq_digit (by omega) ha
      have hlo := value_of_lower_eq_digit (by omega) ha'
      obtain ⟨out', hset, hout'⟩ := setByte_length hout (by omega) b
      have hlen' : (written ++ [b]).length = written.length + 1 := by simp
      obtain ⟨d, hd, hpre⟩ := ih hs hout' (by omega)
      refine ⟨d, ?_, by simpa using hpre⟩
      rw [hexPairs, hexNibble_eq_ok.mpr hhi, ok_bind,
        hexNibble_eq_ok.mpr hlo, ok_bind, nibbles_split, hset,
        ok_bind, ← hlen', hd]

theorem parseHex20_text
    (hs : s.map lower = text h.1) : parseHex20 s = .ok h := by
  obtain ⟨d, hd, hpre⟩ := hexPairs_text hs ( nil_prefix (l := zeroed.1))
    (by rw [h.2]; decide)
  rw [parseHex20]
  rw [length_nil] at hd
  rw [hd, eq_of_prefix hpre]

/-! ## The base32 form -/

/-- The character of a number below 32, in the alphabet of RFC 4648. -/
def base32Char (n : ℕ) : UInt8 :=
  if n < 26 then UInt8.ofNat (65 + n) else UInt8.ofNat (24 + n)

/-- The 32 groups of five bits in a digest. -/
def base32Digits (h : Digest) : List ℕ :=
  Radix.spell 32 32 (Radix.number 256 (h.1.map UInt8.toNat))

/-- A digest in base32. -/
def base32Text (h : Digest) : Bytes := (base32Digits h).map base32Char

theorem base32Value_of_upper (hn : n < 32)
    (h : upper c = base32Char n) : base32Value c = some n := by
  have hall : ∀ c, ∀ n < 32, upper c = base32Char n →
      base32Value c = some n :=
    forall_byte (by decide +kernel)
  exact hall c n hn h

theorem number_base32Digits (h : Digest) : number 32 (base32Digits h) =
      number 256 (h.1.map toNat) := by
  refine number_spell ?_
  have hlt : number 256 (h.1.map toNat) <
      256 ^ (h.1.map toNat).length := by
    refine number_lt fun d hd => ?_
    obtain ⟨b, -, rfl⟩ := mem_map.mp hd
    exact b.toNat_lt
  rw [length_map, h.2] at hlt
  exact hlt.trans_eq (by norm_num)

theorem octet_of_buffer {bits : ℕ} (h : bits < 8) :
    ofNat ((n % 2 ^ 32) >>> bits &&& 0xff) = ofNat (n / 2 ^ bits % 256) := by
  have hand : (n % 2 ^ 32) >>> bits &&& 0xff = n / 2 ^ bits % 256 := by
    rw [show (0xff : ℕ) = 2 ^ 8 - 1 from rfl, and_two_pow_sub_one_eq_mod,
      shiftRight_eq_div_pow]
    have hpow : 2 ^ 32 = 2 ^ bits * 2 ^ (32 - bits) := by
      rw [← pow_add]
      congr 1
      omega
    have hdvd : 2 ^ 8 ∣ 2 ^ (32 - bits) := pow_dvd_pow 2 (by omega)
    rw [hpow, mod_mul_right_div_self, mod_mod_of_dvd _ hdvd,
      show (2 : ℕ) ^ 8 = 256 from rfl]
  rw [hand]

theorem shift_in {v : ℕ} (hv : v < 32) :
    ((n % 2 ^ 32) <<< 5) % 2 ^ 32 ||| v = (n * 32 + v) % 2 ^ 32 := by
  have hshift : ((n % 2 ^ 32) <<< 5) % 2 ^ 32 = (n % 2 ^ 27) <<< 5 := by
    rw [shiftLeft_eq, shiftLeft_eq]
    omega
  rw [hshift, ← shiftLeft_add_eq_or_of_lt hv, shiftLeft_eq]
  omega

theorem base32Loop_text {written : Bytes} {ds es : List ℕ} {bits : ℕ}
    {out : Digest} (hs : s.map upper = es.map base32Char)
    (hes : ∀ e ∈ es, e < 32) (hout : written <+: out.1)
    (hreg : Radix.Regrouped 5 ds (written.map toNat) bits)
    (hlen : ds.length + es.length ≤ 32) :
    ∃ (d : Digest) (written' : Bytes) (bits' : ℕ),
      base32Loop out (number 32 ds % 2 ^ 32) bits written.length s =
        .ok (d, written'.length) ∧
      written' <+: d.1 ∧
      Radix.Regrouped 5 (ds ++ es) (written'.map toNat) bits' := by
  induction es generalizing s written ds bits out with
  | nil =>
    rw [map_nil, map_eq_nil_iff] at hs
    rw [hs]
    exact ⟨out, written, bits, rfl, hout, by rwa [append_nil]⟩
  | cons e es ih =>
    match s, hs with
    | c :: s, hs =>
      rw [map_cons, map_cons, cons.injEq] at hs
      obtain ⟨hc, hs⟩ := hs
      have he : e < 32 := hes e (by simp)
      have hrest : ∀ e ∈ es, e < 32 := fun e he => hes e (by simp [he])
      have hcount := hreg.count
      have hfew := hreg.few
      rw [length_cons] at hlen
      rw [length_map] at hcount
      have hlen' : (ds ++ [e]).length + es.length ≤ 32 := by
        rw [length_append, length_singleton]
        omega
      have hbuf : ((number 32 ds % 2 ^ 32) <<< 5) % 2 ^ 32 ||| e =
          number 32 (ds ++ [e]) % 2 ^ 32 := by
        rw [shift_in he, number_concat]
      rw [base32Loop, base32Value_of_upper he hc]
      simp only [ofOption, ok_bind, hbuf]
      by_cases hlarge : 8 ≤ bits + 5
      · rw [if_pos hlarge, octet_of_buffer (by omega)]
        obtain ⟨out', hset, hout'⟩ := setByte_length hout (by omega)
          (ofNat (number 32 (ds ++ [e]) / 2 ^ (bits + 5 - 8) % 256))
        have hreg' := hreg.emit he (by decide) hlarge
        have hoctet : number 32 (ds ++ [e]) / 2 ^ (bits + 5 - 8) %
            256 = (ofNat
              (number 32 (ds ++ [e]) / 2 ^ (bits + 5 - 8) % 256)).toNat := by
          rw [toNat_ofNat']
          omega
        rw [show (2 : ℕ) ^ 5 = 32 from rfl, hoctet] at hreg'
        rw [← map_singleton, ← map_append] at hreg'
        obtain ⟨d, w, b, hd, hw, hr⟩ := ih hs hrest hout' hreg' hlen'
        refine ⟨d, w, b, ?_, hw, by simpa using hr⟩
        rw [hset, ok_bind]
        rw [length_append, length_singleton] at hd
        exact hd
      · rw [if_neg hlarge]
        have hreg' := hreg.keep he (by omega)
        obtain ⟨d, w, b, hd, hw, hr⟩ := ih hs hrest hout hreg' hlen'
        exact ⟨d, w, b, hd, hw, by simpa using hr⟩

theorem parseBase32_20_text
    (hs : s.map upper = base32Text h) : parseBase32_20 s = .ok h := by
  have hdigits : ∀ e ∈ base32Digits h, e < 32 := fun e he =>
    lt_of_mem_spell (by decide) he
  have hcount : (base32Digits h).length = 32 := length_spell 32 _
  obtain ⟨d, w, b, hd, hw, hreg⟩ := base32Loop_text hs hdigits
    ( nil_prefix (l := zeroed.1)) (Radix.Regrouped.nil 5)
    (by rw [hcount]; decide)
  rw [nil_append] at hreg
  have hfew := hreg.few
  have hbits := hreg.count
  rw [hcount, length_map] at hbits
  have hwlen : w.length = 20 := by omega
  have hzero : b = 0 := by omega
  -- both are twenty bytes with the same number
  have hnumber := hreg.number_eq
  rw [hzero, pow_zero, Nat.div_one, show (2 : ℕ) ^ 5 = 32 from rfl,
    number_base32Digits] at hnumber
  have hbytes : ∀ (l : Bytes), ∀ d ∈ l.map toNat, d < 256 := by
    intro l d hd
    obtain ⟨c, -, rfl⟩ := mem_map.mp hd
    exact c.toNat_lt
  have hmap : w.map toNat = h.1.map toNat :=
    number_inj (hbytes w) (hbytes h.1)
      (by rw [length_map, length_map, hwlen, h.2]) hnumber
  have hinj : Function.Injective UInt8.toNat := fun _ _ => UInt8.toNat_inj.mp
  rw [map_injective_iff.mpr hinj hmap] at hw
  rw [parseBase32_20]
  simp only [length_nil, number_nil, Nat.zero_mod] at hd
  rw [hd, ok_bind]
  simp [hwlen, eq_of_prefix hw, check]

/-- The text is the digest in hexadecimal or in base32, in either case. -/
def SpellsHash (text : Bytes) (h : Digest) : Prop :=
  text.map Hex.lower = Hex.text h.1 ∨ text.map Hex.upper = base32Text h

instance (text : Bytes) (h : Digest) : Decidable (SpellsHash text h) :=
  inferInstanceAs (Decidable (_ ∨ _))

theorem parseInfoHash_spelled {text : Bytes}
    (ht : SpellsHash text h) : parseInfoHash text = .ok h := by
  rcases ht with ht | ht
  · have hlen : text.length = 40 := by
      rw [← length_map (f := lower), ht, length_text, h.2]
    rw [parseInfoHash, if_pos hlen, parseHex20_text ht]
  · have hlen : text.length = 32 := by
      rw [← length_map (f := upper), ht, base32Text, length_map]
      exact length_spell 32 _
    rw [parseInfoHash, if_neg (by omega), if_pos hlen, parseBase32_20_text ht]

/-! ## Percent-encoded text -/

/-- `percent_encode`, as bytes. -/
def percentEncode (s : Bytes) : Bytes := (Tracker.percentEncode s).map asciiByte

/-- `enc` is how a byte is encoded: the byte itself, or an escape. -/
def EncodesByte (b : UInt8) (enc : Bytes) : Prop :=
  (enc = [b] ∧ b ≠ asciiByte '%' ∧ b ≠ asciiByte '&') ∨
    ∃ x ∈ enc, ∃ y ∈ enc, enc = [asciiByte '%', x, y] ∧
      Hex.value x = some (b.toNat / 16) ∧ Hex.value y = some (b.toNat % 16)

instance (b : UInt8) (enc : Bytes) : Decidable (EncodesByte b enc) :=
  inferInstanceAs (Decidable (_ ∨ _))

theorem encodesByte_percentByte (b : UInt8) :
    EncodesByte b ((Tracker.percentByte b).map asciiByte) := by
  revert b
  exact forall_byte (by decide +kernel)

theorem percentEncode_cons (b : UInt8) (s : Bytes) : percentEncode (b :: s) =
      (Tracker.percentByte b).map asciiByte ++ percentEncode s := by
  simp [percentEncode, Tracker.percentEncode]

theorem percentDecode_plain (hc : c ≠ asciiByte '%') (rest : Bytes) :
    percentDecode (c :: rest) = (do
      let out ← percentDecode rest
      return c :: out) := by
  rw [percentDecode.eq_def]
  simp only [if_neg hc]

theorem percentDecode_escape {x y : UInt8} {hi lo : ℕ}
    (hx : value x = some hi) (hy : value y = some lo) (rest : Bytes) :
    percentDecode (asciiByte '%' :: x :: y :: rest) = (do
      let out ← percentDecode rest
      return nibbles hi lo :: out) := by
  rw [percentDecode, if_pos rfl]
  simp only [hexNibble_eq_ok.mpr hx, hexNibble_eq_ok.mpr hy, ok_bind]

theorem percentDecode_percentEncode (s : Bytes) :
    percentDecode (percentEncode s) = .ok s := by
  induction s with
  | nil => rfl
  | cons b s ih =>
    rw [percentEncode_cons]
    rcases encodesByte_percentByte b with
      ⟨henc, hb, -⟩ | ⟨x, -, y, -, henc, hx, hy⟩
    · rw [henc, singleton_append, percentDecode_plain hb, ih]
      rfl
    · rw [henc]
      show percentDecode (asciiByte '%' :: x :: y :: percentEncode s) = _
      rw [percentDecode_escape hx hy, ih, nibbles_split]
      rfl

theorem percentDecode_eq_self (h : asciiByte '%' ∉ s) :
    percentDecode s = .ok s := by
  induction s with
  | nil => rfl
  | cons c s ih =>
    rw [mem_cons, not_or] at h
    rw [percentDecode_plain (Ne.symm h.1), ih h.2]
    rfl

theorem not_mem_percentEncode (s : Bytes) :
    asciiByte '&' ∉ percentEncode s := by
  have hdigit : value (asciiByte '&') = none := by decide
  induction s with
  | nil => exact not_mem_nil
  | cons b s ih =>
    rw [percentEncode_cons, mem_append, not_or]
    refine ⟨?_, ih⟩
    rcases encodesByte_percentByte b with
      ⟨henc, -, hb⟩ | ⟨x, -, y, -, henc, hx, hy⟩
    · rw [henc, mem_singleton]
      exact hb.symm
    · rw [henc]
      have hne : asciiByte '&' ≠ asciiByte '%' := by decide
      have hnx : asciiByte '&' ≠ x := fun h => by
        rw [← h, hdigit] at hx
        cases hx
      have hny : asciiByte '&' ≠ y := fun h => by
        rw [← h, hdigit] at hy
        cases hy
      simp [hne, hnx, hny]

/-! ## The parameters -/

/-- A parameter of a magnet link: the hash as it is spelled, a display name or
a tracker. -/
inductive Param where
  | xt (spelled : Bytes)
  | dn (name : Str)
  | tr (url : Str)
  deriving DecidableEq

namespace Param

/-- The parameter as it stands in the URI. -/
def text : Param → Bytes
  | .xt spelled => ascii "xt=urn:btih:" ++ spelled
  | .dn name => ascii "dn=" ++ percentEncode name.1
  | .tr url => ascii "tr=" ++ percentEncode url.1

def isXt : Param → Bool
  | .xt _ => true
  | _ => false

def name? : Param → Option Str
  | .dn name => some name
  | _ => none

def tracker? : Param → Option Str
  | .tr url => some url
  | _ => none

end Param

/-- The URI with the given parameters. -/
def magnetUri (params : List Param) : Bytes :=
  ascii "magnet:?" ++ [asciiByte '&'].intercalate (params.map Param.text)

theorem SpellsHash.not_mem {text : Bytes} (ht : SpellsHash text h) {c : UInt8}
    (hlow : value c = none) (hup : base32Value c = none) : c ∉ text := by
  intro hc
  rcases ht with ht | ht
  · have hmem : Hex.lower c ∈ Hex.text h.1 :=
      ht ▸ mem_map_of_mem hc
    obtain ⟨b, -, hb⟩ := mem_flatMap.mp hmem
    have hlt := b.toNat_lt
    have hdigit : ∃ n < 16, lower c = digit n := by
      rcases mem_cons.mp hb with hb | hb
      · exact ⟨_, by omega, hb⟩
      · exact ⟨_, by omega, mem_singleton.mp hb⟩
    obtain ⟨n, hn, heq⟩ := hdigit
    rw [value_of_lower_eq_digit hn heq] at hlow
    cases hlow
  · have hmem : upper c ∈ base32Text h :=
      ht ▸ mem_map_of_mem hc
    obtain ⟨n, hn, heq⟩ := mem_map.mp hmem
    rw [base32Value_of_upper (lt_of_mem_spell (by decide) hn) heq.symm] at hup
    cases hup

theorem SpellsHash.ascii_of_mem {text : Bytes} (ht : SpellsHash text h)
    {c : UInt8} (hc : c ∈ text) : c.toNat < 0x80 := by
  by_contra hlarge
  refine ht.not_mem ?_ ?_ hc
  · rw [value, if_neg (by omega), if_neg (by omega), if_neg (by omega)]
  · rw [base32Value, if_neg (by omega), if_neg (by omega), if_neg (by omega)]

theorem not_mem_text {p : Param}
    (hp : ∀ spelled, p = .xt spelled → SpellsHash spelled h) :
    asciiByte '&' ∉ p.text := by
  cases p with
  | xt spelled =>
    rw [Param.text, mem_append, not_or]
    exact ⟨by decide, (hp spelled rfl).not_mem (by decide) (by decide)⟩
  | dn s | tr s =>
    rw [Param.text, mem_append, not_or]
    exact ⟨by decide, not_mem_percentEncode s.1⟩

/-! ## Reading one parameter -/

theorem readPair_key (acc : Collected) {key value decoded : Bytes}
    (hkey : splitOnce [asciiByte '='] key = none)
    (hvalue : percentDecode value = .ok decoded) :
    readPair acc (key ++ ([asciiByte '='] ++ value)) =
      interpret acc key decoded := by
  have hne : key ++ ([asciiByte '='] ++ value) ≠ [] := by simp
  rw [readPair, if_neg hne, splitOnce_sep (by decide) (by decide) hkey value]
  simp [ofOption, hvalue]

/-- What a parameter changes in what was read so far. -/
def Param.record (h : Digest) (acc : Collected) : Param → Collected
  | .xt _ => { acc with infoHash := some h }
  | .dn name => { acc with displayName := some name }
  | .tr url => { acc with trackers := acc.trackers ++ [url] }

theorem decodedStr_val (s : Str) (msg : String) :
    decodedStr s.1 msg = .ok s := by
  rw [decodedStr, Str.ofBytes_val, ofOption]

theorem readPair_text {p : Param} (acc : Collected)
    (hp : ∀ spelled, p = .xt spelled → SpellsHash spelled h) :
    readPair acc p.text = .ok (p.record h acc) := by
  cases p with
  | xt spelled =>
    have hs := hp spelled rfl
    have hplain : asciiByte '%' ∉ ascii "urn:btih:" ++ spelled := by
      rw [mem_append, not_or]
      exact ⟨by decide, hs.not_mem (by decide) (by decide)⟩
    have hascii : ∀ c ∈ ascii "urn:btih:" ++ spelled, c.toNat < 0x80 := by
      intro c hc
      have hkey : ∀ c ∈ ascii "urn:btih:", c.toNat < 0x80 := by
        decide +kernel
      exact (mem_append.mp hc).elim (hkey c) hs.ascii_of_mem
    have hkey : splitOnce [asciiByte '='] (ascii "xt") = none := by decide
    rw [show Param.text (.xt spelled) = ascii "xt" ++ ([asciiByte '='] ++
      (ascii "urn:btih:" ++ spelled)) from rfl,
      readPair_key acc hkey (percentDecode_eq_self hplain), interpret,
      if_pos rfl, decodedStr, Str.ofBytes_ascii hascii]
    simp only [ofOption, ok_bind, stripPrefix_append,
      parseInfoHash_spelled hs, pure_eq]
    rfl
  | dn name =>
    have hkey : splitOnce [asciiByte '='] (ascii "dn") = none := by decide
    rw [show Param.text (.dn name) = ascii "dn" ++ ([asciiByte '='] ++
      percentEncode name.1) from rfl,
      readPair_key acc hkey (percentDecode_percentEncode name.1), interpret,
      if_neg (by decide), if_pos rfl, decodedStr_val]
    rfl
  | tr url =>
    have hkey : splitOnce [asciiByte '='] (ascii "tr") = none := by decide
    rw [show Param.text (.tr url) = ascii "tr" ++ ([asciiByte '='] ++
      percentEncode url.1) from rfl,
      readPair_key acc hkey (percentDecode_percentEncode url.1), interpret,
      if_neg (by decide), if_neg (by decide), if_pos rfl, decodedStr_val]
    rfl

/-! ## Reading them all -/

theorem readPairs_texts {params : List Param}
    (hp : ∀ spelled, Param.xt spelled ∈ params → SpellsHash spelled h)
    (acc : Collected) :
    readPairs acc (params.map Param.text) =
      .ok (params.foldl (Param.record h) acc) := by
  induction params generalizing acc with
  | nil => rfl
  | cons p params ih =>
    have hhead := readPair_text acc (h := h) (p := p)
      fun spelled heq => hp spelled (by simp [heq])
    rw [map_cons, readPairs, hhead, ok_bind,
      ih fun spelled hmem => hp spelled (by simp [hmem])]
    rfl

/-- The parameters gather the hash when it is there, the last name and all
trackers. -/
theorem foldl_record (h : Digest) (params : List Param) (acc : Collected) :
    params.foldl (Param.record h) acc =
      { infoHash := if params.any Param.isXt then some h else acc.infoHash
        displayName :=
          (params.filterMap Param.name?).getLast?.or acc.displayName
        trackers := acc.trackers ++ params.filterMap Param.tracker? } := by
  induction params generalizing acc with
  | nil => simp
  | cons p params ih =>
    rw [foldl_cons, ih]
    cases p with
    | xt spelled | tr url =>
      simp [Param.record, Param.isXt, Param.name?, Param.tracker?,
        filterMap_cons]
    | dn name =>
      cases hlast : (params.filterMap Param.name?).getLast? with
      | none =>
        simp [Param.record, Param.isXt, Param.name?, Param.tracker?,
          filterMap_cons, getLast?_cons, hlast]
      | some last =>
        simp [Param.record, Param.isXt, Param.name?, Param.tracker?,
          filterMap_cons, getLast?_cons, hlast]

theorem retainNew_eq (seen ts : List Str) :
    retainNew seen ts = (ts.filter (· ∉ seen)).eraseDups := by
  induction ts generalizing seen with
  | nil => rfl
  | cons t ts ih =>
    by_cases ht : t ∈ seen
    · rw [retainNew, if_pos ht, ih, filter_cons_of_neg (by simp [ht])]
    · rw [retainNew, if_neg ht, ih, filter_cons_of_pos (by simp [ht]),
        eraseDups_cons, filter_filter]
      congr 3
      funext u
      by_cases hu : u = t
      · simp [hu]
      · have hval : u.1 ≠ t.1 := fun heq => hu (Subtype.ext heq)
        simp [hu, hval]

/-- A URI with the hash once, at most one display name and any trackers, in
any order, is read as that hash, that name and the first 64 of the distinct
trackers. -/
theorem parse_magnetUri (h : Digest) (spelled : Bytes) (name : Option Str)
    (trackers : List Str) (params : List Param) (hs : SpellsHash spelled h)
    (hperm : params.Perm
      (.xt spelled :: (name.toList.map .dn ++ trackers.map .tr))) :
    MagnetLink.parse (magnetUri params) = .ok {
      infoHash := h
      displayName := name
      trackers := ((params.filterMap Param.tracker?).eraseDups).take 64 } := by
  have hxt : ∀ t, Param.xt t ∈ params → SpellsHash t h := by
    intro t ht
    have hmem := hperm.mem_iff.mp ht
    simp only [mem_cons, mem_append, mem_map] at hmem
    rcases hmem with heq | ⟨_, -, heq⟩ | ⟨_, -, heq⟩
    · cases heq
      exact hs
    · cases heq
    · cases heq
  have hmem : Param.xt spelled ∈ params := hperm.mem_iff.mpr (by simp)
  have hthere : params.any Param.isXt = true :=
    any_eq_true.mpr ⟨_, hmem, rfl⟩
  have hname : params.filterMap Param.name? = name.toList := by
    have hperm' := hperm.filterMap Param.name?
    have hnames : ∀ l : List Str,
        (l.map Param.dn).filterMap Param.name? = l := fun l => by
      simp [filterMap_map, Function.comp_def, Param.name?]
    have hurls : ∀ l : List Str,
        (l.map Param.tr).filterMap Param.name? = [] := fun l => by
      simp [filterMap_map, Function.comp_def, Param.name?]
    rw [filterMap_cons_none rfl, filterMap_append, hnames, hurls,
      append_nil] at hperm'
    cases name with
    | none => exact perm_nil.mp hperm'
    | some name => exact perm_singleton.mp hperm'
  have hsplit : ([asciiByte '&'].intercalate
      (params.map Param.text)).splitOn (asciiByte '&') =
        params.map Param.text := by
    refine splitOn_intercalate _ ?_ ?_
    · intro text htext
      obtain ⟨p, hp, rfl⟩ := mem_map.mp htext
      exact not_mem_text fun t heq => hxt t (heq ▸ hp)
    · exact fun hnil => ne_nil_of_mem hmem (map_eq_nil_iff.mp hnil)
  rw [MagnetLink.parse, magnetUri, stripPrefix_append]
  simp only [Outcome.ofOption, ok_bind, hsplit]
  rw [readPairs_texts hxt, foldl_record, if_pos hthere, hname]
  cases name with
  | none | some => simp [retainNew_eq, maxTrackers]

/-- The text of an ASCII literal. -/
def literal (s : String) (h : fromUtf8 (ascii s) = .ok (ascii s)) : Str :=
  ⟨ascii s, h⟩

theorem parse_magnetUri_base32 : MagnetLink.parse (magnetUri
        [.tr (literal "http://t/a b" (by decide +kernel)),
          .xt (ascii "aAaAaAaAaAaAaAaAaAaAaAaAaAaAaAaA"),
          .dn (literal "50% off" (by decide +kernel)),
          .tr (literal "http://t/a b" (by decide +kernel))]) = .ok {
      infoHash := Digest.zeroed
      displayName := some (literal "50% off" (by decide +kernel))
      trackers := [literal "http://t/a b" (by decide +kernel)] } :=
  parse_magnetUri Digest.zeroed (ascii "aAaAaAaAaAaAaAaAaAaAaAaAaAaAaAaA")
    (some (literal "50% off" (by decide +kernel)))
    [literal "http://t/a b" (by decide +kernel),
      literal "http://t/a b" (by decide +kernel)]
    _ (by decide +kernel) (by decide +kernel)

end RustyTorrent.Magnet
