import RustyTorrent.Magnet

/-!
# Parameters a magnet link does not need

A parameter with an unknown key, put anywhere between the others, leaves the
result as it was exactly when it is empty, or has an equals sign and only
complete escapes behind it: the value is decoded before the key is looked at.
-/

namespace RustyTorrent.Magnet

open Metainfo Splitting Utf8 Outcome List Hex

/-! ## Complete escapes -/

theorem hexNibble_of_none {c : UInt8} (h : value c = none) :
    ∃ e, hexNibble c = .err e :=
  ⟨_, by rw [hexNibble, h, Outcome.ofOption]⟩

/-- Decoding succeeds exactly on text whose escapes are complete, and never
unwinds. -/
theorem percentDecode_cases (s : Bytes) :
    (Hex.WellEscaped s ∧ ∃ out, percentDecode s = .ok out) ∨
      (¬ Hex.WellEscaped s ∧ ∃ e, percentDecode s = .err e) := by
  fun_induction percentDecode s with
  | case1 => exact .inl ⟨wellEscaped_nil, [], rfl⟩
  | case2 x y rest ih =>
    have hstart : Hex.TwoDigits (x :: y :: rest) ↔
        (value x).isSome ∧ (value y).isSome := by
      constructor
      · rintro ⟨x', y', rest', heq, hx, hy⟩
        cases heq
        exact ⟨hx, hy⟩
      · exact fun h => ⟨x, y, rest, rfl, h.1, h.2⟩
    cases hx : value x with
    | none =>
      refine .inr ⟨fun h => ?_, ?_⟩
      · have := hstart.mp ((wellEscaped_cons.mp h).1 rfl)
        simp [hx] at this
      · obtain ⟨e, he⟩ := hexNibble_of_none hx
        exact ⟨e, by rw [he]; rfl⟩
    | some hi =>
      have hxs : (value x).isSome := by rw [hx]; rfl
      have hokx : hexNibble x = .ok hi := ofOption_eq_ok.mpr hx
      cases hy : value y with
      | none =>
        refine .inr ⟨fun h => ?_, ?_⟩
        · have := hstart.mp ((wellEscaped_cons.mp h).1 rfl)
          simp [hy] at this
        · obtain ⟨e, he⟩ := hexNibble_of_none hy
          exact ⟨e, by rw [hokx, ok_bind, he]; rfl⟩
      | some lo =>
        have hys : (value y).isSome := by rw [hy]; rfl
        have hoky : hexNibble y = .ok lo :=
          ofOption_eq_ok.mpr hy
        have hiff : Hex.WellEscaped (asciiByte '%' :: x :: y :: rest) ↔
            Hex.WellEscaped rest := by
          rw [wellEscaped_cons, wellEscaped_cons, wellEscaped_cons]
          constructor
          · exact fun h => h.2.2.2
          · exact fun h => ⟨fun _ => hstart.mpr ⟨hxs, hys⟩,
              fun hc => absurd hc (ne_percent_of_value hxs),
              fun hc => absurd hc (ne_percent_of_value hys), h⟩
        rw [hiff, hokx, ok_bind, hoky, ok_bind]
        rcases ih with ⟨hw, out, hout⟩ | ⟨hw, e, he⟩
        · exact .inl ⟨hw, _, by rw [hout]; rfl⟩
        · exact .inr ⟨hw, e, by rw [he]; rfl⟩
  | case3 rest hshort =>
    refine .inr ⟨fun h => ?_, _, rfl⟩
    obtain ⟨x, y, rest', heq, -, -⟩ := (wellEscaped_cons.mp h).1 rfl
    exact hshort x y rest' heq
  | case4 c rest hc ih =>
    have hiff : Hex.WellEscaped (c :: rest) ↔ Hex.WellEscaped rest := by
      rw [wellEscaped_cons]
      exact ⟨fun h => h.2, fun h => ⟨fun hp => absurd hp hc, h⟩⟩
    rw [hiff]
    rcases ih with ⟨hw, out, hout⟩ | ⟨hw, e, he⟩
    · exact .inl ⟨hw, _, by rw [hout]; rfl⟩
    · exact .inr ⟨hw, e, by rw [he]; rfl⟩

/-! ## A parameter that is not interpreted -/

/-- The key of a parameter: what stands before its first equals sign. -/
def keyOf (pair : Bytes) : Bytes :=
  ((splitOnce [asciiByte '='] pair).map Prod.fst).getD pair

/-- The keys the parser interprets. -/
def knownKeys : List Bytes := [ascii "xt", ascii "dn", ascii "tr"]

/-- The parameter is empty, or it has an equals sign and every percent sign
behind the first of them is followed by two hexadecimal digits. -/
def Ignorable (pair : Bytes) : Prop :=
  pair = [] ∨
    ∃ value, pair = keyOf pair ++ asciiByte '=' :: value ∧ Hex.WellEscaped value

theorem interpret_unknown {k : Bytes} (hk : k ∉ knownKeys) (acc : Collected)
    (decoded : Bytes) : interpret acc k decoded = .ok acc := by
  simp only [knownKeys, mem_cons, not_or] at hk
  rw [interpret, if_neg hk.1, if_neg hk.2.1, if_neg hk.2.2.1]
  rfl

theorem readPair_unknown {pair : Bytes} (hk : keyOf pair ∉ knownKeys)
    (acc : Collected) :
    (Ignorable pair ∧ readPair acc pair = .ok acc) ∨
      (¬ Ignorable pair ∧ ∃ e, readPair acc pair = .err e) := by
  by_cases hnil : pair = []
  · exact .inl ⟨.inl hnil, if_pos hnil⟩
  rw [readPair, if_neg hnil]
  cases hsplit : splitOnce [asciiByte '='] pair with
  | none =>
    refine .inr ⟨?_, _, rfl⟩
    rintro (h | ⟨value, hvalue, -⟩)
    · exact hnil h
    · have hkey : keyOf pair = pair := by rw [keyOf, hsplit]; rfl
      rw [hkey] at hvalue
      simp at hvalue
  | some kv =>
    have hkey : keyOf pair = kv.1 := by rw [keyOf, hsplit]; rfl
    have hpair : pair = kv.1 ++ asciiByte '=' :: kv.2 :=
      splitOnce_eq_some hsplit
    have hiff : Ignorable pair ↔ Hex.WellEscaped kv.2 := by
      constructor
      · rintro (h | ⟨value, hvalue, hw⟩)
        · exact absurd h hnil
        · rw [hkey, hpair] at hvalue
          rw [append_cancel_left_eq, cons.injEq] at hvalue
          exact hvalue.2 ▸ hw
      · exact fun h => .inr ⟨kv.2, by rw [hkey]; exact hpair, h⟩
    rw [hiff, Outcome.ofOption, ok_bind]
    rcases percentDecode_cases kv.2 with ⟨hw, out, hout⟩ | ⟨hw, e, he⟩
    · refine .inl ⟨hw, ?_⟩
      rw [hout, ok_bind, interpret_unknown (hkey ▸ hk)]
    · exact .inr ⟨hw, e, by rw [he]; rfl⟩

/-! ## Inserting it -/

theorem readPairs_append (acc : Collected) (before after : List Bytes) :
    readPairs acc (before ++ after) =
      readPairs acc before >>= fun acc => readPairs acc after := by
  induction before generalizing acc with
  | nil => rfl
  | cons pair before ih =>
    rw [cons_append, readPairs, readPairs]
    cases readPair acc pair with
    | ok acc => exact ih acc
    | err e => rfl
    | panic => rfl

/-- The URI with the given parameters. -/
def uriOf (pairs : List Bytes) : Bytes :=
  ascii "magnet:?" ++ [asciiByte '&'].intercalate pairs

/-- What is made of the parameters once they are read. -/
def finish (acc : Collected) : Outcome Error MagnetLink := do
  let infoHash ← Outcome.ofOption
    (.bencode "magnet URI missing required xt=urn:btih:…") acc.infoHash
  return {
    infoHash, displayName := acc.displayName,
    trackers := (retainNew [] acc.trackers).take maxTrackers }

theorem parse_uriOf {pairs : List Bytes} (hne : pairs ≠ [])
    (hfree : ∀ p ∈ pairs, asciiByte '&' ∉ p) :
    MagnetLink.parse (uriOf pairs) =
      readPairs ⟨none, none, []⟩ pairs >>= finish := by
  rw [MagnetLink.parse, uriOf, stripPrefix_append, Outcome.ofOption,
    ok_bind, splitOn_intercalate _ hfree hne]
  rfl

theorem parse_uriOf_nil : ∃ e, MagnetLink.parse (uriOf []) = .err e :=
  ⟨.bencode "magnet URI missing required xt=urn:btih:…", by decide +kernel⟩

/-- A parameter with an unknown key can be inserted into an accepted link, at
any place, exactly when it is one that can be ignored. -/
theorem parse_insert_iff (before after : List Bytes) (extra : Bytes)
    (m : MagnetLink)
    (hfree : ∀ p ∈ before ++ extra :: after, asciiByte '&' ∉ p)
    (hkey : keyOf extra ∉ knownKeys)
    (hm : MagnetLink.parse (uriOf (before ++ after)) = .ok m) :
    MagnetLink.parse (uriOf (before ++ extra :: after)) = .ok m ↔
      Ignorable extra := by
  have hne : before ++ after ≠ [] := by
    intro hnil
    obtain ⟨e, he⟩ := parse_uriOf_nil
    rw [hnil, he] at hm
    cases hm
  have hfree' : ∀ p ∈ before ++ after, asciiByte '&' ∉ p := by
    intro p hp
    refine hfree p ?_
    rw [mem_append, mem_cons]
    exact (mem_append.mp hp).imp_right .inr
  rw [parse_uriOf hne hfree', readPairs_append] at hm
  rw [parse_uriOf (by simp) hfree, readPairs_append]
  cases hread : readPairs ⟨none, none, []⟩ before with
  | ok acc =>
    rw [hread, ok_bind] at hm
    rw [ok_bind, readPairs]
    rcases readPair_unknown hkey acc with ⟨hign, hok⟩ | ⟨hign, e, herr⟩
    · rw [hok, ok_bind]
      exact ⟨fun _ => hign, fun _ => hm⟩
    · rw [herr]
      exact ⟨fun h => (nomatch h), fun h => absurd h hign⟩
  | err | panic =>
    rw [hread] at hm
    cases hm

/-- The parameter that names the all-zero hash. -/
def zeroTopic : Bytes :=
  ascii "xt=urn:btih:" ++ List.replicate 40 (asciiByte '0')

theorem parse_insert_iff_length :
    MagnetLink.parse (uriOf [zeroTopic, ascii "xl=1%30"]) =
      .ok ⟨Digest.zeroed, none, []⟩ ↔ Ignorable (ascii "xl=1%30") :=
  parse_insert_iff [zeroTopic] [] (ascii "xl=1%30") ⟨Digest.zeroed, none, []⟩
    (by decide +kernel) (by decide +kernel) (by decide +kernel)

/-- A keyword with a bare percent sign, and a parameter without an equals
sign, make an accepted link unreadable. -/
theorem unknown_parameter_refused :
    MagnetLink.parse (uriOf [zeroTopic]) = .ok ⟨Digest.zeroed, none, []⟩ ∧
    MagnetLink.parse (uriOf [zeroTopic, ascii "kt=50%"]) =
      .err (.bencode "truncated %XX escape") ∧
    MagnetLink.parse (uriOf [zeroTopic, ascii "kt"]) =
      .err (.bencode "magnet param missing `=`") := by
  refine ⟨?_, ?_, ?_⟩ <;> decide +kernel

end RustyTorrent.Magnet
