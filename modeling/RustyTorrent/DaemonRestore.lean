import RustyTorrent.DaemonStore

/-!
# Restoring the state directory

`load_all` returns what it should exactly when no file that has to be skipped
has a name on which `info_hash_from_hex` unwinds: forty bytes that begin with
readable pairs and then put a character across the end of a pair.  The same
names, and forty bytes of readable pairs with a plus sign among them, are the
ones `info_hash_from_hex` itself gets wrong.
-/

namespace RustyTorrent

open Metainfo Splitting Utf8 Outcome List Option Hex

namespace Util

/-! ## Pairs that are read as a byte -/

/-- A hexadecimal digit, or a plus sign in its place, before a digit. -/
def Readable (a b : UInt8) : Prop :=
  (a = asciiByte '+' ∨ (Hex.value a).isSome) ∧ (Hex.value b).isSome

instance (a b : UInt8) : Decidable (Readable a b) :=
  inferInstanceAs (Decidable (_ ∧ _))

/-- The text consists of readable pairs. -/
def ReadablePairs : Bytes → Prop
  | [] => True
  | [_] => False
  | a :: b :: rest => Readable a b ∧ ReadablePairs rest

/-- After some readable pairs comes a pair that ends inside a character. -/
def Straddles (s : Bytes) : Prop :=
  ∃ front a b c rest, s = front ++ a :: b :: c :: rest ∧
    ReadablePairs front ∧ isTail c = true

/-- The bytes that readable pairs stand for. -/
def pairValues : Bytes → Bytes
  | a :: b :: rest =>
    Hex.join ((Hex.value a).getD 0) ((Hex.value b).getD 0) ::
      pairValues rest
  | _ => []

theorem straddles_pair {a b : UInt8} {rest : Bytes} :
    Straddles (a :: b :: rest) ↔ (∃ c ∈ rest.head?, isTail c = true) ∨
        (Readable a b ∧ Straddles rest) := by
  constructor
  · rintro ⟨front, a', b', c, rest', heq, hfront, hc⟩
    match front, heq, hfront with
    | [], heq, _ =>
      cases heq
      exact .inl ⟨c, rfl, hc⟩
    | [_], _, hfront => exact hfront.elim
    | d :: d' :: front, heq, hfront =>
      cases heq
      exact .inr ⟨hfront.1, front, a', b', c, rest', rfl, hfront.2, hc⟩
  · rintro (⟨c, hc, htail⟩ | ⟨hab, front, a', b', c, rest', heq, hf, hc⟩)
    · obtain ⟨rest', rfl⟩ := head?_eq_some_iff.mp hc
      exact ⟨[], a, b, c, rest', rfl, trivial, htail⟩
    · exact ⟨a :: b :: front, a', b', c, rest', by rw [heq]; rfl, ⟨hab, hf⟩, hc⟩

theorem not_straddles_nil : ¬ Straddles [] := by
  rintro ⟨front, a, b, c, rest, heq, -, -⟩
  simp at heq

theorem fromStrRadix16_pair (a b : UInt8) : fromStrRadix16 [a, b] =
      if Readable a b then
        some (16 * (value a).getD 0 + (value b).getD 0)
      else none := by
  have hplus : value (asciiByte '+') = none := by decide
  cases hb : value b with
  | none =>
    rw [if_neg (by simp [Readable, hb])]
    by_cases ha : a = asciiByte '+'
    · simp [fromStrRadix16, ha, radixDigits, hb]
    · cases hv : value a with
      | none => simp [fromStrRadix16, ha, radixDigits, hv]
      | some x => simp [fromStrRadix16, ha, radixDigits, hv, hb]
  | some y =>
    have hy := value_lt hb
    by_cases ha : a = asciiByte '+'
    · have hle : y ≤ 255 := by omega
      simp [fromStrRadix16, Readable, ha, radixDigits, hb, hplus, hle]
    · cases hv : value a with
      | none => simp [fromStrRadix16, Readable, ha, radixDigits, hv]
      | some x =>
        have hx := value_lt hv
        have hle : x ≤ 255 := by omega
        have hle' : x * 16 + y ≤ 255 := by omega
        simp [fromStrRadix16, Readable, ha, radixDigits, hv, hb, hle,
          hle', Nat.mul_comm]

/-! ## The loop -/

open scoped Classical in
/-- What the loop does from a character boundary on: it unwinds, it returns
the bytes of all pairs, or it gives up at a pair it cannot read. -/
theorem hashBytes_eq {s rest written : Bytes} {out : Digest} {n : ℕ}
    (hlen : s.length = 40) (hrest : s.drop (written.length * 2) = rest)
    (hn : written.length + n = 20) (hout : written <+: out.1)
    (hbound : isCharBoundary s (written.length * 2) = true) :
    ∃ d : Digest, (¬ Straddles rest → ReadablePairs rest →
        d.1 = written ++ pairValues rest) ∧
      hashBytes s out (List.range' written.length n) =
        if Straddles rest then .panic
        else if ReadablePairs rest then .ok (some d) else .ok none := by
  induction n generalizing rest written out with
  | zero =>
    have hnil : rest = [] := by
      rw [← hrest, drop_eq_nil_iff]
      omega
    have hall : written = out.1 := hout.eq_of_length (by rw [out.2]; omega)
    refine ⟨out, fun _ _ => ?_, ?_⟩
    · rw [hnil, ← hall]
      exact (append_nil written).symm
    · simp [hnil, not_straddles_nil, ReadablePairs, hashBytes]
  | succ n ih =>
    have hrlen : rest.length = 40 - written.length * 2 := by
      rw [← hrest, length_drop, hlen]
    match rest, hrest, hrlen with
    | [], _, hrlen =>
      rw [length_nil] at hrlen
      omega
    | [_], _, hrlen =>
      rw [length_singleton] at hrlen
      omega
    | a :: b :: rest, hrest, _ =>
      have hnext : s.drop (written.length * 2 + 2) = rest := by
        rw [← drop_drop, hrest]
        rfl
      have hhead : s[written.length * 2 + 2]? = rest.head? := by
        rw [head?_eq_getElem?, ← hnext, getElem?_drop, Nat.add_zero]
      have hslice : (s.drop (written.length * 2)).take
          (written.length * 2 + 2 - written.length * 2) = [a, b] := by
        rw [hrest, Nat.add_sub_cancel_left]
        rfl
      rw [range'_succ, hashBytes, straddles_pair]
      by_cases htail : ∃ c ∈ rest.head?, isTail c = true
      · have hnot : isCharBoundary s (written.length * 2 + 2) = false := by
          obtain ⟨c, hc, htail⟩ := htail
          rw [isCharBoundary, hhead, hc]
          simp [htail]
        refine ⟨out, fun h => absurd (.inl htail) h, ?_⟩
        rw [strSlice, if_neg (by simp [hnot]), if_pos (.inl htail)]
        rfl
      have hend : isCharBoundary s (written.length * 2 + 2) = true := by
        rw [isCharBoundary, hhead]
        cases hc : rest.head? with
        | none =>
          have hnil : rest = [] := head?_eq_none_iff.mp hc
          have hle := drop_eq_nil_iff.mp (hnext.trans hnil)
          simp
          omega
        | some c =>
          have hc' : isTail c = false :=
            Bool.eq_false_iff.mpr fun h => htail ⟨c, hc, h⟩
          simp [hc']
      rw [strSlice, if_pos ⟨by omega, hbound, hend⟩, hslice,
        ok_bind, fromStrRadix16_pair]
      by_cases hab : Readable a b
      · obtain ⟨out', hset, hout'⟩ := Digest.setByte_length
          (ε := Empty) hout (by omega)
          (join ((value a).getD 0) ((value b).getD 0))
        have hlen' (v : UInt8) :
            (written ++ [v]).length * 2 = written.length * 2 + 2 := by
          rw [length_append, Nat.add_mul]
          rfl
        obtain ⟨d, hd, heq⟩ := ih (by rw [hlen', hnext]) (by simp; omega) hout'
          (by rw [hlen', hend])
        rw [length_append, length_singleton] at heq
        refine ⟨d, fun hs h => ?_, ?_⟩
        · rw [hd (fun h' => hs (.inr ⟨hab, h'⟩)) h.2, append_assoc]
          rfl
        · simp only [if_pos hab]
          rw [← Hex.join, hset, ok_bind, heq]
          simp only [htail, hab, false_or, true_and, ReadablePairs]
      · refine ⟨out, fun _ h => absurd h.1 hab, ?_⟩
        simp only [htail, hab, false_and, or_false, if_false, ReadablePairs]
        rfl

open scoped Classical in
theorem infoHashFromHex_eq {s : Str} (hlen : s.1.length = 40) :
    ∃ d : Digest, (¬ Straddles s.1 → ReadablePairs s.1 →
        d.1 = pairValues s.1) ∧
      infoHashFromHex s = if Straddles s.1 then .panic
        else if ReadablePairs s.1 then .ok (some d) else .ok none := by
  rw [infoHashFromHex, if_pos hlen, range_eq_range']
  have hstart : s.1.drop (([] : Bytes).length * 2) = s.1 := drop_zero
  have hcount : ([] : Bytes).length + 20 = 20 := rfl
  exact hashBytes_eq hlen hstart hcount
    ( nil_prefix (l := Digest.zeroed.1)) rfl

/-! ## Exactness -/

/-- Forty hexadecimal digits. -/
def IsHash (s : Bytes) : Prop :=
  s.length = 40 ∧ ∀ c ∈ s, (Hex.value c).isSome

/-- The hash of forty hexadecimal digits, and nothing for any other text. -/
def ReadsExactly (s : Str) : Prop :=
  (IsHash s.1 → ∃ h : Digest, infoHashFromHex s = .ok (some h) ∧
    Hex.text h.1 = s.1.map Hex.lower) ∧
  (¬ IsHash s.1 → infoHashFromHex s = .ok none)

/-- Forty bytes that straddle, or whose pairs are all readable although there
is a plus sign among them. -/
def Misread (s : Bytes) : Prop :=
  s.length = 40 ∧
    (Straddles s ∨ (ReadablePairs s ∧ asciiByte '+' ∈ s))

theorem lt_of_value {c : UInt8} (h : (value c).isSome) : c.toNat < 0x80 := by
  have hall : ∀ c, (value c).isSome → c.toNat < 0x80 :=
    forall_byte (by decide +kernel)
  exact hall c h

theorem not_isTail_of_lt {c : UInt8} (h : c.toNat < 0x80) :
    isTail c = false := by
  rw [isTail, inRange, decide_eq_false_iff_not]
  omega

theorem not_straddles_of_digits {s : Bytes}
    (h : ∀ c ∈ s, (value c).isSome) : ¬ Straddles s := by
  rintro ⟨front, a, b, c, rest, rfl, -, hc⟩
  have hvalue := h c (by simp)
  rw [not_isTail_of_lt (lt_of_value hvalue)] at hc
  cases hc

theorem readablePairs_of_digits {s : Bytes} (heven : s.length % 2 = 0)
    (h : ∀ c ∈ s, (value c).isSome) : ReadablePairs s := by
  fun_induction ReadablePairs s with
  | case1 => trivial
  | case2 => simp at heven
  | case3 a b rest ih =>
    simp only [length_cons] at heven
    exact ⟨⟨.inr (h a (by simp)), h b (by simp)⟩,
      ih (by omega) fun c hc => h c (by simp [hc])⟩

theorem digits_of_readablePairs {s : Bytes} (h : ReadablePairs s)
    (hplus : asciiByte '+' ∉ s) : ∀ c ∈ s, (value c).isSome := by
  fun_induction ReadablePairs s with
  | case1 => exact fun c hc => absurd hc not_mem_nil
  | case2 => exact h.elim
  | case3 a b rest ih =>
    simp only [mem_cons, not_or] at hplus
    have ha : (value a).isSome :=
      h.1.1.resolve_left (Ne.symm hplus.1)
    intro c hc
    rcases mem_cons.mp hc with rfl | hc
    · exact ha
    rcases mem_cons.mp hc with rfl | hc
    · exact h.1.2
    · exact ih h.2 hplus.2.2 c hc

theorem text_pairValues {s : Bytes} (heven : s.length % 2 = 0)
    (h : ∀ c ∈ s, (value c).isSome) : text (pairValues s) = s.map lower := by
  fun_induction pairValues s with
  | case1 a b rest ih =>
    obtain ⟨x, hx⟩ := isSome_iff_exists.mp (h a (by simp))
    obtain ⟨y, hy⟩ := isSome_iff_exists.mp (h b (by simp))
    have hx' := value_lt hx
    have hy' := value_lt hy
    have hhi : (16 * x + y) / 16 = x := by omega
    have hlo : (16 * x + y) % 16 = y := by omega
    simp only [length_cons] at heven
    rw [hx, hy, getD_some, getD_some, text_cons,
      toNat_join hx' hy', hhi, hlo,
      ih (by omega) fun c hc => h c (by simp [hc]), map_cons,
      map_cons, lower_eq_digit hx, lower_eq_digit hy]
  | case2 s hshort =>
    match s, hshort with
    | [], _ => rfl
    | [_], _ => simp at heven
    | a :: b :: rest, hshort => exact (hshort a b rest rfl).elim

/-- `info_hash_from_hex` is exact on a text exactly when it is not one of the
misread ones. -/
theorem readsExactly_iff (s : Str) : ReadsExactly s ↔ ¬ Misread s.1 := by
  by_cases hlen : s.1.length = 40
  swap
  · have hnone : infoHashFromHex s = .ok none := if_neg hlen
    exact ⟨fun _ h => hlen h.1,
      fun _ => ⟨fun h => absurd h.1 hlen, fun _ => hnone⟩⟩
  have heven : s.1.length % 2 = 0 := by rw [hlen]
  have hplus : (value (asciiByte '+')).isSome = false := by decide
  obtain ⟨d, hd, heq⟩ := infoHashFromHex_eq hlen
  by_cases hhash : IsHash s.1
  · have hnot := not_straddles_of_digits hhash.2
    have hread := readablePairs_of_digits heven hhash.2
    rw [if_neg hnot, if_pos hread] at heq
    constructor
    · rintro - ⟨-, h | ⟨-, h⟩⟩
      · exact hnot h
      · rw [hhash.2 _ h] at hplus
        cases hplus
    · refine fun _ => ⟨fun _ => ⟨d, heq, ?_⟩, fun h => absurd hhash h⟩
      rw [hd hnot hread, text_pairValues heven hhash.2]
  · have hiff : ReadsExactly s ↔ infoHashFromHex s = .ok none :=
      ⟨fun h => h.2 hhash, fun h => ⟨fun hh => absurd hh hhash, fun _ => h⟩⟩
    rw [hiff, heq, Misread]
    by_cases hs : Straddles s.1
    · simp [hs, hlen]
    by_cases hr : ReadablePairs s.1
    · have hmem : asciiByte '+' ∈ s.1 := by
        by_contra hno
        exact hhash ⟨hlen, digits_of_readablePairs hr hno⟩
      simp [hs, hr, hlen, hmem]
    · simp [hs, hr]

end Util

namespace DaemonStore

/-! ## Names and files -/

theorem splitAtDot_torrent {name stem : Bytes} :
    splitAtDot name = (stem, some (ascii "torrent")) ↔
      stem ≠ [] ∧ name = stem ++ ascii ".torrent" := by
  have hfree : asciiByte '.' ∉ ascii "torrent" := by decide
  constructor
  · intro h
    rw [splitAtDot] at h
    split at h
    · simp at h
    · split at h
      next before after hsplit =>
        split at h
        next => simp at h
        next hbefore =>
          rw [Prod.mk.injEq, some.injEq] at h
          obtain ⟨rfl, rfl⟩ := h
          exact ⟨hbefore, (rsplitOnce_eq_some.mp hsplit).1⟩
      next => simp at h
  · rintro ⟨hstem, rfl⟩
    have hdots : stem ++ ascii ".torrent" ≠ ascii ".." := by
      intro heq
      have hlen := congrArg List.length heq
      rw [length_append] at hlen
      have h8 : (ascii ".torrent").length = 8 := by decide
      have h2 : (ascii "..").length = 2 := by decide
      omega
    have hsplit : rsplitOnce (asciiByte '.') (stem ++ ascii ".torrent") =
        some (stem, ascii "torrent") :=
      rsplitOnce_eq_some.mpr ⟨rfl, hfree⟩
    rw [splitAtDot, if_neg hdots, hsplit]
    simp [hstem]

theorem Directory.read_eq_some {dir : Directory} {name b : Bytes} :
    dir.read name = some b ↔
      ∃ e ∈ dir.entries, e.name = name ∧ e.content = some b := by
  rw [Directory.read, bind_eq_some_iff]
  constructor
  · rintro ⟨e, he, hb⟩
    have hname := find?_some he
    exact ⟨e, mem_of_find?_eq_some he, by simpa using hname, hb⟩
  · rintro ⟨e, he, rfl, hb⟩
    refine ⟨e, ?_, hb⟩
    cases hfind : dir.entries.find? (·.name = e.name) with
    | none =>
      have hnone := find?_eq_none.mp hfind e he
      simp at hnone
    | some e' =>
      have hname : e'.name = e.name := by
        simpa using find?_some hfind
      have hmem := mem_of_find?_eq_some hfind
      rw [inj_on_of_nodup_map dir.distinct hmem he hname]

section Load

variable (redactInfoHash : Digest → String)
  (fromSlice : Bytes → Option Sidecar)

/-- The file is a readable `*.torrent` file with a sidecar that decodes, and
`p` holds its bytes and what the sidecar says. -/
def Restored (dir : Directory) (e : DirEntry) (p : PersistedTorrent) :
    Prop :=
  ∃ stem : Str, stem.1 ≠ [] ∧ e.name = stem.1 ++ ascii ".torrent" ∧
    e.content = some p.torrentBytes ∧
    ∃ json ∈ dir.entries, json.name = stem.1 ++ ascii ".json" ∧
      ∃ b, json.content = some b ∧
        fromSlice b = some ⟨p.output, p.enableDht⟩

/-- `load_all` returns one entry for each file to restore, in the order of
the directory, and nothing else. -/
def Restores (dir : Directory) : Prop :=
  ∃ out, loadAll redactInfoHash fromSlice dir = .ok out ∧
    ∃ es, es.Sublist dir.entries ∧
      (∀ e ∈ dir.entries, e ∈ es ↔ ∃ p, Restored fromSlice dir e p) ∧
      List.Forall₂ (Restored fromSlice dir) es out

/-- A torrent file whose stem has forty bytes and straddles. -/
def StraddlingName (e : DirEntry) : Prop :=
  ∃ stem : Str, e.name = stem.1 ++ ascii ".torrent" ∧
    stem.1.length = 40 ∧ Util.Straddles stem.1

open scoped Classical in
theorem entryLabel_eq (stem : Str) : ∃ label,
    entryLabel redactInfoHash stem =
      if stem.1.length = 40 ∧ Util.Straddles stem.1 then .panic
      else .ok label := by
  by_cases hlen : stem.1.length = 40
  · obtain ⟨d, -, heq⟩ := Util.infoHashFromHex_eq hlen
    rw [entryLabel, heq]
    by_cases hs : Util.Straddles stem.1
    · exact ⟨"", by simp [hlen, hs]⟩
    · by_cases hr : Util.ReadablePairs stem.1
      · exact ⟨_, by simp only [hs, hr, and_false, if_false, if_true]; rfl⟩
      · exact ⟨_, by simp only [hs, hr, and_false, if_false]; rfl⟩
  · refine ⟨"non-info-hash-named entry", ?_⟩
    rw [entryLabel, Util.infoHashFromHex, if_neg hlen, if_neg fun h => hlen h.1]
    rfl

open scoped Classical in
/-- What one round does with a file: it restores it, or it skips it, and may
unwind while it does so. -/
theorem loadEntry_cases (dir : Directory) (e : DirEntry) :
    (∃ p, Restored fromSlice dir e p ∧
      loadEntry redactInfoHash fromSlice dir e = .ok (some p)) ∨
    (¬ ∃ p, Restored fromSlice dir e p) ∧
      loadEntry redactInfoHash fromSlice dir e =
        if StraddlingName e then .panic else .ok none := by
  have hforeign (hno : ∀ stem : Str, stem.1 ≠ [] →
        e.name ≠ stem.1 ++ ascii ".torrent")
      (hload : loadEntry redactInfoHash fromSlice dir e = .ok none) :
      (¬ ∃ p, Restored fromSlice dir e p) ∧
        loadEntry redactInfoHash fromSlice dir e =
          if StraddlingName e then .panic else .ok none := by
    refine ⟨fun ⟨p, stem, hne, heq, _⟩ => hno stem hne heq, ?_⟩
    rw [hload, if_neg]
    rintro ⟨stem, heq, hlen, -⟩
    refine hno stem (fun hnil => ?_) heq
    rw [hnil] at hlen
    cases hlen
  by_cases hext : (splitAtDot e.name).2 = some (ascii "torrent")
  swap
  · refine .inr (hforeign (fun stem hne heq => hext ?_) (if_neg hext))
    rw [splitAtDot_torrent.mpr ⟨hne, heq⟩]
  obtain ⟨hne, hname⟩ := splitAtDot_torrent.mp (Prod.ext rfl hext)
  have hunique : ∀ stem : Str, e.name = stem.1 ++ ascii ".torrent" →
      stem.1 = (splitAtDot e.name).1 := fun stem heq =>
    append_cancel_right (heq.symm.trans hname)
  cases hstr : Str.ofBytes (splitAtDot e.name).1 with
  | none =>
    refine .inr (hforeign (fun stem _ heq => ?_) ?_)
    · rw [← hunique stem heq, Str.ofBytes_val] at hstr
      cases hstr
    · rw [loadEntry, if_pos hext, hstr]
  | some stem =>
    have hstem := Str.ofBytes_eq_some.mp hstr
    have hname' : e.name = stem.1 ++ ascii ".torrent" := by
      rw [hstem, ← hname]
    have hsame : ∀ stem' : Str, e.name = stem'.1 ++ ascii ".torrent" →
        stem' = stem := fun stem' heq =>
      Subtype.ext ((hunique stem' heq).trans hstem.symm)
    have hstraddles : StraddlingName e ↔
        stem.1.length = 40 ∧ Util.Straddles stem.1 :=
      ⟨fun ⟨stem', heq, h⟩ => hsame stem' heq ▸ h, fun h => ⟨stem, hname', h⟩⟩
    -- a file that is skipped is labelled with its stem
    have hskip : (do
        let _ ← entryLabel redactInfoHash stem
        return none) = if StraddlingName e then Outcome.panic
          else .ok (none : Option PersistedTorrent) := by
      obtain ⟨label, hlabel⟩ := entryLabel_eq redactInfoHash stem
      simp only [hlabel, hstraddles]
      split_ifs <;> rfl
    rw [loadEntry, if_pos hext, hstr]
    cases hcontent : e.content with
    | none =>
      refine .inr ⟨?_, hskip⟩
      rintro ⟨p, _, -, -, hp, -⟩
      cases hcontent.symm.trans hp
    | some torrentBytes =>
      cases hside : (dir.read (stem.1 ++ ascii ".json")).bind fromSlice with
      | none =>
        simp only [hside]
        refine .inr ⟨?_, hskip⟩
        rintro ⟨p, stem', -, heq, -, json, hjson, hjname, b, hb, hdec⟩
        rw [hsame stem' heq] at hjname
        have hread := Directory.read_eq_some.mpr ⟨json, hjson, hjname, hb⟩
        rw [hread, bind_some, hdec] at hside
        cases hside
      | some sidecar =>
        simp only [hside]
        obtain ⟨b, hread, hdec⟩ := bind_eq_some_iff.mp hside
        obtain ⟨json, hjson, hjname, hb⟩ :=
          Directory.read_eq_some.mp hread
        refine .inl ⟨_, ?_, rfl⟩
        exact ⟨stem, hstem ▸ hne, hname', hcontent, json, hjson, hjname,
          b, hb, hdec⟩

theorem Restored.unique {fromSlice : Bytes → Option Sidecar} {dir : Directory}
    {e : DirEntry} {p q : PersistedTorrent} (hp : Restored fromSlice dir e p)
    (hq : Restored fromSlice dir e q) : p = q := by
  obtain ⟨stem, -, hname, hbytes, json, hjson, hjname, b, hb, hdec⟩ := hp
  obtain ⟨stem', -, hname', hbytes', json', hjson', hjname', b', hb',
    hdec'⟩ := hq
  have hstem : stem.1 = stem'.1 :=
    append_cancel_right (hname.symm.trans hname')
  rw [← hstem, ← hjname] at hjname'
  have hjsame := inj_on_of_nodup_map dir.distinct hjson' hjson hjname'
  rw [hjsame, hb, some.injEq] at hb'
  rw [← hb', hdec, some.injEq, Sidecar.mk.injEq] at hdec'
  rw [hbytes, some.injEq] at hbytes'
  cases p
  cases q
  simp_all

theorem forall₂_reduceOption {α β : Type} {R : α → β → Prop} {r : α → Option β}
    {l : List α} (h : ∀ a ∈ l, ∀ b, r a = some b → R a b) :
    List.Forall₂ R (l.filter fun a => (r a).isSome)
      ((l.map r).reduceOption) := by
  induction l with
  | nil => exact .nil
  | cons a l ih =>
    have hl := ih fun a ha => h a (mem_cons_of_mem _ ha)
    cases hr : r a with
    | none =>
      rw [filter_cons_of_neg (by simp [hr]), map_cons, hr,
        reduceOption_cons_of_none]
      exact hl
    | some b =>
      rw [filter_cons_of_pos (by simp [hr]), map_cons, hr,
        reduceOption_cons_of_some]
      exact .cons (h a mem_cons_self b hr) hl

/-- The directory is restored exactly when every torrent file with a
straddling name can be restored itself. -/
theorem restores_iff (dir : Directory) : Restores redactInfoHash fromSlice dir ↔
      ∀ e ∈ dir.entries, StraddlingName e →
        ∃ p, Restored fromSlice dir e p := by
  constructor
  · rintro ⟨out, hout, -⟩ e he hs
    rw [loadAll, bind_eq_ok] at hout
    obtain ⟨loaded, hloaded, -⟩ := hout
    obtain ⟨r, hr⟩ := exists_of_traverse_eq_ok hloaded he
    rcases loadEntry_cases redactInfoHash fromSlice dir e with
      ⟨p, hp, -⟩ | ⟨-, hload⟩
    · exact ⟨p, hp⟩
    · rw [hload, if_pos hs] at hr
      cases hr
  · intro hall
    have hok : ∀ e ∈ dir.entries, ∃ r,
        loadEntry redactInfoHash fromSlice dir e = .ok r ∧
          ∀ p, r = some p ↔ Restored fromSlice dir e p := by
      intro e he
      rcases loadEntry_cases redactInfoHash fromSlice dir e with
        ⟨p, hp, hload⟩ | ⟨hno, hload⟩
      · refine ⟨some p, hload, fun q => ?_⟩
        rw [some.injEq]
        exact ⟨fun h => h ▸ hp, fun hq => hp.unique hq⟩
      · rw [if_neg fun hs => hno (hall e he hs)] at hload
        exact ⟨none, hload, fun q => ⟨nofun, fun hq => absurd ⟨q, hq⟩ hno⟩⟩
    choose! r hload hr using hok
    refine ⟨(dir.entries.map r).reduceOption, ?_,
      dir.entries.filter fun e => (r e).isSome, filter_sublist, ?_,
      forall₂_reduceOption fun e he p hp => (hr e he p).mp hp⟩
    · rw [loadAll, traverse_of_forall hload]
      rfl
    · intro e he
      rw [mem_filter, isSome_iff_exists]
      constructor
      · rintro ⟨-, p, hp⟩
        exact ⟨p, (hr e he p).mp hp⟩
      · rintro ⟨p, hp⟩
        exact ⟨he, p, (hr e he p).mpr hp⟩

/-- The directory is restored exactly when every torrent file with a
straddling name can be restored itself, and a text is read as a hash exactly
when it is not one of the misread ones. -/
theorem restores_and_readsExactly_iff (dir : Directory) (s : Str) :
    (Restores redactInfoHash fromSlice dir ↔
      ∀ e ∈ dir.entries, StraddlingName e → ∃ p, Restored fromSlice dir e p) ∧
    (Util.ReadsExactly s ↔ ¬ Util.Misread s.1) :=
  ⟨restores_iff redactInfoHash fromSlice dir, Util.readsExactly_iff s⟩

end Load

/-- Forty bytes: a digit, a character of two bytes, and more digits. -/
def straddlingStem : Str :=
  ⟨asciiByte '0' :: 0xC3 :: 0xA9 :: List.replicate 37 (asciiByte '0'),
    by decide +kernel⟩

/-- A directory with one torrent file that has no sidecar. -/
def straddlingDirectory : Directory where
  entries := [⟨straddlingStem.1 ++ ascii ".torrent", some []⟩]
  distinct := by decide

/-- Twenty times a plus sign with a digit. -/
def signedPairs : Str :=
  ⟨(List.replicate 20 [asciiByte '+', asciiByte '0']).flatten,
    by decide +kernel⟩

/-- A torrent file without a sidecar stops the restore when its stem
straddles, and signed pairs are read as a hash. -/
theorem loadAll_straddling_panics :
    loadAll (fun _ => "") (fun _ => none) straddlingDirectory = .panic ∧
    Util.infoHashFromHex straddlingStem = .panic ∧
    Util.infoHashFromHex signedPairs = .ok (some Digest.zeroed) := by
  refine ⟨?_, ?_, ?_⟩ <;> decide +kernel

end DaemonStore

end RustyTorrent
