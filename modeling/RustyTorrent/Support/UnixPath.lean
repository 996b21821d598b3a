import RustyTorrent.Support.Decimal

/-!
# Unix paths

Paths as the Rust standard library sees them on Unix: a path is its bytes,
`components` splits it at the separator and drops empty and `.` segments, and
`push` (the work of `join`) appends a relative path or replaces the base by an
absolute one.

The main facts are about plain names.  Joining names that are neither empty
nor dots nor contain a separator adds exactly these names to the components of
any base, and lexical resolution then descends through them without ever
climbing.
-/

namespace RustyTorrent.UnixPath

open List

/-- A path is the list of its bytes. -/
abbrev Path := List UInt8

def separator : UInt8 := asciiByte '/'

/-- `std::path::Component` on Unix. -/
inductive Component where
  | rootDir
  | curDir
  | parentDir
  | normal (name : List UInt8)
  deriving DecidableEq, Repr

def isAbsolute (p : Path) : Bool :=
  p.head? = some separator

/-- The component a segment stands for in the body of a path. -/
def segment (s : List UInt8) : Option Component :=
  if s = [] ∨ s = ascii "." then none
  else if s = ascii ".." then some .parentDir
  else some (.normal s)

/-- What precedes the body: the root, or a current-directory component when
the path starts with a `.` segment. -/
def leading (p : Path) : List Component :=
  if isAbsolute p then [.rootDir]
  else if (p.splitOn separator).head? = some (ascii ".") then [.curDir]
  else []

def components (p : Path) : List Component :=
  leading p ++ (p.splitOn separator).filterMap segment

def push (base rel : Path) : Path :=
  if isAbsolute rel then rel
  else if base.getLast?.any (· ≠ separator) then base ++ separator :: rel
  else base ++ rel

def join (base rel : Path) : Path := push base rel

/-- `Path::starts_with`, which compares components. -/
def startsWith (p base : Path) : Bool :=
  (components base).isPrefixOf (components p)

/-- Lexical resolution from the directory `cwd`, given as its names. -/
def resolve (cwd : List (List UInt8)) (cs : List Component) :
    List (List UInt8) :=
  cs.foldl
    (fun dir c =>
      match c with
      | .rootDir => []
      | .curDir => dir
      | .parentDir => dir.dropLast
      | .normal n => dir ++ [n])
    cwd

/-! ## Plain names -/

/-- A segment that names an entry of the directory it is looked up in. -/
structure PlainName (n : List UInt8) : Prop where
  ne_nil : n ≠ []
  ne_dot : n ≠ ascii "."
  ne_dotDot : n ≠ ascii ".."
  no_separator : separator ∉ n

variable {n : List UInt8} {names : List (List UInt8)}

theorem PlainName.segment_eq (h : PlainName n) :
    segment n = some (.normal n) := by
  simp [segment, h.ne_nil, h.ne_dot, h.ne_dotDot]

theorem PlainName.not_isAbsolute (h : PlainName n) : isAbsolute n = false := by
  cases n with
  | nil => rfl
  | cons c t =>
    have hc : c ≠ separator := by
      rintro rfl
      exact h.no_separator (by simp)
    simp [isAbsolute, hc]

/-- Plain names joined by separators. -/
def relative (names : List (List UInt8)) : Path :=
  [separator].intercalate names

theorem splitOn_relative (h : ∀ n ∈ names, PlainName n) (hne : names ≠ []) :
    (relative names).splitOn separator = names :=
  splitOn_intercalate separator (fun n hn => (h n hn).no_separator) hne

theorem filterMap_segment_plain (h : ∀ n ∈ names, PlainName n) :
    names.filterMap segment = names.map .normal := by
  induction names with
  | nil => rfl
  | cons n names ih =>
    rw [filterMap_cons_some (h n (by simp)).segment_eq,
      ih fun m hm => h m (by simp [hm])]
    rfl

theorem relative_cons_cons (n m : List UInt8) (names : List (List UInt8)) :
    relative (n :: m :: names) = n ++ separator :: relative (m :: names) := by
  simp [relative, intercalate]

section

variable (h : ∀ n ∈ names, PlainName n)

include h

theorem not_isAbsolute_relative : isAbsolute (relative names) = false := by
  cases names with
  | nil => rfl
  | cons n names =>
    have hn := h n (by simp)
    obtain ⟨c, t, rfl⟩ := exists_cons_of_ne_nil hn.ne_nil
    have habs := hn.not_isAbsolute
    cases names with
    | nil => simpa [relative, intercalate] using habs
    | cons m names =>
      rw [relative_cons_cons]
      simpa [isAbsolute] using habs

theorem leading_relative : leading (relative names) = [] := by
  rw [leading, not_isAbsolute_relative h]
  cases names with
  | nil => rfl
  | cons n names =>
    rw [splitOn_relative h (by simp)]
    simp [(h n (by simp)).ne_dot]

theorem components_relative :
    components (relative names) = names.map .normal := by
  rw [components, leading_relative h, nil_append]
  by_cases hne : names = []
  · subst hne
    rfl
  · rw [splitOn_relative h hne, filterMap_segment_plain h]

end

/-! ## Joining -/

theorem splitOn_append_separator (p q : Path) :
    (p ++ separator :: q).splitOn separator =
      p.splitOn separator ++ q.splitOn separator :=
  splitOnP_append_cons p q (by simp)

theorem leading_append_separator {p : Path} (hp : p ≠ []) (q : Path) :
    leading (p ++ separator :: q) = leading p := by
  have habs : isAbsolute (p ++ separator :: q) = isAbsolute p := by
    cases p with
    | nil => exact absurd rfl hp
    | cons c t => rfl
  have hhead : ((p ++ separator :: q).splitOn separator).head? =
      (p.splitOn separator).head? := by
    rw [splitOn_append_separator]
    exact head?_append_of_ne_nil _ (splitOnP_ne_nil _ _)
  rw [leading, leading, habs, hhead]

/-- Joining a relative path made of plain names adds these names to the
components of the base, whatever the base is. -/
theorem components_join_relative (base : Path)
    (h : ∀ n ∈ names, PlainName n) (hne : names ≠ []) :
    components (join base (relative names)) =
      components base ++ names.map .normal := by
  have hsegments := filterMap_segment_plain h
  have hsplit := splitOn_relative h hne
  rw [join, push, not_isAbsolute_relative h, if_neg Bool.false_ne_true]
  cases base using reverseRecOn with
  | nil =>
    have hnil : components [] = [] := rfl
    simp [components_relative h, hnil]
  | append_singleton init last =>
    by_cases hlast : last = separator
    · -- The base already ends in a separator.
      subst hlast
      have hpath : init ++ [separator] ++ relative names =
          init ++ separator :: relative names := by
        simp
      have hleading : leading (init ++ separator :: relative names) =
          leading (init ++ [separator]) := by
        by_cases hinit : init = []
        · subst hinit
          rfl
        · rw [leading_append_separator hinit, leading_append_separator hinit]
      have hempty : ([] : Path).splitOn separator = [[]] := rfl
      rw [if_neg (by simp), hpath, components, components, hleading,
        splitOn_append_separator, splitOn_append_separator, hsplit,
        filterMap_append, filterMap_append, hsegments, hempty]
      simp [segment]
    · rw [if_pos (by simp [hlast]), components, components,
        leading_append_separator (by simp), splitOn_append_separator,
        hsplit, filterMap_append, hsegments, append_assoc]

theorem join_inj {base p q : Path} (hp : isAbsolute p = false)
    (hq : isAbsolute q = false) : join base p = join base q ↔ p = q := by
  rw [join, join, push, push, hp, hq, if_neg Bool.false_ne_true,
    if_neg Bool.false_ne_true]
  split
  · simp
  · simp

theorem relative_append_singleton (hne : names ≠ []) (n : List UInt8) :
    relative (names ++ [n]) = relative names ++ separator :: n := by
  induction names with
  | nil => exact absurd rfl hne
  | cons m names ih =>
    cases names with
    | nil => simp [relative, intercalate]
    | cons k names =>
      have hrest := ih (by simp)
      rw [cons_append] at hrest
      rw [cons_append, cons_append, relative_cons_cons,
        relative_cons_cons, hrest, append_assoc, cons_append]

theorem PlainName.getLast?_any (h : PlainName n) :
    n.getLast?.any (· ≠ separator) = true := by
  rw [getLast?_eq_getLast_of_ne_nil h.ne_nil]
  simp only [ne_eq, Option.any_some, decide_not, Bool.not_eq_true',
    decide_eq_false_iff_not]
  intro hlast
  exact h.no_separator (hlast ▸ getLast_mem h.ne_nil)

theorem relative_getLast?_any
    (h : ∀ n ∈ names, PlainName n) (hne : names ≠ []) :
    (relative names).getLast?.any (· ≠ separator) = true := by
  obtain ⟨init, n, rfl⟩ : ∃ init n, names = init ++ [n] :=
    ⟨names.dropLast, names.getLast hne, (dropLast_append_getLast hne).symm⟩
  have hn := h n (by simp)
  by_cases hinit : init = []
  · subst hinit
    simpa [relative, intercalate] using hn.getLast?_any
  · rw [relative_append_singleton hinit,
      getLast?_append_of_ne_nil _ (by simp),
      getLast?_cons_of_ne_nil hn.ne_nil]
    exact hn.getLast?_any

theorem push_plain (hnames : ∀ m ∈ names, PlainName m) (hn : PlainName n) :
    push (relative names) n = relative (names ++ [n]) := by
  rw [push, hn.not_isAbsolute, if_neg Bool.false_ne_true]
  by_cases hne : names = []
  · subst hne
    simp [relative, intercalate]
  · rw [if_pos (relative_getLast?_any hnames hne),
      relative_append_singleton hne]

theorem foldl_push_plain {more : List (List UInt8)}
    (hnames : ∀ n ∈ names, PlainName n) (hmore : ∀ n ∈ more, PlainName n) :
    more.foldl push (relative names) = relative (names ++ more) := by
  induction more generalizing names with
  | nil => simp
  | cons n more ih =>
    have hn := hmore n (by simp)
    rw [foldl_cons, push_plain hnames hn, ih]
    · simp
    · intro m hm
      rcases mem_append.mp hm with hm | hm
      · exact hnames m hm
      · rw [mem_singleton.mp hm]
        exact hn
    · intro m hm
      exact hmore m (by simp [hm])

/-! ## Resolution -/

theorem resolve_append_plain (cwd : List (List UInt8))
    (cs : List Component) (names : List (List UInt8)) :
    resolve cwd (cs ++ names.map .normal) = resolve cwd cs ++ names := by
  rw [resolve, foldl_append]
  induction names using reverseRecOn with
  | nil => simp [resolve]
  | append_singleton names n ih =>
    rw [map_append, foldl_append, ih]
    simp

end RustyTorrent.UnixPath
