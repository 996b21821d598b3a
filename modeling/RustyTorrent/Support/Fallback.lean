import Mathlib.Data.List.Infix

/-!
# Trying alternatives in order

A list of entries is tried from the front.  An entry is refused, or leads to a
contact; the answer to a contact may depend on all contacts before it.  The
first answer that is a success ends the search.  Whatever is refused and
however the contacts are answered, the contacts come from a sublist of the
entries and none follows a success (`foldl_attempt`).
-/

namespace RustyTorrent.Fallback

open List

variable {ι κ ε ρ : Type}

/-- The contacts so far, and the success or the last error. -/
structure State (ι κ ε ρ : Type) where
  log : List κ
  outcome : Except (Option ε) (ι × ρ)

/-- Nothing has been tried. -/
def start : State ι κ ε ρ := ⟨[], .error none⟩

/-- The answer to an entry, as an outcome. -/
def outcomeOf (x : ι) : Except ε ρ → Except (Option ε) (ι × ρ)
  | .ok r => .ok (x, r)
  | .error e => .error (some e)

variable (choose : ι → Except ε κ) (answer : List κ → κ → Except ε ρ)

/-- Try one entry, unless an earlier one succeeded. -/
def attempt (s : State ι κ ε ρ) (x : ι) : State ι κ ε ρ :=
  match s.outcome with
  | .ok _ => s
  | .error _ =>
    match choose x with
    | .error e => ⟨s.log, .error (some e)⟩
    | .ok c => ⟨s.log ++ [c], outcomeOf x (answer s.log c)⟩

/-- The contacts come from a sublist of the entries, and a success is the last
of them. -/
structure Sound (entries : List ι) (s : State ι κ ε ρ) : Prop where
  chosen : ∃ xs : List ι, xs.Sublist entries ∧
    xs.map choose = s.log.map .ok
  stops : ∀ pre c post r, s.log = pre ++ c :: post → answer pre c = .ok r →
    post = [] ∧ ∃ x, s.outcome = .ok (x, r)

variable {choose answer} {entries : List ι} {s : State ι κ ε ρ}

theorem sound_start : Sound choose answer [] start :=
  ⟨⟨[], .slnil, rfl⟩, fun _ _ _ _ h => by simp [start] at h⟩

theorem attempt_of_ok {r : ι × ρ} (h : s.outcome = .ok r) (x : ι) :
    attempt choose answer s x = s := by
  rw [attempt, h]

theorem attempt_refused {last : Option ε} (h : s.outcome = .error last)
    {x : ι} {e : ε} (hx : choose x = .error e) :
    attempt choose answer s x = ⟨s.log, .error (some e)⟩ := by
  rw [attempt, h, hx]

theorem attempt_contact {last : Option ε} (h : s.outcome = .error last)
    {x : ι} {c : κ} (hx : choose x = .ok c) :
    attempt choose answer s x =
      ⟨s.log ++ [c], outcomeOf x (answer s.log c)⟩ := by
  rw [attempt, h, hx]

section

variable (h : Sound choose answer entries s)

include h

theorem Sound.not_ok {last : Option ε} (hout : s.outcome = .error last)
    {pre post : List κ} {c : κ} {r : ρ} (hlog : s.log = pre ++ c :: post)
    : answer pre c ≠ .ok r := by
  intro hans
  obtain ⟨-, x, hx⟩ := h.stops pre c post r hlog hans
  cases hout.symm.trans hx

theorem Sound.attempt (x : ι) :
    Sound choose answer (entries ++ [x]) (attempt choose answer s x) := by
  obtain ⟨xs, hsub, hmap⟩ := h.chosen
  have hsub' : xs.Sublist (entries ++ [x]) :=
    hsub.trans (sublist_append_left entries [x])
  cases hout : s.outcome with
  | ok r =>
    rw [attempt_of_ok hout]
    exact ⟨⟨xs, hsub', hmap⟩, h.stops⟩
  | error last =>
    cases hc : choose x with
    | error e =>
      rw [attempt_refused hout hc]
      exact ⟨⟨xs, hsub', hmap⟩, fun pre c post r hlog hans =>
        absurd hans (h.not_ok hout hlog)⟩
    | ok c =>
      rw [attempt_contact hout hc]
      refine ⟨⟨xs ++ [x], hsub.append (List.Sublist.refl [x]), ?_⟩, ?_⟩
      · rw [map_append, map_append, hmap, map_singleton, map_singleton, hc]
      · intro pre c' post r hlog hans
        dsimp only at hlog ⊢
        rcases eq_nil_or_concat' post with rfl | ⟨post', d, rfl⟩
        · obtain ⟨rfl, hcc⟩ := append_inj' hlog rfl
          cases hcc
          exact ⟨rfl, x, by rw [hans]; rfl⟩
        · -- a success before the last contact would have ended the search
          rw [← cons_append, ← append_assoc] at hlog
          obtain ⟨hlog', -⟩ := append_inj' hlog rfl
          exact absurd hans (h.not_ok hout hlog')

theorem Sound.foldl_attempt (xs : List ι) :
    Sound choose answer (entries ++ xs)
      (xs.foldl (Fallback.attempt choose answer) s) := by
  induction xs generalizing entries s with
  | nil => rwa [append_nil]
  | cons x xs ih =>
    have hrest := ih (h.attempt x)
    rwa [append_assoc, singleton_append] at hrest

theorem Sound.mem_log {c : κ} (hc : c ∈ s.log)
    : ∃ x ∈ entries, choose x = .ok c := by
  obtain ⟨xs, hsub, hmap⟩ := h.chosen
  have hmem : (.ok c : Except ε κ) ∈ xs.map choose := by
    rw [hmap]
    exact mem_map_of_mem hc
  obtain ⟨x, hx, hchoose⟩ := mem_map.mp hmem
  exact ⟨x, hsub.subset hx, hchoose⟩

theorem Sound.labels_sublist {label : κ → ι}
    (hlabel : ∀ x c, choose x = .ok c → label c = x) :
    (s.log.map label).Sublist entries := by
  obtain ⟨xs, hsub, hmap⟩ := h.chosen
  suffices hxs : s.log.map label = xs by rwa [hxs]
  generalize s.log = log at hmap
  clear hsub
  induction log generalizing xs with
  | nil => simpa using hmap.symm
  | cons c log ih =>
    cases xs with
    | nil => simp at hmap
    | cons x xs =>
      simp only [map_cons, cons.injEq] at hmap
      rw [map_cons, hlabel x c hmap.1, ih xs hmap.2]

end

end RustyTorrent.Fallback
