import SourceMarkers.Nesting

/-! # Balanced texts

A walk for a comma stops where the text before the comma has come to rest, with
all its parentheses and literals closed. A walk for the parenthesis that closes
the first one does the same: seen from inside that parenthesis, it looks for one
that closes nothing. What stands before that is a balanced text.
-/

namespace SourceMarkers

namespace Nesting

/-- Nothing is open, neither a parenthesis nor a literal. -/
def atRest (n : Nesting) : Bool := n.reading.outside && n.depth = 0

def meets (d : Glyph) (n : Nesting) (g : Glyph) : Bool := n.atRest && g = d

def raise (n : Nesting) : Nesting := { n with depth := n.depth + 1 }

variable {stops : Nesting → Glyph → Bool} {n : Nesting} {d g : Glyph} {gs hs : List Glyph} {k : Nat}

@[simp] theorem walk?_nil : walk? stops n [] = none := rfl

theorem walk?_cons_of_stops (h : stops n g) : walk? stops n (g :: gs) = some 0 := if_pos h

theorem walk?_cons_of_not_stops (h : ¬ stops n g) :
    walk? stops n (g :: gs) = (walk? stops (n.step g) gs).map (· + 1) := if_neg h

theorem walk?_cons_eq_none :
    walk? stops n (g :: gs) = none ↔ ¬ stops n g ∧ walk? stops (n.step g) gs = none := by
  by_cases h : stops n g
  · simp [walk?_cons_of_stops h, h]
  · simp [walk?_cons_of_not_stops h, h]

theorem walk?_append_of_eq_none (h : walk? stops n gs = none) :
    walk? stops n (gs ++ hs) = (walk? stops (n.run gs) hs).map (gs.length + ·) := by
  induction gs generalizing n with
  | nil => simp
  | cons g gs ih =>
    obtain ⟨hg, h⟩ := walk?_cons_eq_none.mp h
    rw [List.cons_append, walk?_cons_of_not_stops hg, ih h, run_cons, Option.map_map]
    congr 1
    funext k
    simp only [Function.comp_apply, List.length_cons]
    omega

theorem walk?_append_eq_none :
    walk? stops n (gs ++ hs) = none ↔
      walk? stops n gs = none ∧ walk? stops (n.run gs) hs = none := by
  constructor
  · intro h
    have hg : walk? stops n gs = none := by
      cases hk : walk? stops n gs with
      | none => rfl
      | some k => rw [walk?_append_of_eq_some hk] at h; cases h
    rw [walk?_append_of_eq_none hg, Option.map_eq_none_iff] at h
    exact ⟨hg, h⟩
  · rintro ⟨hg, h⟩
    rw [walk?_append_of_eq_none hg, h, Option.map_none]

theorem walk?_take_eq_none (h : walk? stops n gs = some k) : walk? stops n (gs.take k) = none := by
  cases hj : walk? stops n (gs.take k) with
  | none => rfl
  | some j =>
    have hlt := lt_length_of_walk?_eq_some hj
    have he : walk? stops n (gs.take k ++ gs.drop k) = some j := walk?_append_of_eq_some hj
    rw [List.take_append_drop, h] at he
    cases he
    rw [List.length_take] at hlt
    omega

theorem closes_raise : n.raise.closes g = n.meets .closing g := by
  simp only [closes, meets, atRest, raise]
  cases n.reading.outside <;> simp [Bool.and_comm]

theorem step_raise (h : ¬ n.meets .closing g) : n.raise.step g = (n.step g).raise := by
  have hd : n.raise.depthAfter g = n.depthAfter g + 1 := by
    unfold depthAfter raise
    split
    · next ho =>
      cases g with
      | closing =>
        have : n.depth ≠ 0 := by simpa [meets, atRest, ho] using h
        simp only
        omega
      | _ => rfl
    · rfl
  simp only [step, raise] at hd ⊢
  rw [hd]

/-- From inside a parenthesis, the one that leaves none open closes nothing opened since. -/
theorem walk?_closes_raise : walk? closes n.raise gs = walk? (meets .closing) n gs := by
  induction gs generalizing n with
  | nil => rfl
  | cons g gs ih =>
    by_cases h : n.meets .closing g
    · rw [walk?_cons_of_stops h, walk?_cons_of_stops (by rwa [closes_raise])]
    · rw [walk?_cons_of_not_stops h, walk?_cons_of_not_stops (by rwa [closes_raise]),
        step_raise h, ih]

theorem closing?_opening_cons :
    closing? (.opening :: gs) = (walk? (meets .closing) start gs).map (· + 1) := by
  have hs : start.step .opening = start.raise := rfl
  rw [closing?, walk?_cons_of_not_stops (by decide), hs, walk?_closes_raise]

theorem step_of_atRest (h : n.atRest) (hg : g = .comma ∨ g = .plain) : n.step g = start := by
  obtain ⟨⟨q, b⟩, d⟩ := n
  simp only [atRest, Reading.outside, Bool.and_eq_true, Option.isNone_iff_eq_none,
    decide_eq_true_eq] at h
  obtain ⟨rfl, rfl⟩ := h
  rcases hg with rfl | rfl <;> rfl

theorem separates_eq : separates = meets .comma := by
  funext n g
  simp only [separates, meets, atRest]
  cases n.reading.outside <;> simp [Bool.and_comm]

theorem comma?_eq : comma? gs = walk? (meets .comma) start gs := by
  rw [comma?, separates_eq]

end Nesting

namespace Text

open Nesting

/-- The text comes to rest at its end, and before it does not meet the glyph at rest. -/
structure FreeOf (d : Glyph) (t : Text) : Prop where
  walk_eq_none : walk? (meets d) start (Glyph.ofText t) = none
  atRest_run : (start.run (Glyph.ofText t)).atRest

/-- The text closes the parentheses and literals that it opens, and no others. -/
abbrev Balanced (t : Text) : Prop := t.FreeOf .closing

instance (d : Glyph) (t : Text) : Decidable (t.FreeOf d) :=
  decidable_of_iff (walk? (meets d) start (Glyph.ofText t) = none ∧
    (start.run (Glyph.ofText t)).atRest) ⟨fun h => ⟨h.1, h.2⟩, fun h => ⟨h.1, h.2⟩⟩

variable {s t : Text} {c : Char} {d : Glyph}

theorem freeOf_nil : FreeOf d [] := ⟨rfl, rfl⟩

theorem FreeOf.append_cons (h : s.FreeOf d) (hd : Glyph.ofChar c ≠ d)
    (hc : Glyph.ofChar c = .comma ∨ Glyph.ofChar c = .plain) (ht : t.FreeOf d) :
    FreeOf d (s ++ c :: t) := by
  constructor
  · rw [Glyph.ofText_append, walk?_append_eq_none, Glyph.ofText_cons, walk?_cons_eq_none,
      step_of_atRest h.atRest_run hc]
    exact ⟨h.walk_eq_none, by simp [meets, hd], ht.walk_eq_none⟩
  · rw [Glyph.ofText_append, run_append, Glyph.ofText_cons, run_cons,
      step_of_atRest h.atRest_run hc]
    exact ht.atRest_run

theorem walk?_meets_eq_some_iff {k : Nat} (hc : ∀ e, Glyph.ofChar e = d ↔ e = c) :
    walk? (meets d) start (Glyph.ofText t) = some k ↔
      ∃ u v, t = u ++ c :: v ∧ u.length = k ∧ u.FreeOf d := by
  constructor
  · intro h
    obtain ⟨⟨hlt, hstop⟩, -⟩ := walk?_eq_some_iff.mp h
    simp only [meets, Glyph.ofText, List.getElem_map, Bool.and_eq_true, decide_eq_true_eq,
      hc] at hstop
    rw [Glyph.length_ofText] at hlt
    refine ⟨t.take k, t.drop (k + 1), ?_, by simp; omega, ?_, ?_⟩
    · rw [← hstop.2, List.getElem_cons_drop, List.take_append_drop]
    · rw [Glyph.ofText_take]
      exact walk?_take_eq_none h
    · rw [Glyph.ofText_take]
      exact hstop.1
  · rintro ⟨u, v, rfl, rfl, hu⟩
    have hs : meets d (start.run (Glyph.ofText u)) (Glyph.ofChar c) := by
      rw [meets, hu.atRest_run, (hc c).mpr rfl]
      simp
    rw [Glyph.ofText_append, walk?_append_of_eq_none hu.walk_eq_none, Glyph.ofText_cons,
      walk?_cons_of_stops hs, Option.map_some, Glyph.length_ofText, Nat.add_zero]

theorem map_walk?_meets_eq_some_iff {u v : Text} (hc : ∀ e, Glyph.ofChar e = d ↔ e = c) :
    ((walk? (meets d) start (Glyph.ofText t)).map fun k => (t.take k, t.drop (k + 1))) =
      some (u, v) ↔ t = u ++ c :: v ∧ u.FreeOf d := by
  rw [Option.map_eq_some_iff]
  constructor
  · rintro ⟨k, hk, hp⟩
    obtain ⟨u, v, rfl, rfl, hu⟩ := (walk?_meets_eq_some_iff hc).mp hk
    simp only [List.take_left, List.drop_append, Prod.mk.injEq] at hp
    obtain ⟨rfl, rfl⟩ := hp
    simp [hu]
  · rintro ⟨rfl, hu⟩
    refine ⟨u.length, (walk?_meets_eq_some_iff hc).mpr ⟨u, v, rfl, rfl, hu⟩, ?_⟩
    simp

end Text

end SourceMarkers
