import SourceMarkers.Text.Literal

/-! # Nesting of parentheses

The parentheses outside literals nest. A nesting is a reading of literals
together with the number of parentheses that are open. A walk over glyphs stops
at the parenthesis that closes the outermost one, or at a comma outside all
parentheses.
-/

namespace SourceMarkers

/-- A reading of literals and the number of open parentheses. -/
structure Nesting where
  reading : Reading := .start
  depth : Nat := 0
deriving DecidableEq, Repr

namespace Nesting

def start : Nesting := {}

/-- The number of open parentheses after a glyph. A parenthesis that closes nothing is ignored. -/
def depthAfter (n : Nesting) (g : Glyph) : Nat :=
  if n.reading.outside then
    match g with
    | .opening => n.depth + 1
    | .closing => n.depth - 1
    | _ => n.depth
  else n.depth

def step (n : Nesting) (g : Glyph) : Nesting where
  reading := n.reading.step g
  depth := n.depthAfter g

def run (n : Nesting) (gs : List Glyph) : Nesting := gs.foldl step n

/-- The glyph is a parenthesis that leaves none open. -/
def closes (n : Nesting) (g : Glyph) : Bool :=
  n.reading.outside && g = .closing && n.depth ≤ 1

/-- The glyph is a comma outside all parentheses and literals. -/
def separates (n : Nesting) (g : Glyph) : Bool :=
  n.reading.outside && g = .comma && n.depth = 0

/-- The number of glyphs before the first one at which the walk stops. -/
def walk? (stops : Nesting → Glyph → Bool) (n : Nesting) : List Glyph → Option Nat
  | [] => none
  | g :: gs => if stops n g then some 0 else (walk? stops (n.step g) gs).map (· + 1)

def closing? (gs : List Glyph) : Option Nat := walk? closes start gs

def comma? (gs : List Glyph) : Option Nat := walk? separates start gs

variable {n : Nesting} {g : Glyph} {gs hs : List Glyph}

@[simp] theorem run_nil : n.run [] = n := rfl

@[simp] theorem run_cons : n.run (g :: gs) = (n.step g).run gs := rfl

@[simp] theorem run_append : n.run (gs ++ hs) = (n.run gs).run hs := List.foldl_append

@[simp] theorem reading_run : (n.run gs).reading = n.reading.run gs := by
  induction gs generalizing n with
  | nil => rfl
  | cons g gs ih => exact ih

variable {stops : Nesting → Glyph → Bool} {k : Nat}

/-- A walk stops at `k` exactly when it can stop there and nowhere before. -/
theorem walk?_eq_some_iff :
    walk? stops n gs = some k ↔
      (∃ h : k < gs.length, stops (n.run (gs.take k)) gs[k]) ∧
        ∀ j, (h : j < gs.length) → j < k → ¬ stops (n.run (gs.take j)) gs[j] := by
  induction gs generalizing n k with
  | nil => simp [walk?]
  | cons g gs ih =>
    rw [walk?]
    split
    · next hs =>
      constructor
      · rintro ⟨⟩
        exact ⟨⟨by simp, hs⟩, fun j _ hj => absurd hj (Nat.not_lt_zero j)⟩
      · rintro ⟨-, hmin⟩
        cases k with
        | zero => rfl
        | succ k => exact absurd hs (hmin 0 (by simp) (by simp))
    · next hs =>
      rw [Option.map_eq_some_iff]
      constructor
      · rintro ⟨k, hk, rfl⟩
        obtain ⟨⟨hlt, hstop⟩, hmin⟩ := ih.mp hk
        refine ⟨⟨by simpa using hlt, by simpa using hstop⟩, fun j hj hjk => ?_⟩
        cases j with
        | zero => exact hs
        | succ j => simpa using hmin j (by simpa using hj) (by omega)
      · rintro ⟨⟨hlt, hstop⟩, hmin⟩
        cases k with
        | zero => exact absurd hstop hs
        | succ k =>
          refine ⟨k, ih.mpr ⟨⟨by simpa using hlt, by simpa using hstop⟩, fun j hj hjk => ?_⟩, rfl⟩
          exact hmin (j + 1) (Nat.succ_lt_succ hj) (Nat.succ_lt_succ hjk)

theorem lt_length_of_walk?_eq_some (h : walk? stops n gs = some k) : k < gs.length :=
  (walk?_eq_some_iff.mp h).1.1

theorem walk?_append_of_eq_some (h : walk? stops n gs = some k) :
    walk? stops n (gs ++ hs) = some k := by
  induction gs generalizing n k with
  | nil => cases h
  | cons g gs ih =>
    rw [List.cons_append, walk?]
    rw [walk?] at h
    split
    · next hs => rwa [if_pos hs] at h
    · next hs =>
      rw [if_neg hs, Option.map_eq_some_iff] at h
      obtain ⟨k, hk, rfl⟩ := h
      rw [ih hk, Option.map_some]

end Nesting

/-- The byte offset of the parenthesis that leaves none open, in a walk over the UTF-8 form of a
text from a byte offset on. -/
def Text.closingOffset? (t : Text) (offset : Nat) : Option Nat :=
  (Nesting.closing? (Glyph.ofBytes ((utf8 t).drop offset))).map (offset + ·)

end SourceMarkers
