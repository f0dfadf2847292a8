import SourceMarkers.Proofs.Balance

/-! # Counting parentheses

Balanced words of parentheses are given by a grammar. A walk that counts the
open parentheses stops at the first place up to which the parentheses outside
literals form a balanced word.
-/

namespace SourceMarkers

inductive Parenthesis where
  | opening
  | closing
deriving DecidableEq, Repr

namespace Parenthesis

/-- Each parenthesis that is opened is closed behind it, and no other one is closed. -/
inductive Matched : List Parenthesis → Prop where

  | nil : Matched []

  | enclosed {u v : List Parenthesis} : Matched u → Matched v →
      Matched (.opening :: (u ++ .closing :: v))

/-- The word is balanced but for closing a number of parentheses that are open before it. -/
def ClosesAll : Nat → List Parenthesis → Prop
  | 0, w => Matched w
  | n + 1, w => ∃ u v, w = u ++ .closing :: v ∧ Matched u ∧ ClosesAll n v

def through (ps : List (Option Parenthesis)) (k : Nat) : List Parenthesis :=
  (ps.take (k + 1)).filterMap id

/-- The place holds a closing parenthesis, and it is the first place up to which the parentheses
have the property. -/
structure FirstClosing (P : List Parenthesis → Prop) (ps : List (Option Parenthesis))
    (k : Nat) : Prop where
  closing : ps[k]? = some (some .closing)
  holds : P (through ps k)
  first : ∀ j < k, ¬ P (through ps j)

variable {P : List Parenthesis → Prop} {w : List Parenthesis} {ps : List (Option Parenthesis)}
  {x : Option Parenthesis} {n m k j : Nat}

theorem not_matched_closing_cons : ¬ Matched (.closing :: w) := nofun

theorem matched_opening_cons : Matched (.opening :: w) ↔ ClosesAll 1 w := by
  constructor
  · intro h
    cases h with
    | enclosed hu hv => exact ⟨_, _, rfl, hu, hv⟩
  · rintro ⟨u, v, rfl, hu, hv⟩
    exact .enclosed hu hv

theorem closesAll_opening_cons : ClosesAll n (.opening :: w) ↔ ClosesAll (n + 1) w := by
  cases n with
  | zero => exact matched_opening_cons
  | succ n =>
    constructor
    · rintro ⟨u, v, he, hu, hv⟩
      rcases List.cons_eq_append_iff.mp he with ⟨-, he⟩ | ⟨u, rfl, rfl⟩
      · cases he
      · obtain ⟨a, b, rfl, ha, hb⟩ := matched_opening_cons.mp hu
        exact ⟨a, b ++ .closing :: v, by simp, ha, b, v, rfl, hb, hv⟩
    · rintro ⟨a, x, rfl, ha, b, v, rfl, hb, hv⟩
      exact ⟨.opening :: (a ++ .closing :: b), v, by simp, .enclosed ha hb, hv⟩

theorem closesAll_closing_cons : ClosesAll (n + 1) (.closing :: w) ↔ ClosesAll n w := by
  constructor
  · rintro ⟨u, v, he, hu, hv⟩
    rcases List.cons_eq_append_iff.mp he with ⟨-, he⟩ | ⟨u, rfl, -⟩
    · cases he
      exact hv
    · exact absurd hu not_matched_closing_cons
  · intro h
    exact ⟨[], w, rfl, .nil, h⟩

theorem closesAll_nil_iff : ClosesAll n [] ↔ n = 0 := by
  cases n with
  | zero => exact iff_of_true .nil rfl
  | succ n =>
    refine iff_of_false ?_ (Nat.succ_ne_zero n)
    rintro ⟨u, v, he, -⟩
    simp at he

theorem through_cons_zero : through (x :: ps) 0 = x.toList := by
  cases x <;> rfl

theorem through_cons_succ : through (x :: ps) (k + 1) = x.toList ++ through ps k := by
  cases x <;> rfl

theorem FirstClosing.unique (h : FirstClosing P ps k) (h' : FirstClosing P ps j) : k = j := by
  rcases Nat.lt_trichotomy k j with hlt | he | hlt
  · exact absurd h.holds (h'.first k hlt)
  · exact he
  · exact absurd h'.holds (h.first j hlt)

section Step

/-! What stands at the first place takes `n` open parentheses to `m`, and some are left open. -/

variable (hx : ∀ w, ClosesAll n (x.toList ++ w) ↔ ClosesAll m w) (hm : m ≠ 0)
include hx hm

theorem not_closesAll_through_zero : ¬ ClosesAll n (through (x :: ps) 0) := by
  rwa [through_cons_zero, ← List.append_nil x.toList, hx, closesAll_nil_iff]

theorem firstClosing_cons_succ :
    FirstClosing (ClosesAll n) (x :: ps) (k + 1) ↔ FirstClosing (ClosesAll m) ps k := by
  constructor
  · rintro ⟨hk, hc, hf⟩
    rw [through_cons_succ, hx] at hc
    refine ⟨hk, hc, fun j hj => ?_⟩
    rw [← hx, ← through_cons_succ]
    exact hf (j + 1) (Nat.succ_lt_succ hj)
  · rintro ⟨hk, hc, hf⟩
    refine ⟨hk, by rwa [through_cons_succ, hx], fun j hj => ?_⟩
    cases j with
    | zero => exact not_closesAll_through_zero hx hm
    | succ j =>
      rw [through_cons_succ, hx]
      exact hf j (Nat.lt_of_succ_lt_succ hj)

end Step

end Parenthesis

open Parenthesis

def Glyph.parenthesis? : Glyph → Option Parenthesis
  | .opening => some .opening
  | .closing => some .closing
  | _ => none

def Reading.active? (r : Reading) (g : Glyph) : Option Parenthesis :=
  if r.outside then g.parenthesis? else none

/-- The parentheses that are read outside literals, each at its place. -/
def Reading.active (r : Reading) : List Glyph → List (Option Parenthesis)
  | [] => []
  | g :: gs => r.active? g :: (r.step g).active gs

theorem Reading.active_append {r : Reading} {gs hs : List Glyph} :
    r.active (gs ++ hs) = r.active gs ++ (r.run gs).active hs := by
  induction gs generalizing r with
  | nil => rfl
  | cons g gs ih => exact congrArg _ ih

namespace Nesting

variable {n : Nesting} {g : Glyph} {gs : List Glyph} {k : Nat}

theorem closesAll_step (h : ¬ n.meets .closing g) (w : List Parenthesis) :
    ClosesAll n.depth ((n.reading.active? g).toList ++ w) ↔ ClosesAll (n.step g).depth w := by
  have hd : (n.step g).depth = n.depthAfter g := rfl
  rw [hd]
  unfold depthAfter Reading.active?
  by_cases ho : n.reading.outside
  · rw [if_pos ho, if_pos ho]
    cases g with
    | opening => exact closesAll_opening_cons
    | closing =>
      have hn : n.depth ≠ 0 := by simpa [meets, atRest, ho] using h
      obtain ⟨m, hm⟩ := Nat.exists_eq_succ_of_ne_zero hn
      rw [hm]
      exact closesAll_closing_cons
    | _ => exact Iff.rfl
  · rw [if_neg ho, if_neg ho]
    exact Iff.rfl

theorem depth_step_ne_zero (hn : n.depth ≠ 0) (h : ¬ n.closes g) : (n.step g).depth ≠ 0 := by
  have hd : (n.step g).depth = n.depthAfter g := rfl
  rw [hd]
  unfold depthAfter
  by_cases ho : n.reading.outside
  · rw [if_pos ho]
    cases g with
    | opening => exact Nat.succ_ne_zero _
    | closing =>
      have hle : ¬ n.depth ≤ 1 := by simpa [closes, ho] using h
      simp only
      omega
    | _ => exact hn
  · rwa [if_neg ho]

theorem firstClosing_of_closes (hn : n.depth ≠ 0) (h : n.closes g) :
    FirstClosing (ClosesAll n.depth) (n.reading.active (g :: gs)) 0 := by
  simp only [closes, Bool.and_eq_true, decide_eq_true_eq] at h
  obtain ⟨⟨ho, rfl⟩, hle⟩ := h
  have hd : n.depth = 1 := by omega
  have ha : n.reading.active? .closing = some .closing := if_pos ho
  rw [Reading.active, ha]
  refine ⟨rfl, ?_, fun j hj => absurd hj (Nat.not_lt_zero j)⟩
  rw [through_cons_zero, hd]
  exact closesAll_closing_cons.mpr .nil

/-- A walk that begins with open parentheses stops where the last of them is closed. -/
theorem walk?_closes_eq_some_iff (hn : n.depth ≠ 0) :
    walk? closes n gs = some k ↔
      FirstClosing (ClosesAll n.depth) (n.reading.active gs) k := by
  induction gs generalizing n k with
  | nil => exact iff_of_false nofun fun h => nomatch h.closing
  | cons g gs ih =>
    by_cases hg : n.closes g
    · have hc := @firstClosing_of_closes n g gs hn hg
      rw [walk?_cons_of_stops hg]
      constructor
      · rintro ⟨⟩
        exact hc
      · intro h
        rw [hc.unique h]
    · have hw := closesAll_step (n := n) (g := g) (by simp [meets, atRest, hn])
      have hs := depth_step_ne_zero hn hg
      rw [walk?_cons_of_not_stops hg, Reading.active]
      cases k with
      | zero => exact iff_of_false (by simp) fun h => not_closesAll_through_zero hw hs h.holds
      | succ k =>
        rw [firstClosing_cons_succ hw hs]
        exact Iff.trans (by simp) (ih hs)

theorem closing?_eq_some_iff :
    closing? (.opening :: gs) = some k ↔
      FirstClosing Matched (Reading.start.active (.opening :: gs)) k := by
  have hw := closesAll_step (n := start) (g := .opening) (by decide)
  have hs : (start.step .opening).depth ≠ 0 := by decide
  rw [closing?, walk?_cons_of_not_stops (by decide)]
  cases k with
  | zero => exact iff_of_false (by simp) fun h => not_closesAll_through_zero hw hs h.holds
  | succ k =>
    calc
      (walk? closes (start.step .opening) gs).map (· + 1) = some (k + 1) ↔
          walk? closes (start.step .opening) gs = some k := by simp
      _ ↔ FirstClosing (ClosesAll 1) ((start.step .opening).reading.active gs) k :=
        walk?_closes_eq_some_iff hs
      _ ↔ FirstClosing (ClosesAll 0) (Reading.start.active (.opening :: gs)) (k + 1) :=
        (firstClosing_cons_succ hw hs).symm

end Nesting

end SourceMarkers
