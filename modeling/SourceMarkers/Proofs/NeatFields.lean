import Mathlib.Data.List.DropRight
import SourceMarkers.Text.Tidy

/-! # Neat fields

A tidy field neither begins nor ends with a blank, and a carriage return, line
feed or tab stands in it inside a literal only. The literals are those that a
reader of the tidy field finds: collapsing and trimming take away nothing that
opens, closes or escapes one.
-/

namespace SourceMarkers

open Glyph

def isBreak (c : Char) : Bool := c = '\r' || c = '\n' || c = '\t'

theorem isLayout_of_isBreak {c : Char} (h : isBreak c) : isLayout c := by
  simp only [isBreak, Bool.or_eq_true, decide_eq_true_eq] at h
  obtain (rfl | rfl) | rfl := h <;> decide

theorem ofChar_of_isBlank {c : Char} (h : isBlank c) : ofChar c = .plain := by
  have hn : ∀ d : Char, isBlank d = false → c ≠ d := by
    rintro d hd rfl
    exact absurd h (Bool.eq_false_iff.mp hd)
  simp only [ofChar, hn '\\' (by decide), hn '\x22' (by decide), hn '\x27' (by decide),
    hn '(' (by decide), hn ')' (by decide), hn ',' (by decide), if_false]

namespace Text

/-- No break stands outside the literals that a reading of the text finds. -/
def BreaksInside (r : Reading) (t : Text) : Prop :=
  ∀ u c v, t = u ++ c :: v → isBreak c → ¬ (r.run (ofText u)).outside

structure Neat (t : Text) : Prop where
  head_not_blank : ∀ c ∈ t.head?, ¬ isBlank c
  last_not_blank : ∀ c ∈ t.getLast?, ¬ isBlank c
  breaks_inside : BreaksInside .start t

variable {s t : Text} {c : Char} {r : Reading} {gap : Bool}

theorem breaksInside_nil : BreaksInside r [] := by
  intro u c v h
  simp at h

theorem breaksInside_cons_iff :
    BreaksInside r (c :: t) ↔
      (isBreak c → ¬ r.outside) ∧ BreaksInside (r.step (ofChar c)) t := by
  constructor
  · intro h
    refine ⟨h [] c t rfl, ?_⟩
    rintro u d v rfl
    exact h (c :: u) d v rfl
  · rintro ⟨hc, h⟩ u d v ht
    rcases List.cons_eq_append_iff.mp ht with ⟨rfl, hd⟩ | ⟨u, rfl, rfl⟩
    · cases hd
      exact hc
    · exact h u d v rfl

theorem BreaksInside.of_prefix (h : BreaksInside r t) (hs : s <+: t) : BreaksInside r s := by
  obtain ⟨w, rfl⟩ := hs
  rintro u c v rfl
  exact h u c (v ++ w) (by simp)

theorem BreaksInside.of_cons_start (h : BreaksInside .start (c :: t))
    (hc : ofChar c = .plain ∨ ofChar c = .comma) : BreaksInside .start t := by
  have hs : Reading.start.step (ofChar c) = .start := by
    rcases hc with hc | hc <;> rw [hc] <;> rfl
  rw [breaksInside_cons_iff, hs] at h
  exact h.2

theorem BreaksInside.trimStart (h : BreaksInside .start t) : BreaksInside .start (trimStart t) := by
  induction t with
  | nil => exact h
  | cons c t ih =>
    unfold Text.trimStart
    rw [List.dropWhile_cons]
    split
    · next hc => exact ih (h.of_cons_start (Or.inl (ofChar_of_isBlank hc)))
    · exact h

theorem BreaksInside.dropComma (h : BreaksInside .start t) : BreaksInside .start (dropComma t) := by
  have hs := h.trimStart
  unfold Text.dropComma
  split
  · next he =>
    rw [he] at hs
    exact (hs.of_cons_start (Or.inr (by decide))).trimStart
  · exact hs

/-- Outside literals the characters of a run of layout characters are read alike, and a run leaves
no backslash behind. So what is left is read as the text was. -/
theorem breaksInside_collapseFrom (h : gap → r.backslashes = 0) :
    BreaksInside r (collapseFrom r gap t) := by
  induction t generalizing r gap with
  | nil => exact breaksInside_nil
  | cons c t ih =>
    rw [collapseFrom]
    split
    · next hc =>
      rw [Bool.and_eq_true] at hc
      have hp : ofChar c = .plain := ofChar_of_isBlank (isBlank_of_isLayout hc.2)
      have hi : BreaksInside (r.step .plain) (collapseFrom (r.step .plain) true t) :=
        ih fun _ => rfl
      rw [hp]
      split
      · next hg =>
        -- Within a gap nothing is written, and the reading stays where it is.
        have hr : r.step .plain = r := by
          obtain ⟨q, b⟩ := r
          cases h hg
          rfl
        rwa [hr] at hi ⊢
      · exact breaksInside_cons_iff.mpr ⟨fun hb => absurd hb (by decide), hi⟩
    · next hc =>
      rw [Bool.and_eq_true, not_and] at hc
      refine breaksInside_cons_iff.mpr ⟨fun hb ho => hc ho (isLayout_of_isBreak hb), ?_⟩
      exact ih fun hg => absurd hg Bool.false_ne_true

theorem breaksInside_collapse : BreaksInside .start (collapse t) :=
  breaksInside_collapseFrom fun _ => rfl

theorem trimEnd_prefix_self : trimEnd t <+: t := List.rdropWhile_prefix isBlank t

theorem neat_trim (h : BreaksInside .start t) : Neat (trim t) where
  head_not_blank := by
    intro c hc
    obtain ⟨w, hw⟩ := trimEnd_prefix_self (t := trimStart t)
    have hs : (t.dropWhile isBlank).head? = some c := by
      rw [← trimStart, ← hw, List.head?_append]
      exact Option.or_eq_some_iff.mpr (Or.inl hc)
    have hn := List.head?_dropWhile_not isBlank t
    rw [hs] at hn
    exact Bool.eq_false_iff.mp hn
  last_not_blank := by
    intro c hc
    obtain ⟨hn, rfl⟩ := List.mem_getLast?_eq_getLast hc
    exact List.rdropWhile_last_not isBlank (trimStart t) hn
  breaks_inside := h.trimStart.of_prefix trimEnd_prefix_self

theorem neat_tidy (raw : Text) : Neat (tidy raw) := neat_trim breaksInside_collapse

theorem neat_tidyParams (raw : Text) : Neat (tidyParams raw) :=
  neat_trim breaksInside_collapse.dropComma

theorem mem_splice (h : c ∈ splice t) : c ∈ t := by
  fun_induction splice t with
  | case1 t ih | case2 t ih => simp [ih h]
  | case3 d t _ _ ih =>
    rcases List.mem_cons.mp h with rfl | h
    · exact List.mem_cons_self
    · exact List.mem_cons_of_mem d (ih h)
  | case4 => exact h

theorem mem_collapseFrom (h : c ∈ collapseFrom r gap t) : c ∈ t ∨ c = ' ' := by
  induction t generalizing r gap with
  | nil => exact Or.inl h
  | cons d t ih =>
    rw [collapseFrom] at h
    split at h
    · split at h
      · exact (ih h).imp_left (List.mem_cons_of_mem d)
      · rcases List.mem_cons.mp h with rfl | h
        · exact Or.inr rfl
        · exact (ih h).imp_left (List.mem_cons_of_mem d)
    · rcases List.mem_cons.mp h with rfl | h
      · exact Or.inl List.mem_cons_self
      · exact (ih h).imp_left (List.mem_cons_of_mem d)

theorem mem_of_mem_trim (h : c ∈ trim t) : c ∈ t :=
  (List.dropWhile_suffix isBlank).subset (trimEnd_prefix_self.subset h)

theorem mem_of_mem_tidy {raw : Text} (h : c ∈ tidy raw) : c ∈ raw ∨ c = ' ' :=
  (mem_collapseFrom (mem_of_mem_trim h)).imp_left mem_splice

end Text

end SourceMarkers
