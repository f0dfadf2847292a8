import SourceMarkers.Text.Blank
import SourceMarkers.Text.Continuation
import SourceMarkers.Text.Literal

/-! # Tidy fields

A field of a marker is tidied before it is shown. Line continuations are
removed, each run of layout characters outside literals becomes one space, and
the blanks at both ends are dropped. Literals are kept as they are written, and
one that is never closed runs to the end of the field. A parameter list loses
one comma at its beginning as well.
-/

namespace SourceMarkers.Text

/-- Replaces each run of layout characters outside literals by one space. The flag tells whether
such a run is being read. -/
def collapseFrom (r : Reading) (gap : Bool) : Text → Text
  | [] => []
  | c :: t =>
    if r.outside && isLayout c then
      if gap then collapseFrom (r.step (.ofChar c)) true t
      else ' ' :: collapseFrom (r.step (.ofChar c)) true t
    else c :: collapseFrom (r.step (.ofChar c)) false t

def collapse (t : Text) : Text := collapseFrom .start false t

/-- A text without the blanks at its beginning and without one comma, and the blanks around it,
that follows them. -/
def dropComma (t : Text) : Text :=
  match trimStart t with
  | ',' :: rest => trimStart rest
  | rest => rest

def tidy (raw : Text) : Text := trim (collapse (splice raw))

def tidyParams (raw : Text) : Text := trim (dropComma (collapse (splice raw)))

variable {r : Reading} {gap : Bool} {s t : Text} {c : Char}

theorem dropComma_of_comma (h : trimStart t = ',' :: s) : dropComma t = trimStart s := by
  unfold dropComma
  rw [h]
  rfl

theorem dropComma_of_ne (h : ∀ s, trimStart t ≠ ',' :: s) : dropComma t = trimStart t := by
  unfold dropComma
  split
  · next he => exact absurd he (h _)
  · rfl

/-- A gap before the text is a gap at its beginning. -/
theorem trim_collapseFrom_gap : trim (collapseFrom r true t) = trim (collapseFrom r false t) := by
  cases t with
  | nil => rfl
  | cons c t =>
    rw [collapseFrom, collapseFrom]
    split
    · exact (trim_cons_of_isBlank (by decide)).symm
    · rfl

/-- The text before a place is collapsed for itself, and literals are read on from there. -/
theorem exists_collapseFrom_append :
    ∃ gap', collapseFrom r gap (s ++ t) =
      collapseFrom r gap s ++ collapseFrom (r.run (Glyph.ofText s)) gap' t := by
  induction s generalizing r gap with
  | nil => exact ⟨gap, rfl⟩
  | cons c s ih =>
    rw [List.cons_append, collapseFrom, collapseFrom]
    split
    · obtain ⟨gap', h⟩ := @ih (r.step (.ofChar c)) true
      refine ⟨gap', ?_⟩
      split
      · exact h
      · rw [h]
        rfl
    · obtain ⟨gap', h⟩ := @ih (r.step (.ofChar c)) false
      refine ⟨gap', ?_⟩
      rw [h]
      rfl

/-- A layout character behind the text stays, becomes a space or is lost in a gap. -/
theorem collapse_concat_of_isLayout (h : isLayout c) :
    collapse (t ++ [c]) = collapse t ∨
      ∃ b, isBlank b ∧ collapse (t ++ [c]) = collapse t ++ [b] := by
  obtain ⟨gap, hg⟩ := @exists_collapseFrom_append .start false t [c]
  unfold collapse
  rw [hg, collapseFrom]
  split
  · split
    · exact Or.inl (List.append_nil _)
    · exact Or.inr ⟨' ', by decide, rfl⟩
  · exact Or.inr ⟨c, isBlank_of_isLayout h, rfl⟩

@[simp] theorem tidy_nil : tidy [] = [] := rfl

theorem tidy_cons_space : tidy (' ' :: t) = tidy t := by
  have hs : splice (' ' :: t) = ' ' :: splice t := splice_cons_of_ne (by decide) t
  have hc : collapse (' ' :: splice t) = ' ' :: collapseFrom .start true (splice t) := rfl
  rw [tidy, hs, hc, trim_cons_of_isBlank (by decide), trim_collapseFrom_gap]
  rfl

/-- A layout character behind a field is not part of it, unless it may end a continuation. -/
theorem tidy_concat_of_isLayout (h : isLayout c) (hn : c ≠ '\n') : tidy (t ++ [c]) = tidy t := by
  rw [tidy, tidy, splice_concat hn]
  rcases collapse_concat_of_isLayout (t := splice t) h with hc | ⟨b, hb, hc⟩
  · rw [hc]
  · rw [hc, trim_concat_of_isBlank hb]

theorem tidy_concat_space : tidy (t ++ [' ']) = tidy t :=
  tidy_concat_of_isLayout rfl (by decide)

@[simp] theorem tidyParams_nil : tidyParams [] = [] := rfl

end SourceMarkers.Text
