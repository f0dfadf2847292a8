import SourceMarkers.Kind
import SourceMarkers.Nesting

/-! # Segments of a source

A source is cut into markers and what lies between them. A marker extends from
its keyword to the parenthesis that closes its first one; another keyword
inside it starts nothing. A keyword whose parenthesis is never closed is a
segment of its own, and what follows it may hold markers again. The segments,
put together, are the source.
-/

namespace SourceMarkers

inductive Segment where
  /-- A character outside markers. -/
  | plain (c : Char)
  /-- The keyword of a marker whose parenthesis is never closed. -/
  | unclosed (kind : Kind)
  /-- A marker and what its parentheses enclose. -/
  | marked (kind : Kind) (body : Text)
deriving DecidableEq, Repr

namespace Segment

def source : Segment → Text
  | plain c => [c]
  | unclosed kind => kind.keyword
  | marked kind body => kind.opener ++ body ++ [')']

/-- The parts of a text inside and after the parentheses that its first character opens. -/
def enclosed? (t : Text) : Option (Text × Text) :=
  (Nesting.closing? (Glyph.ofText t)).map fun k => ((t.take k).tail, t.drop (k + 1))

theorem length_of_enclosed? {t body rest : Text} (h : enclosed? t = some (body, rest)) :
    rest.length < t.length := by
  obtain ⟨k, hk, heq⟩ := Option.map_eq_some_iff.mp h
  obtain ⟨-, rfl⟩ := Prod.mk.injEq .. ▸ heq
  have := Nesting.lt_length_of_walk?_eq_some hk
  simp only [Glyph.ofText, List.length_map] at this
  simp only [List.length_drop]
  omega

def ofText (t : Text) : List Segment :=
  match t with
  | [] => []
  | c :: rest =>
    match Kind.opening? (c :: rest) with
    | none => plain c :: ofText rest
    | some kind =>
      match h : enclosed? ((c :: rest).drop kind.keyword.length) with
      | none => unclosed kind :: ofText ((c :: rest).drop kind.keyword.length)
      | some (body, after) =>
        have := length_of_enclosed? h
        marked kind body :: ofText after
termination_by t.length
decreasing_by
  · simp
  · have := List.length_pos_iff.mpr kind.keyword_ne_nil
    simp only [List.length_drop, List.length_cons]
    omega
  · simp only [List.length_drop, List.length_cons] at this ⊢
    omega

end Segment

end SourceMarkers
