import SourceMarkers.Kind
import SourceMarkers.Nesting

/-! # Fields of a marker

The body of a marker is what its parentheses enclose. Commas outside inner
parentheses and literals separate its first fields. The last of them ends at
the first slash after the last of these commas, wherever that slash stands. The
parameters are what follows the slash, without the last character of the body,
which should be the slash that closes the parameter list.
-/

namespace SourceMarkers

/-- The fields of a marker as they are written. -/
structure Fields where
  /-- The class or namespace. -/
  owner : Text
  /-- The object that receives a call. -/
  receiver : Option Text
  /-- The method or function. -/
  name : Text
  /-- The parameter list. -/
  params : Text
deriving DecidableEq, Repr

namespace Fields

/-- The parts of a text before and after its first comma outside parentheses and literals. -/
def cutComma? (t : Text) : Option (Text × Text) :=
  (Nesting.comma? (Glyph.ofText t)).map fun k => (t.take k, t.drop (k + 1))

def cutSlash? : Text → Option (Text × Text)
  | [] => none
  | c :: t => if c = '/' then some ([], t) else (cutSlash? t).map fun (a, b) => (c :: a, b)

def finish? (owner : Text) (receiver : Option Text) (rest : Text) : Option Fields :=
  (cutSlash? rest).map fun (name, params) => ⟨owner, receiver, name, params.dropLast⟩

/-- The fields of a body, if it has enough commas and a slash. -/
def ofBody? (kind : Kind) (body : Text) : Option Fields := do
  let (owner, rest) ← cutComma? body
  if kind.hasReceiver then
    let (receiver, rest) ← cutComma? rest
    finish? owner (some receiver) rest
  else
    finish? owner none rest

def leading (f : Fields) : List Text := f.owner :: f.receiver.toList ++ [f.name]

theorem eq_of_cutComma? {t a b : Text} (h : cutComma? t = some (a, b)) : t = a ++ ',' :: b := by
  obtain ⟨k, hk, heq⟩ := Option.map_eq_some_iff.mp h
  obtain ⟨⟨hlt, hstop⟩, -⟩ := Nesting.walk?_eq_some_iff.mp hk
  obtain ⟨rfl, rfl⟩ := Prod.mk.injEq .. ▸ heq
  have hlt : k < t.length := by simpa [Glyph.ofText] using hlt
  have hc : t[k] = ',' := by
    simp only [Nesting.separates, Glyph.ofText, List.getElem_map, Bool.and_eq_true,
      decide_eq_true_eq] at hstop
    have h := hstop.1.2
    unfold Glyph.ofChar at h
    grind
  rw [← hc, List.getElem_cons_drop, List.take_append_drop]

theorem eq_of_cutSlash? {t a b : Text} (h : cutSlash? t = some (a, b)) :
    t = a ++ '/' :: b ∧ '/' ∉ a := by
  induction t generalizing a with
  | nil => cases h
  | cons c t ih =>
    rw [cutSlash?] at h
    split at h
    · next hc => cases h; simp [hc]
    · next hc =>
      obtain ⟨⟨a, b⟩, hab, heq⟩ := Option.map_eq_some_iff.mp h
      cases heq
      obtain ⟨rfl, ha⟩ := ih hab
      exact ⟨rfl, by simp [ha, Ne.symm hc]⟩

end Fields

end SourceMarkers
