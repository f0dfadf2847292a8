import SourceMarkers.Text.Basic

/-! # Glob patterns

In a pattern, `?` stands for any character, `*` for any characters, a class in
brackets for one of its characters, and a class that begins with `!` for any
other character. `**` stands for any number of directories; it has to fill the
whole space between two slashes.
-/

namespace SourceMarkers.Glob

/-- A member of a class: the characters from `first` to `last`. -/
structure Range where
  first : Char
  last : Char
deriving DecidableEq, Repr

def Range.holds (r : Range) (c : Char) : Bool :=
  r.first.toNat ≤ c.toNat && c.toNat ≤ r.last.toNat

inductive Token where
  | exactly (c : Char)
  | anyChar
  | anyChars
  /-- Any number of directories. -/
  | anyDepth
  | oneOf (ranges : List Range)
  | noneOf (ranges : List Range)
deriving DecidableEq, Repr

inductive Fault where
  /-- A class is not closed. -/
  | badClass
  /-- More than two stars stand together. -/
  | manyStars
  /-- Two stars stand together beside something else than a slash. -/
  | stuckStars
deriving DecidableEq, Repr

/-- A fault and the number of characters before the place where it was noticed. -/
structure PatternError where
  position : Nat
  fault : Fault
deriving DecidableEq, Repr

def Fault.message : Fault → Text
  | badClass => "invalid range pattern".toList
  | manyStars => "wildcards are either regular `*` or recursive `**`".toList
  | stuckStars => "recursive wildcards must form a single path component".toList

def PatternError.message (e : PatternError) : Text :=
  "Pattern syntax error near position ".toList ++ Text.decimal e.position ++ ": ".toList ++
    e.fault.message

/-- The ranges of a class. A dash between two characters makes a range of them. -/
def ranges : Text → List Range
  | a :: '-' :: b :: rest => ⟨a, b⟩ :: ranges rest
  | a :: rest => ⟨a, a⟩ :: ranges rest
  | [] => []

/-- The inside of a class and what follows its closing bracket, for the text after the opening
bracket and its mark. The first character of a class does not close it. -/
def classBody? : Text → Option (Text × Text)
  | [] => none
  | c :: rest =>
    if ']' ∈ rest then
      some (c :: rest.takeWhile (· ≠ ']'), (rest.dropWhile (· ≠ ']')).tail)
    else none

/-- The token that a class stands for and what follows it, for the text after the opening
bracket. -/
def class? : Text → Option (Token × Text)
  | '!' :: rest => (classBody? rest).map fun (body, after) => (.noneOf (ranges body), after)
  | rest => (classBody? rest).map fun (body, after) => (.oneOf (ranges body), after)

theorem length_of_classBody? {t body after : Text} (h : classBody? t = some (body, after)) :
    after.length < t.length := by
  cases t with
  | nil => cases h
  | cons c rest =>
    simp only [classBody?] at h
    split at h
    · obtain ⟨-, rfl⟩ := Prod.mk.injEq .. ▸ Option.some.inj h
      have := (List.dropWhile_sublist (l := rest) (· ≠ ']')).length_le
      simp only [List.length_tail, List.length_cons]
      omega
    · cases h

theorem length_of_class? {t after : Text} {token : Token} (h : class? t = some (token, after)) :
    after.length < t.length := by
  unfold class? at h
  split at h <;> obtain ⟨⟨body, rest⟩, hbody, heq⟩ := Option.map_eq_some_iff.mp h <;>
    cases heq <;> have := length_of_classBody? hbody
  · simp only [List.length_cons]; omega
  · exact this

/-- The tokens of a pattern whose remaining text begins at a position. The flag tells whether a
component begins there. -/
def tokensFrom (position : Nat) (fresh : Bool) (t : Text) : Except PatternError (List Token) :=
  match t with
  | [] => .ok []
  | '?' :: rest => (tokensFrom (position + 1) false rest).map (.anyChar :: ·)
  | '*' :: '*' :: '*' :: _ => .error ⟨position + 2, .manyStars⟩
  | '*' :: '*' :: rest =>
    if fresh then
      match rest with
      | [] => .ok [.anyDepth]
      | '/' :: rest => (tokensFrom (position + 3) true rest).map (.anyDepth :: ·)
      | _ => .error ⟨position + 2, .stuckStars⟩
    else .error ⟨position - 1, .stuckStars⟩
  | '*' :: rest => (tokensFrom (position + 1) false rest).map (.anyChars :: ·)
  | '[' :: rest =>
    match h : class? rest with
    | none => .error ⟨position, .badClass⟩
    | some (token, after) =>
      have := length_of_class? h
      (tokensFrom (position + 1 + (rest.length - after.length)) false after).map (token :: ·)
  | c :: rest => (tokensFrom (position + 1) (c = '/') rest).map (.exactly c :: ·)
termination_by t.length

def tokens (pattern : Text) : Except PatternError (List Token) := tokensFrom 0 true pattern

def Token.holds (c : Char) : Token → Bool
  | exactly d => c = d
  | anyChar => true
  | oneOf ranges => ranges.any (·.holds c)
  | noneOf ranges => !ranges.any (·.holds c)
  | anyChars | anyDepth => false

def accepts : List Token → Text → Bool
  | [], name => name.isEmpty
  | .anyChars :: rest, [] => accepts rest []
  | .anyChars :: rest, c :: name => accepts rest (c :: name) || accepts (.anyChars :: rest) name
  | _ :: _, [] => false
  | token :: rest, c :: name => token.holds c && accepts rest name
termination_by pattern name => (pattern.length, name.length)

def literal? (pattern : List Token) : Option Text :=
  pattern.mapM fun
    | .exactly c => some c
    | _ => none

end SourceMarkers.Glob
