import SourceMarkers.Text.Basic

/-! # Paths

A path is spelled as names with slashes between them. Its components are what
matters when paths are compared: repeated slashes do not count, and neither
does a single dot, unless it comes first.
-/

namespace SourceMarkers

structure Path where
  spelling : Text
deriving DecidableEq, Repr

namespace Path

inductive Component where
  /-- The slash at the beginning of an absolute path. -/
  | root
  /-- The dot at the beginning of a path. -/
  | here
  | parent
  | name (n : Text)
deriving DecidableEq, Repr

namespace Component

def rank : Component → Nat
  | root => 0
  | here => 1
  | parent => 2
  | name _ => 3

def name? : Component → Option Text
  | name n => some n
  | root | here | parent => none

/-- Names are compared by the code points of their characters. -/
def order (a b : Component) : Ordering :=
  (compare a.rank b.rank).then <|
    List.compareLex (fun c d => compare c.toNat d.toNat) (a.name?.getD []) (b.name?.getD [])

def ofPart? (part : Text) : Option Component :=
  if part = [] ∨ part = ['.'] then none
  else if part = ['.', '.'] then some .parent
  else some (.name part)

end Component

def parts (p : Path) : List Text := p.spelling.splitOn '/'

def absolute (p : Path) : Bool := p.spelling.head? = some '/'

def components (p : Path) : List Component :=
  let first :=
    if p.absolute then [.root] else if p.parts.head? = some ['.'] then [.here] else []
  first ++ p.parts.filterMap Component.ofPart?

/-- Paths are compared component by component. -/
def order (p q : Path) : Ordering := List.compareLex Component.order p.components q.components

/-- The two paths have the same components. -/
def same (p q : Path) : Bool := p.components = q.components

def le (p q : Path) : Bool := (order p q).isLE

/-- The last component of a path, if it is a name. -/
def fileName? (p : Path) : Option Text := p.components.getLast?.bind Component.name?

/-- What follows the last dot of a name. A dot at the beginning of a name is no such dot. -/
def extensionOfName? (name : Text) : Option Text :=
  match (name.splitOn '.').reverse with
  | last :: first :: rest => if first = [] ∧ rest = [] then none else some last
  | _ => none

def extension? (p : Path) : Option Text := p.fileName?.bind extensionOfName?

def join (p : Path) (name : Text) : Path :=
  if p.spelling = [] ∨ p.spelling.getLast? = some '/' then ⟨p.spelling ++ name⟩
  else ⟨p.spelling ++ '/' :: name⟩

/-- The first path of each run of paths with the same components as the path before the run. -/
def dropRepeatsAfter (last : Path) : List Path → List Path
  | [] => []
  | p :: rest => if same last p then dropRepeatsAfter last rest else p :: dropRepeatsAfter p rest

def dropRepeats : List Path → List Path
  | [] => []
  | p :: rest => p :: dropRepeatsAfter p rest

/-- Paths in their order. Of paths with the same components the first one given is kept. -/
def arrange (paths : List Path) : List Path := dropRepeats (paths.mergeSort le)

end Path

end SourceMarkers
