import SourceMarkers.FileTree
import SourceMarkers.Glob.Pattern

/-! # Paths that match a pattern

A pattern is matched against a file tree component by component, from the
working directory or the root. A component without wildcards is followed
without looking at names. Other components are compared with the names in a
directory, in their order. The paths found are spelled without the dot for the
working directory.
-/

namespace SourceMarkers.Glob

def isHere (p : Path) : Bool := p.components = [.here]

/-- The path of a name in a directory, without the dot for the working directory. -/
def enter (p : Path) (name : Text) : Path := if isHere p then ⟨name⟩ else p.join name

def nameLe (a b : Text) : Bool :=
  (List.compareLex (fun c d => compare c.toNat d.toNat) a b).isLE

structure Entry where
  name : Text
  path : Path

/-- The names in a directory, or nothing if the system refuses to list it. -/
def entries (t : FileTree) (p : Path) : List Entry :=
  if t.isListable p then
    ((t.names p).mergeSort nameLe).map fun name => ⟨name, enter p name⟩
  else []

/-- The entries at any depth below a directory, down to a bound. Each one comes before those
below it. -/
def descendants (t : FileTree) : Nat → Path → List Entry
  | 0, _ => []
  | depth + 1, p => (entries t p).flatMap fun e => e :: descendants t depth e.path

/-- The special names that a component beginning with a dot matches, the last one first. -/
def dotNames (component : List Token) : List Text :=
  if component.head? = some (.exactly '.') then
    [['.', '.'], ['.']].filter (accepts component)
  else []

/-- A path that matches is kept if it need not be a directory or is one. -/
def keep (t : FileTree) (directories : Bool) (p : Path) : List Path :=
  if !directories || t.isDirectory p then [p] else []

mutual

/-- The paths below a directory that match the components of a pattern. The flag tells whether
only directories are wanted. -/
def below (t : FileTree) (directories : Bool) : List (List Token) → Path → List Path
  | [], p => keep t directories p
  | [.anyDepth] :: rest, p =>
    (descendants t (t.entries.length + 1) p).flatMap (atEntry t directories rest)
  | component :: rest, p =>
    match literal? component with
    | some name =>
      let next := enter p name
      let found :=
        if name = ['.'] ∨ name = ['.', '.'] then t.isDirectory p else t.exists? next
      if found then below t directories rest next else []
    | none =>
      if t.isListable p then
        (dotNames component).flatMap (fun name => below t directories rest (p.join name)) ++
          (entries t p).flatMap fun e =>
            if accepts component e.name then below t directories rest e.path else []
      else []

/-- The paths among an entry and those below it that match what follows any number of
directories. -/
def atEntry (t : FileTree) (directories : Bool) : List (List Token) → Entry → List Path
  | [], e => if t.isDirectory e.path then [e.path] else []
  | [.anyDepth] :: rest, e => atEntry t directories rest e
  | component :: rest, e => if accepts component e.name then below t directories rest e.path else []

end

/-- The components of a pattern between its slashes. A slash at its end separates nothing. -/
def components (pattern : Text) : List Text :=
  let parts := pattern.splitOn '/'
  if parts.getLast? = some [] then parts.dropLast else parts

def expand (t : FileTree) (pattern : Text) : Except PatternError (List Path) := do
  let _ ← tokens pattern
  let absolute := pattern.head? = some '/'
  let rest := if absolute then pattern.tail else pattern
  let components ← (if rest = [] then [[]] else components rest).mapM tokens
  let directories := pattern.getLast? = some '/'
  return below t directories components (if absolute then ⟨['/']⟩ else ⟨['.']⟩)

end SourceMarkers.Glob
