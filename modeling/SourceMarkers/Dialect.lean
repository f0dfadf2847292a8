import SourceMarkers.Path

/-! # Dialects of sources

Sources are written in C or in C++, and the extension of a file name tells
which. Markers are looked for in C sources and headers, and in C++ sources where
that is asked for.
-/

namespace SourceMarkers

/-- The sort of a source. -/
inductive Dialect where
  | c
  | header
  | cpp
deriving DecidableEq, Repr

namespace Dialect

def name : Dialect → Text
  | c => "c".toList
  | header => "h".toList
  | cpp => "cpp".toList

def extensions : Dialect → List Text
  | c => ["c".toList]
  | header => ["h".toList]
  | cpp => ["cpp".toList, "cc".toList, "cxx".toList, "hpp".toList, "hh".toList, "hxx".toList]

def ofExtension? (extension : Text) : Option Dialect :=
  [c, header, cpp].find? fun l => extension ∈ l.extensions

/-- The dialect with a given name, which is one of its extensions in capital or small letters. -/
def ofName? (name : Text) : Option Dialect := ofExtension? (Text.lower name)

def ofPath? (p : Path) : Option Dialect := p.extension?.bind ofExtension?

def unknownMessage (name : Text) : Text :=
  "unknown language: ".toList ++ name ++ ". Use c, h or cpp".toList

end Dialect

/-- Which dialects markers are looked for in. -/
inductive Gate where
  /-- C only. -/
  | strict
  /-- C and C++. -/
  | permissive
deriving DecidableEq, Repr

namespace Gate

def admits : Gate → Dialect → Bool
  | _, .c | _, .header | .permissive, .cpp => true
  | .strict, .cpp => false

def passes (g : Gate) (dialect : Option Dialect) : Bool := dialect.any g.admits

def passesPath (g : Gate) (p : Path) : Bool := g.passes (Dialect.ofPath? p)

end Gate

end SourceMarkers
