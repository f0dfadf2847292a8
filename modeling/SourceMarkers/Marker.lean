import SourceMarkers.Fields
import SourceMarkers.Text.Tidy

/-! # Markers

A marker stands for a call or a definition of a method or function. Its
signature is what it stands for, written as it would be without markers.
-/

namespace SourceMarkers

/-- A marker with tidy fields and the lines it extends over. -/
structure Marker where
  kind : Kind
  owner : Text
  receiver : Option Text
  name : Text
  params : Text
  firstLine : Nat
  lastLine : Nat
deriving DecidableEq, Repr

namespace Marker

def ofFields (kind : Kind) (fields : Fields) (firstLine lastLine : Nat) : Marker where
  kind
  owner := Text.tidy fields.owner
  receiver := fields.receiver.map Text.tidy
  name := Text.tidy fields.name
  params := Text.tidyParams fields.params
  firstLine
  lastLine

def arguments (m : Marker) : Text := '(' :: m.params ++ [')']

/-- The object of a call is shown as a reference to its class. -/
def signature (m : Marker) : Text :=
  match m.kind with
  | .objectCall =>
    '(' :: m.owner ++ "&)".toList ++ m.receiver.getD [] ++ '.' :: m.name ++ m.arguments
  | .namespaceCall | .namespaceMethod => m.owner ++ "::".toList ++ m.name ++ m.arguments
  | .classMethod => m.owner ++ '.' :: m.name ++ m.arguments

end Marker

end SourceMarkers
