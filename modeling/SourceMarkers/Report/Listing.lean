import SourceMarkers.Marker

/-! # The list report

An entry for each marker: the name of the source, the lines of the marker, and
its signature.
-/

namespace SourceMarkers.Report

def lineRange (m : Marker) : Text :=
  if m.firstLine = m.lastLine then Text.decimal m.firstLine
  else Text.decimal m.firstLine ++ '-' :: Text.decimal m.lastLine

def entry (source : Text) (m : Marker) : Text :=
  source ++ ':' :: lineRange m ++ ": ".toList ++ m.signature ++ ['\n']

def listing (source : Text) (markers : List Marker) : Text := markers.flatMap (entry source)

end SourceMarkers.Report
