import SourceMarkers.Json
import SourceMarkers.Marker

/-! # The JSON report

A line with one JSON object for each marker. The owner of a function is given
as its class or its namespace, and only a function of a namespace that is called
is given as a function.
-/

namespace SourceMarkers.Report

def members (source : Text) (m : Marker) : List (Text × Json.Value) :=
  [("source".toList, .string source), ("kind".toList, .string m.kind.label),
    (if m.kind.namespaced then "namespace".toList else "class".toList, .string m.owner)] ++
  m.receiver.toList.map (fun r => ("instance".toList, .string r)) ++
  [(if m.kind = .namespaceCall then "function".toList else "method".toList, .string m.name),
    ("params".toList, .string m.params), ("start_line".toList, .number m.firstLine),
    ("end_line".toList, .number m.lastLine), ("rendering".toList, .string m.signature)]

def jsonLine (source : Text) (m : Marker) : Text := Json.object (members source m) ++ ['\n']

def jsonLines (source : Text) (markers : List Marker) : Text := markers.flatMap (jsonLine source)

end SourceMarkers.Report
