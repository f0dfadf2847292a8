import SourceMarkers.Report.Annotated
import SourceMarkers.Report.JsonLines
import SourceMarkers.Report.Listing

/-! # Reports

The markers of a source are reported in one of three formats.
-/

namespace SourceMarkers

inductive Format where
  | listing
  | annotated
  | jsonLines
deriving DecidableEq, Repr

namespace Format

def all : List Format := [.listing, .annotated, .jsonLines]

def name : Format → Text
  | listing => "list".toList
  | annotated => "annotate".toList
  | jsonLines => "json".toList

def ofName? (name : Text) : Option Format := all.find? fun f => f.name = name

def unknownMessage (name : Text) : Text :=
  "unknown format: ".toList ++ name ++ ". Use list, annotate, or json".toList

def report (f : Format) (source : Text) (d : Document) (markers : List Marker) : Text :=
  match f with
  | listing => Report.listing source markers
  | annotated => Report.annotated d (d.annotations markers)
  | jsonLines => Report.jsonLines source markers

/-- The events of writing a report. Only annotations have to be placed. -/
def reportLog (f : Format) (d : Document) (markers : List Marker) : List Log.Event :=
  match f with
  | annotated => d.placementLog markers
  | listing | jsonLines => []

end Format

end SourceMarkers
