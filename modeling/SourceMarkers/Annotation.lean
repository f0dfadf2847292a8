import SourceMarkers.Document
import SourceMarkers.Log
import SourceMarkers.Marker

/-! # Annotations

The signature of a marker is shown below the line on which the marker ends,
under the first keyword of its kind on that line. A marker whose keyword stands
on an earlier line is not shown, nor is one that a change of the document has
left without a line.
-/

namespace SourceMarkers

/-- A signature that is shown below a line. -/
structure Annotation where
  line : Nat
  indent : Text
  text : Text
deriving DecidableEq, Repr

/-- Where the signature of a marker is shown. -/
inductive Placement where
  | shown (a : Annotation)
  /-- The marker ends on a line that the document does not have. -/
  | pastEnd (kind : Kind) (line lineCount : Nat)
  /-- The line on which the marker ends does not hold its keyword. -/
  | noKeyword (kind : Kind) (line : Nat)
deriving DecidableEq, Repr

namespace Placement

/-- The white space that reaches as far as a text. Tabs stay tabs. -/
def indent (before : Text) : Text := before.map fun c => if c = '\t' then '\t' else ' '

def ofMarker (d : Document) (m : Marker) : Placement :=
  match d.line? m.lastLine with
  | none => .pastEnd m.kind m.lastLine d.lineCount
  | some line =>
    match Text.before? m.kind.opener line with
    | none => .noKeyword m.kind m.lastLine
    | some before => .shown ⟨m.lastLine, indent before, m.signature⟩

def shown? : Placement → Option Annotation
  | shown a => some a
  | pastEnd .. | noKeyword .. => none

/-- The event that tells of a marker that is not shown. -/
def event? : Placement → Option Log.Event
  | shown _ => none
  | pastEnd kind line lineCount => some ⟨.warn,
      kind.keyword ++ " marker ends on line ".toList ++ Text.decimal line ++
        ", past the end of the document (".toList ++ Text.decimal lineCount ++ " lines)".toList⟩
  | noKeyword kind line => some ⟨.debug,
      "no ".toList ++ kind.opener ++ " on line ".toList ++ Text.decimal line ++
        ", skipping annotation".toList⟩

end Placement

namespace Document

def annotations (d : Document) (markers : List Marker) : List Annotation :=
  (markers.map (Placement.ofMarker d)).filterMap Placement.shown?

def placementLog (d : Document) (markers : List Marker) : List Log.Event :=
  (markers.map (Placement.ofMarker d)).filterMap Placement.event?

end Document

end SourceMarkers
