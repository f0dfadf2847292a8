import SourceMarkers.Document
import SourceMarkers.Log
import SourceMarkers.Marker
import SourceMarkers.Segment

/-! # Findings in a document

Each segment of a document that begins with a keyword is a finding: a marker, a
marker whose fields cannot be told apart, or one whose parenthesis is never
closed. Findings are told in the order of the text, each with the place where
it stands.
-/

namespace SourceMarkers

structure Position where
  offset : Nat := 0
  line : Nat := 1
deriving DecidableEq, Repr

def Position.after (p : Position) (t : Text) : Position :=
  ⟨p.offset + Text.size t, p.line + Text.breaks t⟩

/-- The byte offsets of the keyword and of the closing parenthesis of a marker. -/
structure Span where
  start : Nat
  close : Nat
deriving DecidableEq, Repr

/-- What a keyword in a document turned out to be. -/
inductive Finding where
  /-- A marker with all its fields. -/
  | marker (span : Span) (marker : Marker)
  /-- A marker that lacks a field or the slash before its parameters. -/
  | malformed (span : Span) (kind : Kind) (line : Nat)
  /-- A keyword whose parenthesis is never closed. -/
  | unclosed (start : Nat) (kind : Kind)
deriving DecidableEq, Repr

namespace Finding

def ofSegment? (p : Position) : Segment → Option Finding
  | .plain _ => none
  | .unclosed kind => some (.unclosed p.offset kind)
  | .marked kind body =>
    let close := p.after (kind.opener ++ body)
    let span := ⟨p.offset, close.offset⟩
    match Fields.ofBody? kind body with
    | none => some (.malformed span kind p.line)
    | some fields => some (.marker span (.ofFields kind fields p.line close.line))

def ofSegments (p : Position) : List Segment → List Finding
  | [] => []
  | s :: rest => (ofSegment? p s).toList ++ ofSegments (p.after s.source) rest

def marker? : Finding → Option Marker
  | marker _ m => some m
  | malformed .. | unclosed .. => none

def event? : Finding → Option Log.Event
  | marker .. => none
  | malformed _ kind line => some ⟨.debug,
      "dropping malformed ".toList ++ kind.keyword ++ " marker on line ".toList ++
        Text.decimal line⟩
  | unclosed start kind => some ⟨.debug,
      "unterminated ".toList ++ kind.keyword ++ " marker at byte ".toList ++ Text.decimal start⟩

end Finding

namespace Document

def findings (d : Document) : List Finding := Finding.ofSegments {} (Segment.ofText d.text)

def markers (d : Document) : List Marker := d.findings.filterMap Finding.marker?

/-- The events of the search for markers. The last one tells their number. -/
def searchLog (d : Document) : List Log.Event :=
  d.findings.filterMap Finding.event? ++
    [⟨.trace, "scan found ".toList ++ Text.decimal d.markers.length ++ " markers".toList⟩]

end Document

end SourceMarkers
