import SourceMarkers.Annotation

/-! # The annotated report

The source with the annotations of each line below it. An annotation ends as
the line above it does, so that the line breaks of a source stay alike. The
report always ends in a line break.
-/

namespace SourceMarkers.Report

def carriageReturn (line : Text) : Text := if line.getLast? = some '\r' then ['\r'] else []

/-- A line and the lines that are shown below it. -/
def withAnnotations (annotations : List Annotation) (line : Text) (number : Nat) : List Text :=
  line :: (annotations.filter fun a => a.line = number).map fun a =>
    a.indent ++ a.text ++ carriageReturn line

def closeLine (t : Text) : Text := if t.getLast? = some '\n' then t else t ++ ['\n']

def annotated (d : Document) (annotations : List Annotation) : Text :=
  closeLine <| ['\n'].intercalate <|
    (d.lines.zipIdx 1).flatMap fun (line, number) => withAnnotations annotations line number

end SourceMarkers.Report
