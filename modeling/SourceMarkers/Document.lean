import SourceMarkers.Text.Basic

/-! # Documents

A document is a text seen as a sequence of lines, which are counted from one.
It always has a last line, which is empty if the text ends in a line break.
-/

namespace SourceMarkers

structure Document where
  text : Text
deriving DecidableEq, Repr

namespace Document

def ofLines (lines : List Text) : Document := ⟨['\n'].intercalate lines⟩

def lines (d : Document) : List Text := d.text.splitOn '\n'

def lineCount (d : Document) : Nat := Text.breaks d.text + 1

def line? (d : Document) : Nat → Option Text
  | 0 => none
  | n + 1 => d.lines[n]?

/-- The number of the line that holds a byte offset. An offset past the end lies on the last
line. -/
def lineAt (d : Document) (offset : Nat) : Nat :=
  ((Text.utf8 d.text).take offset).count 0x0a + 1

@[simp] theorem intercalate_lines (d : Document) : ['\n'].intercalate d.lines = d.text :=
  List.intercalate_splitOn '\n'

@[simp] theorem ofLines_lines (d : Document) : ofLines d.lines = d := by
  cases d; simp [ofLines]

theorem length_lines (d : Document) : d.lines.length = d.lineCount := by
  obtain ⟨t⟩ := d
  simp only [lines, lineCount, Text.breaks]
  induction t with
  | nil => simp
  | cons c t ih =>
    rw [List.splitOn_cons_eq_if_modifyHead]
    split <;> simp_all

end Document

end SourceMarkers
