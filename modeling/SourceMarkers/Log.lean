import SourceMarkers.Terminal.Visible

/-! # Log

What happens besides the results is told in events. An event has a level, and a
log shows the events whose level reaches its threshold.
-/

namespace SourceMarkers.Log

inductive Level where
  | trace
  | debug
  | info
  | warn
  | error
deriving DecidableEq, Repr

namespace Level

/-- All levels, the least important one first. -/
def all : List Level := [.trace, .debug, .info, .warn, .error]

def name : Level → Text
  | trace => "TRACE".toList
  | debug => "DEBUG".toList
  | info => "INFO".toList
  | warn => "WARN".toList
  | error => "ERROR".toList

def rank : Level → Nat
  | trace => 0
  | debug => 1
  | info => 2
  | warn => 3
  | error => 4

def ofName? (name : Text) : Option Level :=
  all.find? fun level => Text.lower level.name = Text.lower name

end Level

structure Event where
  level : Level
  message : Text
deriving DecidableEq, Repr

/-- The line that shows an event. Levels are aligned at their right end, and control characters
of the message are made visible. -/
def Event.line (e : Event) : Text :=
  List.replicate (5 - e.level.name.length) ' ' ++ e.level.name ++
    ' ' :: Terminal.visible e.message ++ ['\n']

/-- The least level that is shown, if any is. -/
abbrev Threshold := Option Level

def Threshold.admits : Threshold → Level → Bool
  | none, _ => false
  | some least, level => least.rank ≤ level.rank

def lines (threshold : Threshold) (events : List Event) : Text :=
  (events.filter fun e => threshold.admits e.level).flatMap Event.line

@[simp] theorem lines_nil (threshold : Threshold) : lines threshold [] = [] := rfl

@[simp] theorem lines_append (threshold : Threshold) (a b : List Event) :
    lines threshold (a ++ b) = lines threshold a ++ lines threshold b := by
  simp [lines]

end SourceMarkers.Log
