import SourceMarkers.Dialect
import SourceMarkers.Kind
import SourceMarkers.Terminal.Plain

/-! # Options of the command line

Arguments are read from left to right. An argument that begins with a dash is an
option, unless it is a single dash or follows two dashes that stand alone. Short
options may share one dash. The value of an option may be attached to it, with
or without an equals sign, or be the next argument. A value that is the next
argument is examined only when something else has been read or nothing is left,
so that an unknown option after it is reported first.
-/

namespace SourceMarkers.Command

inductive Valued where
  | format
  | lang
  | only
deriving DecidableEq, Repr

inductive Switch where
  | cpp
  | verbose
  | help
deriving DecidableEq, Repr

inductive Choice where
  | valued (v : Valued)
  | switch (s : Switch)
deriving DecidableEq, Repr

namespace Choice

def ofLong? (name : Text) : Option Choice :=
  if name = "format".toList then some (.valued .format)
  else if name = "lang".toList then some (.valued .lang)
  else if name = "only".toList then some (.valued .only)
  else if name = "cpp".toList then some (.switch .cpp)
  else if name = "verbose".toList then some (.switch .verbose)
  else if name = "help".toList then some (.switch .help)
  else none

def ofShort? (letter : Char) : Option Choice :=
  if letter = 'f' then some (.valued .format)
  else if letter = 'v' then some (.switch .verbose)
  else if letter = 'h' then some (.switch .help)
  else none

end Choice

def Valued.usage : Valued → Text
  | format => "--format <FORMAT>".toList
  | lang => "--lang <LANG>".toList
  | only => "--only <ONLY>".toList

/-- An option without a value as it is shown in messages. Dots mark one that may be repeated. -/
def Switch.usage : Switch → Text
  | cpp => "--cpp".toList
  | verbose => "--verbose...".toList
  | help => "--help".toList

inductive UsageError where
  /-- There is no such option. -/
  | unexpectedArgument (shown : Text)
  /-- An option that has no value is given one. -/
  | unexpectedValue (s : Switch) (value : Text)
  /-- An option that has a value is given none. -/
  | missingValue (v : Valued)
  | repeatedValued (v : Valued)
  | repeatedSwitch (s : Switch)
  | unknownDialect (value : Text)
  | unknownKind (value : Text)
deriving DecidableEq, Repr

namespace UsageError

open Terminal

def invalidValue (v : Valued) (value reason : Text) : Text :=
  "error: invalid value '".toList ++ marked value ++ "' for '".toList ++ marked v.usage ++
    "': ".toList ++ reason

def repeated (usage : Text) : Text :=
  "error: the argument '".toList ++ marked usage ++ "' cannot be used multiple times".toList

/-- An error in words. Words in quotes are set off from the others. -/
def statement : UsageError → Text
  | unexpectedArgument shown =>
    "error: unexpected argument '".toList ++ marked shown ++ "' found".toList
  | unexpectedValue s value =>
    "error: unexpected value '".toList ++ marked value ++ "' for '".toList ++ marked s.usage ++
      "' found; no more were expected".toList
  | missingValue v =>
    "error: a value is required for '".toList ++ marked v.usage ++
      "' but none was supplied".toList
  | repeatedValued v => repeated v.usage
  | repeatedSwitch s => repeated s.usage
  | unknownDialect value => invalidValue .lang value (Dialect.unknownMessage value)
  | unknownKind value => invalidValue .only value (Kind.unknownMessage value)

def advice : Text :=
  "\n\nFor more information, try '".toList ++ marked "--help".toList ++ "'.\n".toList

def message (e : UsageError) : Text := e.statement ++ advice

/-- The first line of a message without its control sequences, which is all that is shown. -/
def line (e : UsageError) : Text := (plain e.message).firstLine

end UsageError

structure Options where
  /-- The name of the format of reports. -/
  format : Text := "list".toList
  /-- The dialect of the standard input. -/
  dialect : Dialect := .c
  /-- The kinds of markers to report. All kinds are reported if none is given. -/
  only : List Kind := []
  /-- The dialects that markers are looked for in. -/
  gate : Gate := .strict
  /-- How many times more messages are asked for. -/
  verbosity : Nat := 0
  /-- Files, directories and patterns. The standard input is read if there are none. -/
  inputs : List Text := []
deriving DecidableEq, Repr

/-- What the arguments read so far ask for. -/
structure Reader where
  options : Options := {}
  formatGiven : Bool := false
  dialectGiven : Bool := false
  gateGiven : Bool := false
  /-- An option whose value has not been examined, with the value if it has been read. -/
  pending : Option (Valued × Option Text) := none
  /-- Options are no longer read. -/
  inputsOnly : Bool := false
deriving DecidableEq, Repr

inductive Stop where
  | help
  | usage (e : UsageError)
deriving DecidableEq, Repr

namespace Reader

def assign (r : Reader) (v : Valued) (value : Text) : Except Stop Reader :=
  match v with
  | .format =>
    if r.formatGiven then .error (.usage (.repeatedValued v))
    else .ok { r with options := { r.options with format := value }, formatGiven := true }
  | .lang =>
    if r.dialectGiven then .error (.usage (.repeatedValued v))
    else match Dialect.ofName? value with
      | none => .error (.usage (.unknownDialect value))
      | some dialect =>
        .ok { r with options := { r.options with dialect }, dialectGiven := true }
  | .only =>
    match Kind.ofName? value with
    | none => .error (.usage (.unknownKind value))
    | some kind => .ok { r with options := { r.options with only := r.options.only ++ [kind] } }

/-- Examines the value that has been put off. -/
def settle (r : Reader) : Except Stop Reader :=
  match r.pending with
  | none => .ok r
  | some (v, none) => .error (.usage (.missingValue v))
  | some (v, some value) => { r with pending := none }.assign v value

def turnOn (r : Reader) (s : Switch) : Except Stop Reader := do
  let r ← r.settle
  match s with
  | .cpp =>
    if r.gateGiven then .error (.usage (.repeatedSwitch s))
    else .ok { r with options := { r.options with gate := .permissive }, gateGiven := true }
  | .verbose => .ok { r with options := { r.options with verbosity := r.options.verbosity + 1 } }
  | .help => .error .help

/-- Gives an option the value attached to it, or waits for its value. -/
def give (r : Reader) (v : Valued) (attached : Option Text) : Except Stop Reader := do
  let r ← r.settle
  match attached with
  | some value => r.assign v value
  | none => .ok { r with pending := some (v, none) }

def takeInput (r : Reader) (argument : Text) : Except Stop Reader := do
  let r ← r.settle
  .ok { r with options := { r.options with inputs := r.options.inputs ++ [argument] } }

/-- Reads an argument that begins with two dashes, given without them. -/
def readLong (r : Reader) (body : Text) : Except Stop Reader :=
  let name := body.takeWhile (· ≠ '=')
  let attached := if '=' ∈ body then some (body.dropWhile (· ≠ '=')).tail else none
  match Choice.ofLong? name, attached with
  | none, _ => .error (.usage (.unexpectedArgument ("--".toList ++ name)))
  | some (.valued v), _ => r.give v attached
  | some (.switch s), some value => .error (.usage (.unexpectedValue s value))
  | some (.switch s), none => r.turnOn s

def attachedValue? : Text → Option Text
  | [] => none
  | '=' :: value => some value
  | value => some value

def readShort (r : Reader) : Text → Except Stop Reader
  | [] => .ok r
  | letter :: rest =>
    match Choice.ofShort? letter with
    | none => .error (.usage (.unexpectedArgument ['-', letter]))
    | some (.valued v) => r.give v (attachedValue? rest)
    | some (.switch s) => do (← r.turnOn s).readShort rest

/-- Takes an argument as the value that an option waits for, or else as an input. -/
def readPlain (r : Reader) (argument : Text) : Except Stop Reader :=
  match r.pending with
  | some (v, none) => .ok { r with pending := some (v, some argument) }
  | _ => r.takeInput argument

def read (r : Reader) (argument : Text) : Except Stop Reader :=
  if r.inputsOnly then r.takeInput argument
  else match argument with
    | ['-', '-'] => .ok { r with inputsOnly := true }
    | '-' :: '-' :: body => r.readLong body
    | ['-'] => r.readPlain argument
    | '-' :: letters => r.readShort letters
    | _ => r.readPlain argument

end Reader

def Options.ofArguments (arguments : List Text) : Except Stop Options := do
  let r ← arguments.foldlM Reader.read {}
  return (← r.settle).options

end SourceMarkers.Command
