import SourceMarkers.Command.Inputs
import SourceMarkers.Command.Options
import SourceMarkers.Finding

/-! # Sessions

A session is a run of the program. It depends on the arguments, the standard
input, the files that can be seen and the threshold of the log, and ends in an
exit code and two texts. If something goes wrong, no report is written.
-/

namespace SourceMarkers.Command

/-- What a session depends on besides its arguments. -/
structure Surroundings where
  files : FileTree := {}
  input : ByteArray := .empty
  /-- The threshold of the log, if it is not left to the arguments. -/
  threshold : Option Log.Threshold := none

structure Outcome where
  code : Nat
  output : Text
  messages : Text
deriving DecidableEq, Repr

def decode? (bytes : ByteArray) : Option Text := (String.fromUTF8? bytes).map String.toList

def selected (only : List Kind) (d : Document) : List Marker :=
  if only.isEmpty then d.markers else d.markers.filter fun m => m.kind ∈ only

def header (source : Text) : Text := "==> ".toList ++ source ++ " <==\n".toList

def reportText (format : Format) (only : List Kind) (headers : Bool) (source text : Text) : Text :=
  (if headers then header source else []) ++
    format.report source ⟨text⟩ (selected only ⟨text⟩)

def reportEvents (format : Format) (only : List Kind) (source text : Text) : List Log.Event :=
  let markers := selected only ⟨text⟩
  Document.searchLog ⟨text⟩ ++
    [⟨.info, source ++ ": ".toList ++ Text.decimal markers.length ++ " markers".toList⟩] ++
    format.reportLog ⟨text⟩ markers

def reportSource (format : Format) (only : List Kind) (headers : Bool) (source text : Text) :
    Attempt Text :=
  ⟨reportEvents format only source text, .ok (reportText format only headers source text)⟩

def skipping (source : Text) : Log.Event :=
  ⟨.warn, "skipping ".toList ++ source ++ ": not an eligible file type".toList⟩

def skippingInput (dialect : Dialect) : Log.Event :=
  ⟨.warn, (skipping "<stdin>".toList).message ++ " (".toList ++ dialect.name ++ [')']⟩

def reportInput (s : Surroundings) (o : Options) (format : Format) : Attempt Text :=
  match decode? s.input with
  | none => .fail .undecodableInput
  | some text =>
    if o.gate.admits o.dialect then reportSource format o.only false "<stdin>".toList text
    else ⟨[skippingInput o.dialect], .ok []⟩

def reportFile (files : FileTree) (o : Options) (format : Format) (headers : Bool) (p : Path) :
    Attempt Text :=
  match files.refusal? p with
  | some cause => .fail (.unreadableFile p cause)
  | none =>
    match (files.content? p).bind decode? with
    | none => .fail (.undecodableFile p)
    | some text => reportSource format o.only headers p.spelling text

/-- The reports on the files that the arguments give. There are headers in the annotated report
on more than one file. -/
def reportFiles (s : Surroundings) (expand : Expansion) (o : Options) (format : Format) :
    Attempt Text := do
  let paths ← inputFiles s.files expand o.gate o.inputs
  let (eligible, skipped) := paths.partition o.gate.passesPath
  Attempt.tell (skipped.map fun p => skipping p.spelling)
  let headers := format = .annotated && 1 < eligible.length
  Attempt.gather (reportFile s.files o format headers) eligible

def perform (s : Surroundings) (expand : Expansion) (o : Options) : Attempt Text :=
  match Format.ofName? o.format with
  | none => .fail (.unknownFormat o.format)
  | some format =>
    if o.inputs.isEmpty then reportInput s o format else reportFiles s expand o format

def threshold (s : Surroundings) (o : Options) : Log.Threshold :=
  s.threshold.getD <| some <|
    match o.verbosity with
    | 0 => .warn
    | 1 => .info
    | _ => .debug

def Outcome.ofAttempt (threshold : Log.Threshold) (a : Attempt Text) : Outcome :=
  let log := Log.lines threshold a.log
  match a.result with
  | .ok output => ⟨0, output, log⟩
  | .error f => ⟨1, [], log ++ f.lines⟩

def runOptions (s : Surroundings) (expand : Expansion) (o : Options) : Outcome :=
  .ofAttempt (threshold s o) (perform s expand o)

def usage : Text :=
  ("Render CALL/NSCALL/MTD/NSMTD markers in C sources as readable call signatures\n\n" ++
    "Usage: callmark [OPTIONS] [FILES]...\n\n" ++
    "Arguments:\n" ++
    "  [FILES]...  Input files, directories or glob patterns. If omitted, reads from stdin\n\n" ++
    "Options:\n" ++
    "  -f, --format <FORMAT>  " ++
      "Output format: list (default), annotate, json [default: list]\n" ++
    "      --lang <LANG>      " ++
      "Declared language of stdin input: c, h or cpp [default: c]\n" ++
    "      --cpp              Also scan C++ sources (.cpp, .cc, .hpp, ...)\n" ++
    "      --only <ONLY>      Only report these marker kinds. " ++
      "Can be specified multiple times. E.g. --only CALL --only NSCALL\n" ++
    "  -v, --verbose...       " ++
      "Increase log verbosity (-v info, -vv debug). RUST_LOG overrides\n" ++
    "  -h, --help             Print help\n").toList

/-- A session, for a given way to expand patterns. -/
def runWith (s : Surroundings) (expand : Expansion) (arguments : List Text) : Outcome :=
  match Options.ofArguments arguments with
  | .ok options => runOptions s expand options
  | .error .help => ⟨0, usage, []⟩
  | .error (.usage e) => ⟨2, [], e.line⟩

def run (s : Surroundings) (arguments : List Text) : Outcome :=
  runWith s (Glob.expand s.files) arguments

end SourceMarkers.Command
