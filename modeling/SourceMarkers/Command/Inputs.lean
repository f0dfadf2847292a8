import SourceMarkers.Command.Attempt
import SourceMarkers.Dialect
import SourceMarkers.Glob.Expand

/-! # Input files

An argument names a file, a directory or a pattern. A file is taken as it is, a
directory gives the files in it that pass the gate, and a pattern gives the
files that match it. The files are then arranged by their paths.
-/

namespace SourceMarkers.Command

/-- A way to expand patterns: the paths that match a pattern, unless it has no meaning. -/
abbrev Expansion := Text → Except Glob.PatternError (List Path)

def noMatch (pattern : Text) : Log.Event := ⟨.warn, "no files matched: ".toList ++ pattern⟩

def passing (t : FileTree) (gate : Gate) (directory : Path) : List Path :=
  ((t.names directory).map directory.join).filter fun p => t.isFile p && gate.passesPath p

def directoryFiles (t : FileTree) (gate : Gate) (directory : Path) : Attempt (List Path) :=
  match t.refusal? directory with
  | some cause => .fail (.unlistableDirectory directory cause)
  | none => .done (passing t gate directory)

def patternFiles (t : FileTree) (expand : Expansion) (pattern : Text) : Attempt (List Path) :=
  match expand pattern with
  | .error e => .fail (.badPattern pattern e)
  | .ok paths =>
    let files := paths.filter t.isFile
    ⟨if files.isEmpty then [noMatch pattern] else [], .ok files⟩

def argumentFiles (t : FileTree) (expand : Expansion) (gate : Gate) (argument : Text) :
    Attempt (List Path) :=
  if t.isFile ⟨argument⟩ then .done [⟨argument⟩]
  else if t.isDirectory ⟨argument⟩ then directoryFiles t gate ⟨argument⟩
  else patternFiles t expand argument

/-- The files that some arguments give, each once and in the order of paths. -/
def inputFiles (t : FileTree) (expand : Expansion) (gate : Gate) (arguments : List Text) :
    Attempt (List Path) :=
  (Attempt.gather (argumentFiles t expand gate) arguments).andThen fun paths =>
    .done (Path.arrange paths)

end SourceMarkers.Command
