import SourceMarkers.Glob.Pattern
import SourceMarkers.Log
import SourceMarkers.Path
import SourceMarkers.Report

/-! # Attempts

Work on the inputs is logged while it is done, and may fail. What has been
logged before a failure stays in the log.
-/

namespace SourceMarkers.Command

inductive Failure where
  | unknownFormat (name : Text)
  /-- A pattern that is no file or directory has no meaning. -/
  | badPattern (pattern : Text) (error : Glob.PatternError)
  /-- The system refuses to list a directory. -/
  | unlistableDirectory (path : Path) (cause : Text)
  /-- The system refuses to read a file. -/
  | unreadableFile (path : Path) (cause : Text)
  /-- The standard input is not UTF-8. -/
  | undecodableInput
  /-- A file is not UTF-8. -/
  | undecodableFile (path : Path)
deriving DecidableEq, Repr

namespace Failure

def notUtf8 : Text := "stream did not contain valid UTF-8".toList

def message : Failure → Text
  | unknownFormat name => Format.unknownMessage name
  | badPattern pattern _ => "invalid glob pattern: ".toList ++ pattern
  | unlistableDirectory path _ => "failed to read directory: ".toList ++ path.spelling
  | undecodableInput => "failed to read stdin".toList
  | unreadableFile path _ | undecodableFile path => "failed to read ".toList ++ path.spelling

def cause? : Failure → Option Text
  | unknownFormat _ => none
  | badPattern _ error => some error.message
  | unlistableDirectory _ cause | unreadableFile _ cause => some cause
  | undecodableInput | undecodableFile _ => some notUtf8

def lines (f : Failure) : Text :=
  "Error: ".toList ++ f.message ++ ['\n'] ++
    f.cause?.elim [] fun cause => "\nCaused by:\n    ".toList ++ cause ++ ['\n']

end Failure

/-- A result or a failure, with what was logged on the way. -/
structure Attempt (α : Type) where
  log : List Log.Event
  result : Except Failure α

namespace Attempt

variable {α β : Type}

def done (a : α) : Attempt α := ⟨[], .ok a⟩

def fail (f : Failure) : Attempt α := ⟨[], .error f⟩

def tell (events : List Log.Event) : Attempt Unit := ⟨events, .ok ()⟩

def andThen (x : Attempt α) (f : α → Attempt β) : Attempt β :=
  match x.result with
  | .ok a => ⟨x.log ++ (f a).log, (f a).result⟩
  | .error e => ⟨x.log, .error e⟩

instance : Monad Attempt where
  pure := done
  bind := andThen

/-- Work on the elements of a list one after the other. The results are put together. -/
def gather (f : α → Attempt (List β)) : List α → Attempt (List β)
  | [] => done []
  | a :: rest => (f a).andThen fun b => (gather f rest).andThen fun bs => done (b ++ bs)

variable {a : α} {f : α → Attempt β} {e : Failure} {events : List Log.Event}

@[simp] theorem andThen_ok : andThen ⟨events, .ok a⟩ f = ⟨events ++ (f a).log, (f a).result⟩ := rfl

@[simp] theorem andThen_error :
    andThen ⟨events, .error e⟩ f = ⟨events, .error e⟩ := rfl

@[simp] theorem done_andThen : (done a).andThen f = f a := rfl

end Attempt

end SourceMarkers.Command
