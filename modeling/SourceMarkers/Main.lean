import SourceMarkers.Command.Session

/-! # The program

The program looks at the part of the file system that its arguments can lead to,
and runs a session on what it has seen. Where the system refuses to read a file or
to list a directory, what it says is kept for the session. The variable `RUST_LOG`
sets the threshold of the log.
-/

namespace SourceMarkers.Command

def spellRoute (route : Route) : String := String.ofList ('/' :: ['/'].intercalate route)

/-- How many levels of directories are looked into below the first wildcard of a pattern. -/
def depthLimit : Nat := 64

def refusalText : IO.Error → Text
  | .permissionDenied _ code details =>
    details.toList ++ " (os error ".toList ++ Text.decimal code.toNat ++ [')']
  | e => e.toString.toList

/-- Looks at the end of a route. A file is read only if it may pass the gate. -/
def lookAt (t : FileTree) (route : Route) : IO FileTree :=
  try
    let place ← IO.FS.realPath (spellRoute route)
    match (← place.metadata).type with
    | .dir => return t.put route .directory
    | .file =>
      if Gate.permissive.passesPath ⟨route.getLastD []⟩ then
        try return t.put route (.file (← IO.FS.readBinFile place))
        catch e => return t.put route (.unreadable (refusalText e))
      else
        return t.put route (.file .empty)
    | _ => return t
  catch _ => return t

/-- Looks into the directory at the end of a route, and into those below it down to a depth. -/
def lookInto (t : FileTree) (route : Route) : Nat → IO FileTree
  | 0 => return t
  | depth + 1 => do
    unless t.isDirectoryAt route do return t
    try
      let place ← IO.FS.realPath (spellRoute route)
      (← place.readDir).foldlM (fun t entry => do
        let inner := route ++ [entry.fileName.toList]
        lookInto (← lookAt t inner) inner depth) t
    catch e => return t.put route (.unlistable (refusalText e))

/-- Looks along the parts of a path. A wildcard may lead anywhere below. -/
def lookAlong (t : FileTree) (route : Route) : List Text → IO FileTree
  | [] => lookInto t route 1
  | part :: rest => do
    if part.any fun c => c = '*' || c = '?' || c = '[' then lookInto t route depthLimit
    else if part = [] ∨ part = ['.'] then lookAlong t route rest
    else if part = ['.', '.'] then lookAlong t route.dropLast rest
    else
      let inner := route ++ [part]
      lookAlong (← lookAt t inner) inner rest

def visibleFiles (inputs : List Text) : IO FileTree := do
  let here := ((← IO.currentDir).toString.toList.splitOn '/').filter (· ≠ [])
  let start : FileTree := { workingDirectory := here }
  inputs.foldlM (fun t input =>
    let p : Path := ⟨input⟩
    lookAlong t (if p.absolute then [] else here) p.parts) (start.put here .directory)

/-- What a session with the given arguments depends on. The standard input is read only if no
other input is given. -/
def surroundings (arguments : List Text) : IO Surroundings := do
  let threshold := (← IO.getEnv "RUST_LOG").map fun name => Log.Level.ofName? name.toList
  match Options.ofArguments arguments with
  | .error _ => return { threshold }
  | .ok options =>
    if options.inputs.isEmpty then
      return { threshold, input := ← (← IO.getStdin).readBinToEnd }
    else return { threshold, files := ← visibleFiles options.inputs }

end SourceMarkers.Command

open SourceMarkers Command in
def main (args : List String) : IO UInt32 := do
  let arguments := args.map String.toList
  let outcome := run (← surroundings arguments) arguments
  (← IO.getStderr).putStr (String.ofList outcome.messages)
  (← IO.getStdout).putStr (String.ofList outcome.output)
  return outcome.code.toUInt32
