import SourceMarkers.Path

/-! # File trees

A file tree holds the files and directories that a run of the program can see.
It lists them in the order in which the names in a directory are told. A path
is followed from the working directory, or from the root if it begins with a
slash. Every step of the way has to lead out of a directory that exists, and a
path that ends in a slash or a dot leads to a directory. The system may refuse to
read a file or to list a directory, and then says why.
-/

namespace SourceMarkers

/-- What stands at a place of a file tree. -/
inductive Node where
  | file (content : ByteArray)
  | directory
  | unreadable (cause : Text)
  /-- A directory whose names are not told. The way through it is open. -/
  | unlistable (cause : Text)

namespace Node

def isFile : Node → Bool
  | file _ | unreadable _ => true
  | directory | unlistable _ => false

def isDirectory : Node → Bool
  | directory | unlistable _ => true
  | file _ | unreadable _ => false

def content? : Node → Option ByteArray
  | file content => some content
  | _ => none

/-- What the system says if it refuses to read the file or to list the directory. -/
def refusal? : Node → Option Text
  | unreadable cause | unlistable cause => some cause
  | file _ | directory => none

end Node

/-- The names that lead from the root to a place. -/
abbrev Route := List Text

/-- Files and directories. The root is a directory that is not among the entries. -/
structure FileTree where
  entries : List (Route × Node) := []
  workingDirectory : Route := []

namespace FileTree

def node? (t : FileTree) (route : Route) : Option Node :=
  if route = [] then some .directory
  else (t.entries.find? fun e => e.1 = route).map Prod.snd

def isDirectoryAt (t : FileTree) (route : Route) : Bool := (t.node? route).any Node.isDirectory

def follow? (t : FileTree) (route : Route) : List Text → Option Route
  | [] => some route
  | part :: rest =>
    if t.isDirectoryAt route then
      if part = [] ∨ part = ['.'] then t.follow? route rest
      else if part = ['.', '.'] then t.follow? route.dropLast rest
      else t.follow? (route ++ [part]) rest
    else none

/-- The route that a path leads along. The empty path leads nowhere. -/
def route? (t : FileTree) (p : Path) : Option Route :=
  if p.spelling = [] then none
  else t.follow? (if p.absolute then [] else t.workingDirectory) p.parts

def find? (t : FileTree) (p : Path) : Option Node := (t.route? p).bind t.node?

def exists? (t : FileTree) (p : Path) : Bool := (t.find? p).isSome

def content? (t : FileTree) (p : Path) : Option ByteArray := (t.find? p).bind Node.content?

def refusal? (t : FileTree) (p : Path) : Option Text := (t.find? p).bind Node.refusal?

def isFile (t : FileTree) (p : Path) : Bool := (t.find? p).any Node.isFile

def isDirectory (t : FileTree) (p : Path) : Bool := (t.find? p).any Node.isDirectory

def isListable (t : FileTree) (p : Path) : Bool := t.isDirectory p && (t.refusal? p).isNone

def namesAt (t : FileTree) (route : Route) : List Text :=
  t.entries.filterMap fun e => if e.1.dropLast = route then e.1.getLast? else none

def names (t : FileTree) (p : Path) : List Text := (t.route? p).elim [] t.namesAt

def replace (t : FileTree) (route : Route) (node : Node) : FileTree :=
  if t.entries.any fun e => e.1 = route then
    { t with entries := t.entries.map fun e => if e.1 = route then (route, node) else e }
  else { t with entries := t.entries ++ [(route, node)] }

def makeDirectories (t : FileTree) (route : Route) : FileTree :=
  (List.range route.length).foldl
    (fun t k =>
      let ancestor := route.take (k + 1)
      if (t.node? ancestor).isSome then t else t.replace ancestor .directory) t

/-- The tree with a node put at the end of a route, and the directories on the way to it. Where a
directory is to be put and something is there already, that stays as it is. -/
def put (t : FileTree) (route : Route) (node : Node) : FileTree :=
  match node with
  | .directory => t.makeDirectories route
  | _ => (t.makeDirectories route.dropLast).replace route node

def putPath (t : FileTree) (p : Path) (node : Node) : FileTree :=
  t.put (t.workingDirectory ++ p.components.filterMap Path.Component.name?) node

end FileTree

end SourceMarkers
