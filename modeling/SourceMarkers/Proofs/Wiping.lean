import SourceMarkers.Glob.Expand
import SourceMarkers.Proofs.Routes

/-! # Trees without the bytes of some files

What can be read of the files that do not pass the gate can be wiped out of a
tree, and so can that they cannot be read. Paths lead where they led before, so
that the same files, directories and names are seen and patterns are expanded in
the same way. A file that passes the gate is still what it was.
-/

namespace SourceMarkers

namespace Node

/-- The node without what comes of reading a file. -/
def wipe : Node → Node
  | file _ | unreadable _ => file .empty
  | directory => directory
  | unlistable cause => unlistable cause

variable {node : Node}

theorem wipe_of_isFile (h : node.isFile) : node.wipe = file .empty := by
  cases node with
  | file | unreadable => rfl
  | directory | unlistable => cases h

theorem wipe_of_not_isFile (h : ¬ node.isFile) : node.wipe = node := by
  cases node with
  | file | unreadable => exact absurd rfl h
  | directory | unlistable => rfl

theorem isDirectory_of_isFile (h : node.isFile) : node.isDirectory = false := by
  cases node with
  | file | unreadable => rfl
  | directory | unlistable => cases h

@[simp] theorem isDirectory_wipe : node.wipe.isDirectory = node.isDirectory := by
  cases node <;> rfl

end Node

namespace Gate

def passesRoute (g : Gate) (route : Route) : Bool :=
  g.passes ((route.getLast?.bind Path.extensionOfName?).bind Dialect.ofExtension?)

/-- What is left of a node at the end of a route if it is wiped unless it passes the gate. -/
def leave (g : Gate) (route : Route) (node : Node) : Node :=
  if g.passesRoute route then node else node.wipe

variable {g : Gate} {route : Route} {node : Node}

@[simp] theorem leave_directory : g.leave route .directory = .directory := ite_self _

@[simp] theorem isDirectory_leave : (g.leave route node).isDirectory = node.isDirectory := by
  unfold leave
  split
  · rfl
  · exact Node.isDirectory_wipe

theorem leave_of_passesRoute (h : g.passesRoute route) (node : Node) : g.leave route node = node :=
  if_pos h

theorem leave_of_not_isFile (h : ¬ node.isFile) : g.leave route node = node := by
  rw [leave, Node.wipe_of_not_isFile h, ite_self]

end Gate

namespace FileTree

/-- The tree without the bytes of the files that do not pass the gate. -/
def wiped (t : FileTree) (g : Gate) : FileTree :=
  { t with entries := t.entries.map fun e => (e.1, g.leave e.1 e.2) }

/-- In both trees the same paths lead to files and to directories, and directories hold the same
names and are listed or not. -/
structure SameShape (t t' : FileTree) : Prop where
  isFile_eq : t.isFile = t'.isFile
  isDirectory_eq : t.isDirectory = t'.isDirectory
  exists?_eq : t.exists? = t'.exists?
  refusal?_eq : ∀ p, t'.isDirectory p → t.refusal? p = t'.refusal? p
  names_eq : t.names = t'.names
  length_eq : t.entries.length = t'.entries.length

theorem SameShape.isListable_eq {t t' : FileTree} (h : SameShape t t') :
    t.isListable = t'.isListable := by
  funext p
  rw [isListable, isListable, h.isDirectory_eq]
  cases hd : t'.isDirectory p with
  | false => rfl
  | true => rw [h.refusal?_eq p hd]

section Wiped

variable {t : FileTree} {g : Gate} {p : Path} {route : Route}

theorem node?_wiped (route : Route) :
    (t.wiped g).node? route = (t.node? route).map (g.leave route) := by
  unfold node?
  split
  · exact congrArg some Gate.leave_directory.symm
  · have hw : ∀ l : List (Route × Node),
        (l.map fun e => (e.1, g.leave e.1 e.2)).find? (fun e => e.1 = route) =
          (l.find? fun e => e.1 = route).map fun e => (e.1, g.leave e.1 e.2) :=
      fun l => List.find?_map
    rw [wiped, hw, Option.map_map, Option.map_map]
    apply Option.map_congr
    intro e he
    have hr : e.1 = route := by simpa using List.find?_some he
    rw [Function.comp_apply, Function.comp_apply, hr]

theorem isDirectoryAt_wiped (route : Route) :
    (t.wiped g).isDirectoryAt route = t.isDirectoryAt route := by
  rw [isDirectoryAt, isDirectoryAt, node?_wiped]
  cases t.node? route with
  | none => rfl
  | some node => exact Gate.isDirectory_leave

theorem follow?_wiped (route : Route) (parts : List Text) :
    (t.wiped g).follow? route parts = t.follow? route parts := by
  induction parts generalizing route with
  | nil => rfl
  | cons part parts ih => rw [follow?, follow?, isDirectoryAt_wiped, ih, ih, ih]

theorem route?_wiped (p : Path) : (t.wiped g).route? p = t.route? p := by
  rw [route?, route?, follow?_wiped]
  rfl

theorem passesRoute_of_passesPath (hg : g.passesPath p) (h : t.route? p = some route) :
    g.passesRoute route := by
  cases hn : p.fileName? with
  | none =>
    rw [Gate.passesPath, Dialect.ofPath?, Path.extension?, hn] at hg
    exact absurd hg Bool.false_ne_true
  | some n =>
    rw [Gate.passesPath, Dialect.ofPath?, Path.extension?, hn] at hg
    rw [Gate.passesRoute, getLast?_of_route? h hn]
    exact hg

/-- At the end of a path stands what stood there, unless it is a file that does not pass the
gate. -/
theorem find?_wiped (t : FileTree) (g : Gate) (p : Path) :
    (t.wiped g).find? p = t.find? p ∨ ¬ g.passesPath p ∧ ∃ node, node.isFile ∧
      t.find? p = some node ∧ (t.wiped g).find? p = some (.file .empty) := by
  rw [find?, find?, route?_wiped]
  cases hr : t.route? p with
  | none => exact .inl rfl
  | some route =>
    rw [Option.bind_some, Option.bind_some, node?_wiped]
    cases t.node? route with
    | none => exact .inl rfl
    | some node =>
      rw [Option.map_some]
      by_cases hg : g.passesRoute route
      · exact .inl (congrArg some (Gate.leave_of_passesRoute hg node))
      by_cases hf : node.isFile
      · have hl : g.leave route node = .file .empty := (if_neg hg).trans (Node.wipe_of_isFile hf)
        exact .inr ⟨mt (passesRoute_of_passesPath · hr) hg, node, hf, rfl, congrArg some hl⟩
      · exact .inl (congrArg some (Gate.leave_of_not_isFile hf))

theorem find?_wiped_of_passesPath (hg : g.passesPath p) : (t.wiped g).find? p = t.find? p :=
  (find?_wiped t g p).resolve_right fun h => h.1 hg

theorem namesAt_wiped (route : Route) : (t.wiped g).namesAt route = t.namesAt route := by
  rw [namesAt, namesAt, wiped, List.filterMap_map]
  rfl

theorem sameShape_wiped (t : FileTree) (g : Gate) : SameShape (t.wiped g) t where
  isFile_eq := by
    funext p
    rcases find?_wiped t g p with h | ⟨-, node, hf, h, hw⟩
    · rw [isFile, isFile, h]
    · rw [isFile, isFile, h, hw, Option.any_some, Option.any_some, hf]
      rfl
  isDirectory_eq := by
    funext p
    rcases find?_wiped t g p with h | ⟨-, node, hf, h, hw⟩
    · rw [isDirectory, isDirectory, h]
    · rw [isDirectory, isDirectory, h, hw, Option.any_some, Option.any_some,
        Node.isDirectory_of_isFile hf]
      rfl
  exists?_eq := by
    funext p
    rcases find?_wiped t g p with h | ⟨-, node, -, h, hw⟩
    · rw [exists?, exists?, h]
    · rw [exists?, exists?, h, hw]
      rfl
  refusal?_eq p hd := by
    rcases find?_wiped t g p with h | ⟨-, node, hf, h, -⟩
    · rw [refusal?, refusal?, h]
    · rw [isDirectory, h, Option.any_some, Node.isDirectory_of_isFile hf] at hd
      cases hd
  names_eq := by
    funext p
    rw [names, names, route?_wiped, funext (@namesAt_wiped t g)]
  length_eq := List.length_map _

end Wiped

end FileTree

namespace Glob

open FileTree

variable {t t' : FileTree} {directories : Bool} {p : Path}

theorem entries_congr (h : SameShape t t') (p : Path) : entries t p = entries t' p := by
  rw [entries, entries, h.isListable_eq, h.names_eq]

theorem descendants_congr (h : SameShape t t') (depth : Nat) (p : Path) :
    descendants t depth p = descendants t' depth p := by
  induction depth generalizing p with
  | zero => rfl
  | succ depth ih =>
    rw [descendants, descendants, entries_congr h]
    apply List.flatMap_congr
    intro e _
    rw [ih]

theorem below_congr (h : SameShape t t') (components : List (List Token)) :
    below t directories components = below t' directories components ∧
      atEntry t directories components = atEntry t' directories components := by
  induction components with
  | nil =>
    constructor
    · funext p
      rw [below, below, keep, keep, h.isDirectory_eq]
    · funext e
      rw [atEntry, atEntry, h.isDirectory_eq]
  | cons component rest ih =>
    obtain ⟨hb, he⟩ := ih
    by_cases hc : component = [.anyDepth]
    · subst hc
      constructor
      · funext p
        rw [below, below, descendants_congr h, h.length_eq, he]
      · funext e
        rw [atEntry, atEntry, he]
    · constructor
      · funext p
        rw [below, below, h.isDirectory_eq, h.isListable_eq, h.exists?_eq, entries_congr h, hb]
        · exact hc
        · exact hc
      · funext e
        rw [atEntry, atEntry, hb]
        · exact hc
        · exact hc

theorem expand_congr (h : SameShape t t') : expand t = expand t' := by
  funext pattern
  have hb : below t = below t' := by
    funext directories components
    exact (below_congr h components).1
  rw [expand, expand, hb]

end Glob

end SourceMarkers
