import SourceMarkers.Dialect
import SourceMarkers.FileTree
import SourceMarkers.Proofs.PathOrder

/-! # Where paths lead

The components of a path tell where it leads, if it leads anywhere. So two paths
with the same components that are both files are one file, and the last name on
the way to a file is the name by which the path calls it.
-/

namespace SourceMarkers

namespace Path

def Component.enter (route : Route) : Component → Route
  | root => []
  | here => route
  | parent => route.dropLast
  | name n => route ++ [n]

variable {p q : Path} {n : Text}

theorem Component.eq_name_of_name?_eq_some {c : Component} (h : c.name? = some n) :
    c = .name n := by
  cases c <;> cases h
  rfl

theorem exists_components_of_fileName? (h : p.fileName? = some n) :
    ∃ cs, p.components = cs ++ [.name n] := by
  obtain ⟨c, hc, hn⟩ := Option.bind_eq_some_iff.mp h
  obtain ⟨cs, hcs⟩ := List.getLast?_eq_some_iff.mp hc
  exact ⟨cs, hcs.trans (by rw [Component.eq_name_of_name?_eq_some hn])⟩

theorem extension?_congr (h : same p q) : p.extension? = q.extension? := by
  rw [extension?, extension?, fileName?, fileName?, same_iff.mp h]

end Path

theorem Gate.passesPath_congr {p q : Path} (gate : Gate) (h : Path.same p q) :
    gate.passesPath p = gate.passesPath q := by
  rw [passesPath, passesPath, Dialect.ofPath?, Dialect.ofPath?, Path.extension?_congr h]

namespace FileTree

open SourceMarkers.Path

variable {t : FileTree} {p q : Path} {route route' : Route} {parts : List Text}

theorem follow?_eq_some (h : t.follow? route parts = some route') :
    route' = (parts.filterMap Component.ofPart?).foldl Component.enter route := by
  induction parts generalizing route with
  | nil => exact (Option.some.inj h).symm
  | cons part parts ih =>
    rw [follow?] at h
    split at h
    · split at h
      · next hp =>
        have hc : Component.ofPart? part = none := if_pos hp
        rw [List.filterMap_cons_none hc]
        exact ih h
      · next hp =>
        split at h
        · next hd =>
          have hc : Component.ofPart? part = some .parent := (if_neg hp).trans (if_pos hd)
          rw [List.filterMap_cons_some hc]
          exact ih h
        · next hd =>
          have hc : Component.ofPart? part = some (.name part) := (if_neg hp).trans (if_neg hd)
          rw [List.filterMap_cons_some hc]
          exact ih h
    · cases h

theorem route?_eq_some (h : t.route? p = some route) :
    route = p.components.foldl Component.enter t.workingDirectory := by
  rw [route?] at h
  split at h
  · cases h
  · rw [follow?_eq_some h, components, List.foldl_append]
    congr 1
    split
    · rfl
    · split <;> rfl

/-- Paths with the same components that lead anywhere lead to the same place. -/
theorem route?_congr (h : same p q) (hp : t.route? p = some route)
    (hq : t.route? q = some route') : route = route' := by
  rw [route?_eq_some hp, route?_eq_some hq, same_iff.mp h]

theorem getLast?_of_route? {n : Text} (h : t.route? p = some route) (hn : p.fileName? = some n) :
    route.getLast? = some n := by
  obtain ⟨cs, hcs⟩ := exists_components_of_fileName? hn
  rw [route?_eq_some h, hcs, List.foldl_append]
  exact List.getLast?_concat

theorem exists_route_of_find? {node : Node} (h : t.find? p = some node) :
    ∃ route, t.route? p = some route ∧ t.node? route = some node :=
  Option.bind_eq_some_iff.mp h

theorem isFile_iff : t.isFile p ↔ ∃ node, t.find? p = some node ∧ node.isFile :=
  Option.any_eq_true _ _

theorem isDirectory_iff : t.isDirectory p ↔ ∃ node, t.find? p = some node ∧ node.isDirectory :=
  Option.any_eq_true _ _

theorem isListable_iff : t.isListable p ↔ t.isDirectory p ∧ t.refusal? p = none := by
  rw [isListable, Bool.and_eq_true, Option.isNone_iff_eq_none]

theorem not_isFile_of_isDirectory (h : t.isDirectory p) : ¬ t.isFile p := by
  obtain ⟨node, hn, hd⟩ := isDirectory_iff.mp h
  rw [isFile, hn, Option.any_some]
  cases node with
  | file | unreadable => cases hd
  | directory | unlistable => exact Bool.false_ne_true

theorem isSome_content? (hp : t.isFile p) (h : t.refusal? p = none) : (t.content? p).isSome := by
  obtain ⟨node, hn, hf⟩ := isFile_iff.mp hp
  rw [refusal?, hn, Option.bind_some] at h
  rw [content?, hn, Option.bind_some]
  cases node with
  | file content => rfl
  | unreadable => cases h
  | directory | unlistable => cases hf

theorem refusal?_eq_none {bytes : ByteArray} (h : t.content? p = some bytes) :
    t.refusal? p = none := by
  obtain ⟨node, hn, hc⟩ := Option.bind_eq_some_iff.mp h
  rw [refusal?, hn, Option.bind_some]
  cases node with
  | file | directory => rfl
  | unreadable | unlistable => cases hc

theorem find?_congr (h : same p q) (hp : t.isFile p) (hq : t.isFile q) :
    t.find? p = t.find? q := by
  obtain ⟨a, ha, -⟩ := isFile_iff.mp hp
  obtain ⟨b, hb, -⟩ := isFile_iff.mp hq
  obtain ⟨r, hr, -⟩ := exists_route_of_find? ha
  obtain ⟨r', hr', -⟩ := exists_route_of_find? hb
  rw [find?, find?, hr, hr', route?_congr h hr hr']

end FileTree

end SourceMarkers
