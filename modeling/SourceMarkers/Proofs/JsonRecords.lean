import Mathlib.Data.List.Forall2
import SourceMarkers.Proofs.JsonReading
import SourceMarkers.Proofs.ReportEndings

/-! # Reading the JSON report

A line of the JSON report is an object whose keys depend on the kind of a marker.
What the report tells of a marker can be read off its line again, and so a report
determines the markers that it was made for.
-/

namespace SourceMarkers

namespace Kind

def ofLabel? (label : Text) : Option Kind := all.find? fun k => k.label = label

@[simp] theorem ofLabel?_label (k : Kind) : ofLabel? k.label = some k := by
  cases k <;> decide

end Kind

namespace Report

def ownerKey (k : Kind) : Text := if k.namespaced then "namespace".toList else "class".toList

def nameKey (k : Kind) : Text := if k = .namespaceCall then "function".toList else "method".toList

def keys (k : Kind) (received : Bool) : List Text :=
  ["source".toList, "kind".toList, ownerKey k] ++
    (if received then ["instance".toList] else []) ++
    [nameKey k, "params".toList, "start_line".toList, "end_line".toList, "rendering".toList]

/-- What a line of the JSON report tells. -/
structure Record where
  source : Text
  marker : Marker
  rendering : Text
deriving DecidableEq, Repr

namespace Record

def ofMarker (source : Text) (m : Marker) : Record := ⟨source, m, m.signature⟩

def textAt? (fs : List (Text × Json.Value)) (key : Text) : Option Text :=
  match fs.lookup key with
  | some (.string t) => some t
  | _ => none

def numberAt? (fs : List (Text × Json.Value)) (key : Text) : Option Nat :=
  match fs.lookup key with
  | some (.number n) => some n
  | _ => none

/-- The record that the members of an object give. They may stand in any order, but their keys have
to be those of the kind and each may occur only once. -/
def ofMembers? (fs : List (Text × Json.Value)) : Option Record := do
  let kind ← (textAt? fs "kind".toList).bind Kind.ofLabel?
  let receiver := textAt? fs "instance".toList
  if (fs.map Prod.fst).isPerm (keys kind receiver.isSome) then
    let source ← textAt? fs "source".toList
    let owner ← textAt? fs (ownerKey kind)
    let name ← textAt? fs (nameKey kind)
    let params ← textAt? fs "params".toList
    let firstLine ← numberAt? fs "start_line".toList
    let lastLine ← numberAt? fs "end_line".toList
    let rendering ← textAt? fs "rendering".toList
    return ⟨source, ⟨kind, owner, receiver, name, params, firstLine, lastLine⟩, rendering⟩
  else none

def ofLine? (line : Text) : Option Record := (Json.members? line).bind ofMembers?

end Record

variable {source source' : Text} {m : Marker} {ms ms' : List Marker} {l : Text}

section Lookup

variable {fs : List (Text × Json.Value)} {key : Text}

theorem lookup_of_mem {v : Json.Value} (hn : (fs.map Prod.fst).Nodup) (h : (key, v) ∈ fs) :
    fs.lookup key = some v := by
  obtain ⟨before, after, rfl⟩ := List.append_of_mem h
  refine List.lookup_eq_some_iff.mpr ⟨before, after, rfl, fun f hf => ?_⟩
  rw [List.map_append, List.map_cons] at hn
  have hne : f.1 ≠ key :=
    (List.nodup_append.mp hn).2.2 f.1 (List.mem_map_of_mem hf) key List.mem_cons_self
  exact bne_iff_ne.mpr hne.symm

theorem textAt?_of_mem {t : Text} (hn : (fs.map Prod.fst).Nodup) (h : (key, .string t) ∈ fs) :
    Record.textAt? fs key = some t := by
  rw [Record.textAt?, lookup_of_mem hn h]

theorem numberAt?_of_mem {n : Nat} (hn : (fs.map Prod.fst).Nodup) (h : (key, .number n) ∈ fs) :
    Record.numberAt? fs key = some n := by
  rw [Record.numberAt?, lookup_of_mem hn h]

theorem textAt?_eq_none (h : key ∉ fs.map Prod.fst) : Record.textAt? fs key = none := by
  have hl : fs.lookup key = none := by
    refine List.lookup_eq_none_iff.mpr fun f hf => bne_iff_ne.mpr ?_
    rintro rfl
    exact h (List.mem_map_of_mem hf)
  rw [Record.textAt?, hl]

end Lookup

theorem map_fst_members : (members source m).map Prod.fst = keys m.kind m.receiver.isSome := by
  unfold members keys
  cases m.receiver <;> rfl

theorem nodup_keys (k : Kind) (received : Bool) : (keys k received).Nodup := by
  cases k <;> cases received <;> decide

theorem mem_members_of_mem_front {f : Text × Json.Value}
    (h : f ∈ [("source".toList, .string source), ("kind".toList, .string m.kind.label),
      (ownerKey m.kind, .string m.owner)]) : f ∈ members source m :=
  List.mem_append_left _ (List.mem_append_left _ h)

theorem mem_members_of_mem_back {f : Text × Json.Value}
    (h : f ∈ [(nameKey m.kind, .string m.name), ("params".toList, .string m.params),
      ("start_line".toList, .number m.firstLine), ("end_line".toList, .number m.lastLine),
      ("rendering".toList, .string m.signature)]) : f ∈ members source m :=
  List.mem_append_right _ h

theorem textAt?_receiver (hn : ((members source m).map Prod.fst).Nodup) :
    Record.textAt? (members source m) "instance".toList = m.receiver := by
  cases hr : m.receiver with
  | none =>
    have hk : "instance".toList ∉ keys m.kind false := by
      cases m.kind <;> decide
    apply textAt?_eq_none
    rwa [map_fst_members, hr]
  | some r =>
    have hm : ("instance".toList, Json.Value.string r) ∈
        m.receiver.toList.map fun r => ("instance".toList, .string r) := by
      rw [hr]
      exact List.mem_singleton_self _
    exact textAt?_of_mem hn (List.mem_append_left _ (List.mem_append_right _ hm))

theorem ofMembers?_members :
    Record.ofMembers? (members source m) = some (Record.ofMarker source m) := by
  have hn : ((members source m).map Prod.fst).Nodup := map_fst_members ▸ nodup_keys _ _
  have hp : ((members source m).map Prod.fst).isPerm (keys m.kind m.receiver.isSome) :=
    List.isPerm_iff.mpr (map_fst_members ▸ .refl _)
  have hsource := textAt?_of_mem hn (mem_members_of_mem_front (.head _))
  have hkind := textAt?_of_mem hn (mem_members_of_mem_front (.tail _ (.head _)))
  have howner := textAt?_of_mem hn (mem_members_of_mem_front (.tail _ (.tail _ (.head _))))
  have hname := textAt?_of_mem hn (mem_members_of_mem_back (.head _))
  have hparams := textAt?_of_mem hn (mem_members_of_mem_back (.tail _ (.head _)))
  have hfirst := numberAt?_of_mem hn (mem_members_of_mem_back (.tail _ (.tail _ (.head _))))
  have hlast := numberAt?_of_mem hn
    (mem_members_of_mem_back (.tail _ (.tail _ (.tail _ (.head _)))))
  have hrendering := textAt?_of_mem hn
    (mem_members_of_mem_back (.tail _ (.tail _ (.tail _ (.tail _ (.head _))))))
  unfold Record.ofMembers?
  rw [hkind, textAt?_receiver hn, Option.bind_some, Kind.ofLabel?_label, hsource, hparams, hfirst,
    hlast, hrendering]
  simp only [bind, Option.bind_some, if_pos hp, howner, hname, pure, Record.ofMarker]

def line (source : Text) (m : Marker) : Text := Json.object (members source m)

theorem ofLine?_line : Record.ofLine? (line source m) = some (Record.ofMarker source m) := by
  rw [Record.ofLine?, line, Json.members?_object, Option.bind_some, ofMembers?_members]

theorem jsonLines_eq_ofClosed : jsonLines source ms = Text.ofClosed (ms.map (line source)) := by
  rw [Text.ofClosed, List.flatMap_map]
  rfl

theorem newline_not_mem_of_mem_map_line (h : l ∈ ms.map (line source)) : '\n' ∉ l := by
  obtain ⟨m, -, rfl⟩ := List.mem_map.mp h
  exact fun hn => absurd (Json.noControls_object _ '\n' hn) (by decide)

theorem map_ofLine?_lines :
    (ms.map (line source)).map Record.ofLine? =
      (ms.map (Record.ofMarker source)).map some := by
  rw [List.map_map, List.map_map]
  exact List.map_congr_left fun m _ => ofLine?_line

theorem map_ofMarker_eq_of_jsonLines_eq (h : jsonLines source ms = jsonLines source' ms') :
    ms.map (Record.ofMarker source) = ms'.map (Record.ofMarker source') := by
  rw [jsonLines_eq_ofClosed, jsonLines_eq_ofClosed] at h
  have hs := congrArg (List.splitOn '\n') h
  rw [Text.splitOn_ofClosed fun _ => newline_not_mem_of_mem_map_line,
    Text.splitOn_ofClosed fun _ => newline_not_mem_of_mem_map_line] at hs
  have hr := congrArg (List.map Record.ofLine?) (List.append_cancel_right hs)
  rw [map_ofLine?_lines, map_ofLine?_lines] at hr
  exact List.map_injective_iff.mpr (fun _ _ => Option.some.inj) hr

theorem jsonLines_eq_jsonLines_iff :
    jsonLines source ms = jsonLines source' ms' ↔ ms = ms' ∧ (ms ≠ [] → source = source') := by
  constructor
  · intro h
    have hr := map_ofMarker_eq_of_jsonLines_eq h
    have hm := congrArg (List.map Record.marker) hr
    rw [List.map_map, List.map_map] at hm
    have hm : ms = ms' := by simpa [Function.comp_def, Record.ofMarker] using hm
    refine ⟨hm, fun hne => ?_⟩
    obtain ⟨m, ms, rfl⟩ := List.exists_cons_of_ne_nil hne
    rw [← hm] at hr
    exact congrArg Record.source (List.cons.inj hr).1
  · rintro ⟨rfl, hs⟩
    cases ms with
    | nil => rfl
    | cons m ms => rw [hs (List.cons_ne_nil m ms)]

/-- The JSON report has a line for each marker, without control characters, and what it tells of the
marker is read off it. Reports are the same only for the same markers of a source of that name. -/
theorem json_lines_determine_markers (source : Text) (d : Document) (ms : List Marker) :
    (∃ ls, Format.jsonLines.report source d ms = Text.ofClosed ls ∧
      List.Forall₂ (fun m l => Json.NoControls l ∧
        Record.ofLine? l = some ⟨source, m, m.signature⟩) ms ls) ∧
      ∀ source' d' ms',
        Format.jsonLines.report source d ms = Format.jsonLines.report source' d' ms' ↔
          ms = ms' ∧ (ms ≠ [] → source = source') := by
  refine ⟨⟨ms.map (line source), jsonLines_eq_ofClosed, ?_⟩, ?_⟩
  · rw [List.forall₂_map_right_iff, List.forall₂_same]
    exact fun m _ => ⟨Json.noControls_object _, ofLine?_line⟩
  · exact fun source' d' ms' => jsonLines_eq_jsonLines_iff

end Report

end SourceMarkers
