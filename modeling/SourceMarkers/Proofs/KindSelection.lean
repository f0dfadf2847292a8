import SourceMarkers.Proofs.FileSessions
import SourceMarkers.Proofs.Insertions
import SourceMarkers.Proofs.Spans

/-! # Reports on some kinds

A report has a part for each marker that it shows, and the annotated report has
one for each line besides. A report on some kinds is the report on all markers
without the parts of the other kinds, since each marker is shown by itself and
the kinds play no role in how a source is cut.
-/

namespace SourceMarkers

/-- Markers of the kind are asked for. Without any kinds, all markers are. -/
def Kind.asked (only : List Kind) (k : Kind) : Bool := only.isEmpty || k ∈ only

theorem Kind.asked_of_forall_mem {only : List Kind} (h : ∀ k, k ∈ only) :
    asked only = asked [] := by
  funext k
  rw [asked, decide_eq_true (h k), Bool.or_true]
  rfl

namespace Document

variable {d : Document} {ms : List Marker} {n : Nat}

/-- The lines that the annotated report shows, which are all but the empty one behind the last line
break. -/
def shownLines (d : Document) : List Text :=
  if d.text.getLast? = some '\n' then d.lines.dropLast else d.lines

def annotationAt? (d : Document) (n : Nat) (m : Marker) : Option Annotation :=
  (Placement.ofMarker d m).shown?.filter fun a => a.line = n

theorem filter_annotations :
    (d.annotations ms).filter (fun a => a.line = n) = ms.filterMap (d.annotationAt? n) := by
  rw [annotations, List.filterMap_map, List.filter_filterMap]
  rfl

end Document

namespace Report

open Text Document

/-- A part of a report, which shows a marker of a kind or a line of the source. -/
structure Part where
  kind? : Option Kind := none
  text : Text
deriving DecidableEq, Repr

def Part.asked (only : List Kind) (p : Part) : Bool := p.kind?.all (Kind.asked only)

theorem Part.asked_of_forall_mem {only : List Kind} (h : ∀ k, k ∈ only) :
    asked only = asked [] := by
  funext p
  rw [asked, asked, Kind.asked_of_forall_mem h]

def lineParts (d : Document) (ms : List Marker) (l : Text) (n : Nat) : List Part :=
  { text := (Piece.line l).text } :: ms.filterMap fun m =>
    (d.annotationAt? n m).map fun a => ⟨some m.kind, (Piece.inserted l a).text⟩

def annotatedParts (d : Document) (ms : List Marker) : List Part :=
  (d.shownLines.zipIdx 1).flatMap fun x => lineParts d ms x.1 x.2

variable {d : Document} {ms : List Marker} {l : Text} {n : Nat} {only : List Kind}

theorem flatMap_text_lineParts :
    (lineParts d ms l n).flatMap Part.text =
      (linePieces (d.annotations ms) l n).flatMap Piece.text := by
  rw [lineParts, linePieces, filter_annotations, List.flatMap_cons, List.flatMap_cons,
    List.map_filterMap, List.flatMap_def, List.flatMap_def, List.map_filterMap, List.map_filterMap]
  congr 2
  refine List.filterMap_congr fun m _ => ?_
  rw [Option.map_map, Option.map_map]
  rfl

theorem annotated_eq_flatMap :
    annotated d (d.annotations ms) = (annotatedParts d ms).flatMap Part.text := by
  have hp : ∀ ls : List Text, ((ls.zipIdx 1).flatMap fun x => lineParts d ms x.1 x.2).flatMap
      Part.text = ((ls.zipIdx 1).flatMap fun x =>
        linePieces (d.annotations ms) x.1 x.2).flatMap Piece.text := by
    intro ls
    rw [List.flatMap_assoc, List.flatMap_assoc]
    exact List.flatMap_congr fun x _ => flatMap_text_lineParts
  rw [annotatedParts, hp, shownLines]
  by_cases h : d.text.getLast? = some '\n'
  · -- The piece that the report leaves out is the empty last line, below which nothing is inserted.
    obtain ⟨ls, l, hl⟩ := exists_lines_eq d
    obtain ⟨rfl, -⟩ := (getLast?_text_iff hl).mp h
    obtain ⟨ps, hps, hr⟩ := annotated_of_ended ms h
    rw [pieces_eq_append hl, linePieces_nil (line?_last hl)] at hps
    rw [if_pos h, hl, List.dropLast_concat, hr, List.append_cancel_right hps]
  · rw [if_neg h]
    exact annotated_of_not_ended h

theorem lineParts_filter :
    lineParts d (ms.filter fun m => m.kind.asked only) l n =
      (lineParts d ms l n).filter (Part.asked only) := by
  rw [lineParts, lineParts, List.filter_cons_of_pos rfl, List.filterMap_filter,
    List.filter_filterMap]
  congr 1
  refine List.filterMap_congr fun m _ => ?_
  cases d.annotationAt? n m with
  | none => exact ite_self _
  | some a =>
    rw [Option.map_some, Option.filter_some]
    rfl

theorem annotatedParts_filter :
    annotatedParts d (ms.filter fun m => m.kind.asked only) =
      (annotatedParts d ms).filter (Part.asked only) := by
  rw [annotatedParts, annotatedParts, List.filter_flatMap]
  exact List.flatMap_congr fun x _ => lineParts_filter

theorem map_filter_asked (f : Marker → Text) :
    ((ms.filter fun m => m.kind.asked only).map fun m => (⟨some m.kind, f m⟩ : Part)) =
      (ms.map fun m => ⟨some m.kind, f m⟩).filter (Part.asked only) := by
  rw [List.filter_map]
  rfl

end Report

namespace Format

open Report

variable {f : Format} {source : Text} {d : Document} {ms : List Marker} {only : List Kind}

def parts (f : Format) (source : Text) (d : Document) (ms : List Marker) : List Part :=
  match f with
  | listing => ms.map fun m => ⟨some m.kind, entry source m⟩
  | annotated => annotatedParts d ms
  | jsonLines => ms.map fun m => ⟨some m.kind, jsonLine source m⟩

theorem report_eq_flatMap : f.report source d ms = (f.parts source d ms).flatMap Part.text := by
  cases f with
  | annotated => exact annotated_eq_flatMap
  | listing | jsonLines =>
    rw [parts, List.flatMap_map]
    rfl

theorem parts_filter :
    f.parts source d (ms.filter fun m => m.kind.asked only) =
      (f.parts source d ms).filter (Part.asked only) := by
  cases f with
  | listing => exact map_filter_asked _
  | annotated => exact annotatedParts_filter
  | jsonLines => exact map_filter_asked _

end Format

namespace Command

open Attempt Outcome Report

variable {s : Surroundings} {expand : Expansion} {o : Options} {format : Format} {headers : Bool}
  {only : List Kind} {source text : Text} {d : Document} {p : Path} {t : FileTree}

theorem selected_eq_filter : selected only d = d.markers.filter fun m => m.kind.asked only := by
  unfold selected Kind.asked
  cases only with
  | nil => exact (List.filter_eq_self.mpr fun m _ => rfl).symm
  | cons k only => rfl

/-- A report on some kinds is the report on all markers without the parts of the other kinds. -/
theorem reportText_eq :
    reportText format only headers source text =
      (if headers then header source else []) ++
        ((format.parts source ⟨text⟩ (Document.markers ⟨text⟩)).filter
          (Part.asked only)).flatMap Part.text := by
  rw [reportText, selected_eq_filter, Format.report_eq_flatMap, Format.parts_filter]

theorem value_reportFile_eq :
    (reportFile t o format headers p).value =
      ((t.content? p).bind decode?).toList.flatMap
        (reportText format o.only headers p.spelling) := by
  unfold reportFile
  cases hr : t.refusal? p with
  | some cause =>
    have hc : t.content? p = none := Option.eq_none_iff_forall_ne_some.mpr fun bytes hb => by
      cases (FileTree.refusal?_eq_none hb).symm.trans hr
    rw [hc]
    rfl
  | none =>
    dsimp only
    cases (t.content? p).bind decode? with
    | none => rfl
    | some text =>
      exact (List.flatMap_singleton (reportText format o.only headers p.spelling) text).symm

theorem value_reportInput_eq :
    (reportInput s o format).value =
      (if o.gate.admits o.dialect then (decode? s.input).toList else []).flatMap
        (reportText format o.only false "<stdin>".toList) := by
  unfold reportInput
  cases decode? s.input with
  | none =>
    rw [Option.toList_none, ite_self]
    rfl
  | some text =>
    dsimp only
    split
    · exact (List.flatMap_singleton (reportText format o.only false _) text).symm
    · rfl

theorem hindered_only_iff : Hindered s expand { o with only := only } ↔ Hindered s expand o :=
  ⟨@Hindered.mono s expand { o with only := only } o rfl fun _ => id,
    @Hindered.mono s expand o { o with only := only } rfl fun _ => id⟩

theorem fails_perform_only_iff :
    (perform s expand { o with only := only }).Fails ↔ (perform s expand o).Fails :=
  ⟨@fails_perform_mono s expand { o with only := only } o rfl rfl fun _ => id,
    @fails_perform_mono s expand o { o with only := only } rfl rfl fun _ => id⟩

/-- The kinds that are asked for play no role in which sources a session reports on. -/
theorem exists_value_perform_eq (hf : Format.ofName? o.format = some format)
    (h : ¬ (perform s expand o).Fails) :
    ∃ (headers : Bool) (sources : List (Text × Text)), ∀ only,
      (perform s expand { o with only := only }).value =
        sources.flatMap fun x => reportText format only headers x.1 x.2 := by
  by_cases hi : o.inputs = []
  · refine ⟨false, (if o.gate.admits o.dialect then (decode? s.input).toList else []).map
      (Prod.mk "<stdin>".toList), fun only => ?_⟩
    rw [@perform_input s expand { o with only := only } format hf hi, value_reportInput_eq,
      List.flatMap_map]
  · rw [perform_files hf hi, fails_reportFiles_iff] at h
    refine ⟨headed format (eligible s expand o), (eligible s expand o).flatMap fun p =>
      ((s.files.content? p).bind decode?).toList.map (Prod.mk p.spelling), fun only => ?_⟩
    rw [@perform_files s expand { o with only := only } format hf hi,
      value_reportFiles (mt hindered_only_iff.mp h), List.flatMap_assoc]
    refine List.flatMap_congr fun p _ => ?_
    rw [List.flatMap_map]
    exact value_reportFile_eq

theorem exists_run_eq (s : Surroundings) (hf : Format.ofName? o.format = some format) :
    ∃ (code : Nat) (headers : Bool) (sources : List (Text × Text)), ∀ only arguments,
      Options.ofArguments arguments = .ok { o with only := only } →
        (run s arguments).code = code ∧ (run s arguments).output =
          sources.flatMap fun x => reportText format only headers x.1 x.2 := by
  by_cases h : (perform s (Glob.expand s.files) o).Fails
  · refine ⟨1, false, [], fun only arguments ho => ?_⟩
    have hp : (perform s (Glob.expand s.files) { o with only := only }).Fails :=
      fails_perform_only_iff.mpr h
    rw [run, runWith_eq_ofAttempt ho, code_ofAttempt_eq_one_iff, output_ofAttempt]
    exact ⟨hp, value_of_fails hp⟩
  · obtain ⟨headers, sources, hv⟩ := exists_value_perform_eq hf h
    refine ⟨0, headers, sources, fun only arguments ho => ?_⟩
    rw [run, runWith_eq_ofAttempt ho, code_ofAttempt_eq_zero_iff, output_ofAttempt,
      fails_perform_only_iff]
    exact ⟨h, hv only⟩

/-- Asking for kinds leaves the parts of the other kinds out of the report on each source and
changes nothing else. All markers are still found, and none begins within another one, so that no
marker comes to light when the one around it is left out. -/
theorem only_filters (s : Surroundings) (hf : Format.ofName? o.format = some format) :
    (∃ (code : Nat) (headers : Bool) (sources : List (Text × Text)), ∀ only arguments,
      Options.ofArguments arguments = .ok { o with only := only } →
        (run s arguments).code = code ∧ (run s arguments).output =
          sources.flatMap fun x => reportText format only headers x.1 x.2) ∧
    ∀ headers source text only,
      let d : Document := ⟨text⟩
      let above := if headers then header source else []
      let parts := format.parts source d d.markers
      reportText format [] headers source text = above ++ parts.flatMap Part.text ∧
        reportText format only headers source text =
          above ++ (parts.filter (Part.asked only)).flatMap Part.text ∧
        (selected only d).Sublist d.markers ∧
        (d.located.filter fun x => x.2.kind.asked only).map Prod.snd = selected only d ∧
        (∀ x ∈ d.located, ∀ y ∈ d.located, x.1.start < y.1.start → x.1.close < y.1.start) ∧
        ((∀ k, k ∈ only) → reportText format only headers source text =
          reportText format [] headers source text) := by
  refine ⟨exists_run_eq s hf, fun headers source text only => ?_⟩
  intro d above parts
  refine ⟨?_, reportText_eq, ?_, ?_, ?_, ?_⟩
  · rw [reportText, Format.report_eq_flatMap]
    rfl
  · rw [selected_eq_filter]
    exact List.filter_sublist
  · rw [selected_eq_filter, ← Document.map_snd_located, List.filter_map]
    rfl
  · exact fun x hx y hy => Document.close_lt_start_of_mem_located hx hy
  · intro h
    rw [reportText_eq, reportText_eq, Part.asked_of_forall_mem h]

/-- A call within a definition stays hidden when only calls are asked for. -/
theorem only_filters_nested :
    let text := "MTD(A, a /NSCALL(n, f /1/)/)\nNSCALL(n, g /2/)".toList
    let parts := Format.annotated.parts [] ⟨text⟩ (Document.markers ⟨text⟩)
    Format.ofName? "annotate".toList = some .annotated ∧
      Options.ofArguments (["-fannotate", "--only", "nscall"].map String.toList) =
        .ok { format := "annotate".toList, only := [.namespaceCall] } ∧
      reportText .annotated [.namespaceCall] false [] text =
        (parts.filter (Part.asked [.namespaceCall])).flatMap Part.text ∧
      parts.filter (fun p => ! p.asked [.namespaceCall]) =
        [⟨some .classMethod, "A.a(NSCALL(n, f /1/))\n".toList⟩] ∧
      reportText .annotated [.namespaceCall] false [] text =
        "MTD(A, a /NSCALL(n, f /1/)/)\nNSCALL(n, g /2/)\nn::g(2)\n".toList := by
  intro text parts
  have hf : Format.ofName? "annotate".toList = some .annotated := by decide
  have hr : reportText .annotated [.namespaceCall] false [] text =
      (parts.filter (Part.asked [.namespaceCall])).flatMap Part.text :=
    ((@only_filters { format := "annotate".toList } .annotated {} hf).2 false [] text _).2.1
  refine ⟨hf, ?_, hr, ?_, ?_⟩
  · decide +kernel
  · decide +kernel
  · decide +kernel

end Command

end SourceMarkers
