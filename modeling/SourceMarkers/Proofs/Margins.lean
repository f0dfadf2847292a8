import Mathlib.Data.List.Forall2
import SourceMarkers.Margin
import SourceMarkers.Proofs.ReportEndings

/-! # What a margin shows

A margin remembers nothing: whatever has happened to it, it shows the annotations
of the document it has just been refreshed with, or none. Each marker whose
keyword stands on the line where the marker ends has one annotation, and the
annotations are in the order of the lines below which they stand.
-/

namespace SourceMarkers

namespace Text

variable {t w u : Text}

theorem before?_isSome_iff : (before? w t).isSome ↔ w <:+: t := by
  induction t with
  | nil =>
    rw [before?, List.infix_nil]
    cases w <;> simp
  | cons c t ih =>
    rw [before?, List.infix_cons_iff, ← List.isPrefixOf_iff_prefix, ← ih]
    cases w.isPrefixOf (c :: t) <;> simp

end Text

theorem Placement.mem_indent {t : Text} {c : Char} (h : c ∈ indent t) : c = ' ' ∨ c = '\t' := by
  obtain ⟨d, -, rfl⟩ := List.mem_map.mp h
  split
  · exact Or.inr rfl
  · exact Or.inl rfl

namespace Document

/-- The line on which the marker ends holds the opener of its kind. -/
def Shows (d : Document) (m : Marker) : Prop :=
  ∃ line ∈ d.line? m.lastLine, m.kind.opener <:+: line

instance (d : Document) : DecidablePred d.Shows :=
  fun m => inferInstanceAs (Decidable (∃ line ∈ d.line? m.lastLine, m.kind.opener <:+: line))

def AnnotatedBy (m : Marker) (a : Annotation) : Prop :=
  a.line = m.lastLine ∧ a.text = m.signature ∧ ∀ c ∈ a.indent, c = ' ' ∨ c = '\t'

/-- The annotations are those of the markers of a document. -/
structure Annotated (d : Document) (as : List Annotation) : Prop where
  entries : List.Forall₂ AnnotatedBy (d.markers.filter fun m => d.Shows m) as
  line_le : as.Pairwise fun a b => a.line ≤ b.line
  one_le_line : ∀ a ∈ as, 1 ≤ a.line
  line_le_lineCount : ∀ a ∈ as, a.line ≤ d.lineCount

variable {d : Document} {m : Marker} {ms : List Marker} {a : Annotation} {as : List Annotation}

theorem shows_iff : d.Shows m ↔ ∃ a, (Placement.ofMarker d m).shown? = some a := by
  rw [← Option.isSome_iff_exists, shown?_ofMarker, Option.isSome_map]
  constructor
  · rintro ⟨line, hl, hw⟩
    rw [Option.mem_def.mp hl]
    exact Text.before?_isSome_iff.mpr hw
  · intro h
    obtain ⟨before, hb⟩ := Option.isSome_iff_exists.mp h
    obtain ⟨line, hl, hb⟩ := Option.bind_eq_some_iff.mp hb
    exact ⟨line, hl, Text.before?_isSome_iff.mp (Option.isSome_of_eq_some hb)⟩

theorem annotatedBy_of_shown? (h : (Placement.ofMarker d m).shown? = some a) :
    AnnotatedBy m a := by
  rw [shown?_ofMarker] at h
  obtain ⟨before, -, rfl⟩ := Option.map_eq_some_iff.mp h
  exact ⟨rfl, rfl, fun c hc => Placement.mem_indent hc⟩

theorem annotations_cons (d : Document) (m : Marker) (ms : List Marker) :
    d.annotations (m :: ms) =
      (Placement.ofMarker d m).shown?.toList ++ d.annotations ms := by
  unfold annotations
  rw [List.map_cons, List.filterMap_cons]
  cases (Placement.ofMarker d m).shown? <;> rfl

/-- Each marker that can be shown has one annotation, and the others have none. -/
theorem forall₂_annotations (d : Document) (ms : List Marker) :
    List.Forall₂ AnnotatedBy (ms.filter fun m => d.Shows m) (d.annotations ms) := by
  induction ms with
  | nil => exact List.Forall₂.nil
  | cons m ms ih =>
    rw [annotations_cons]
    by_cases h : d.Shows m
    · obtain ⟨a, ha⟩ := shows_iff.mp h
      rw [List.filter_cons_of_pos (by simpa using h), ha]
      exact List.Forall₂.cons (annotatedBy_of_shown? ha) ih
    · have hn : (Placement.ofMarker d m).shown? = none := by
        rw [Option.eq_none_iff_forall_ne_some]
        exact fun a ha => h (shows_iff.mpr ⟨a, ha⟩)
      rw [List.filter_cons_of_neg (by simpa using h), hn]
      exact ih

theorem exists_standsAt (h : m ∈ d.markers) : ∃ span, m.StandsAt d span := by
  obtain ⟨x, hx, rfl⟩ := List.mem_map.mp (map_snd_located d ▸ h)
  exact ⟨x.1, standsAt_of_mem_located hx⟩

theorem pairwise_lastLine (d : Document) :
    d.markers.Pairwise fun m n => m.lastLine ≤ n.lastLine := by
  have hp : d.located.Pairwise fun x y => x.2.lastLine ≤ y.2.firstLine :=
    (Finding.pairwise_precedes {} _).filterMap _ fun f g h x hx y hy => (h x hx y hy).2
  rw [← map_snd_located, List.pairwise_map]
  apply hp.imp_of_mem
  intro x y _ hy h
  exact Nat.le_trans h (standsAt_of_mem_located hy).firstLine_le_lastLine

theorem map_line_eq (h : List.Forall₂ AnnotatedBy ms as) :
    as.map Annotation.line = ms.map Marker.lastLine := by
  induction h with
  | nil => rfl
  | cons ha _ ih => rw [List.map_cons, List.map_cons, ha.1, ih]

theorem annotated_annotations (d : Document) : d.Annotated (d.annotations d.markers) := by
  have he := forall₂_annotations d d.markers
  have hl := map_line_eq he
  have hm : ∀ a ∈ d.annotations d.markers, ∃ m ∈ d.markers, m.lastLine = a.line := by
    intro a ha
    obtain ⟨m, hm, hma⟩ := List.mem_map.mp (hl ▸ List.mem_map_of_mem ha)
    exact ⟨m, List.mem_of_mem_filter hm, hma⟩
  constructor
  · exact he
  · rw [← List.pairwise_map, hl, List.pairwise_map]
    exact (pairwise_lastLine d).filter _
  · intro a ha
    obtain ⟨m, hm, hma⟩ := hm a ha
    obtain ⟨span, hs⟩ := exists_standsAt hm
    rw [← hma]
    exact Nat.le_trans hs.one_le_firstLine hs.firstLine_le_lastLine
  · intro a ha
    obtain ⟨m, hm, hma⟩ := hm a ha
    obtain ⟨span, hs⟩ := exists_standsAt hm
    rw [← hma]
    exact hs.lastLine_le_lineCount

end Document

namespace Margin

/-- A step leaves nothing of the margin it is taken from. -/
theorem step_eq (m n : Margin) (s : Step) : m.step s = n.step s := by
  cases s <;> rfl

/-- After each step of a history, a margin is as if nothing else had happened to it. -/
theorem history_eq_map (m : Margin) (ss : List Step) : m.history ss = ss.map empty.step := by
  induction ss generalizing m with
  | nil => rfl
  | cons s ss ih => rw [history, ih, List.map_cons, step_eq m empty]

/-- Whatever has happened to a margin, after the last step it shows nothing, or just the annotations
of the document it was refreshed with. -/
theorem shows_last_document (m : Margin) (ss : List Step) (s : Step) :
    ∃ last, (m.history (ss ++ [s])).getLast? = some last ∧
      match s with
      | .renew | .clear => last.annotations = []
      | .refresh d =>
        last.annotations = d.annotations d.markers ∧ d.Annotated last.annotations := by
  refine ⟨empty.step s, ?_, ?_⟩
  · rw [history_eq_map, List.map_append, List.map_singleton, List.getLast?_concat]
  · cases s with
    | renew => exact annotations_empty
    | clear => exact annotations_clear empty
    | refresh d => exact ⟨rfl, d.annotated_annotations⟩

end Margin

end SourceMarkers
