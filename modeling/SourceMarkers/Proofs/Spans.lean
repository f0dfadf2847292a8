import SourceMarkers.Proofs.FieldCuts
import SourceMarkers.Proofs.Findings
import SourceMarkers.Proofs.NeatFields

/-! # Spans of markers

A marker that is found stands at a span of the document, from its keyword to its
closing parenthesis. The spans follow each other, the lines of a marker are
those of its span, and its fields are neat.
-/

namespace SourceMarkers

open Segment

theorem Kind.hasReceiver_iff {k : Kind} : k.hasReceiver ↔ k = .objectCall := by
  cases k <;> decide

namespace Marker

def fields (m : Marker) : List Text := m.owner :: m.receiver.toList ++ [m.name, m.params]

/-- The marker is found at a span of a document. -/
structure StandsAt (d : Document) (span : Span) (m : Marker) : Prop where
  exists_source : ∃ s body t, d.text = s ++ (source (.marked m.kind body) ++ t) ∧
    span.start = Text.size s ∧ span.close = Text.size (s ++ (m.kind.opener ++ body)) ∧
      m.lastLine = m.firstLine + Text.breaks (source (.marked m.kind body))
  one_le_firstLine : 1 ≤ m.firstLine
  firstLine_le_lastLine : m.firstLine ≤ m.lastLine
  lastLine_le_lineCount : m.lastLine ≤ d.lineCount
  receiver_isSome_iff : m.receiver.isSome ↔ m.kind = .objectCall
  slash_not_mem_name : '/' ∉ m.name
  neat : ∀ t ∈ m.fields, t.Neat

end Marker

namespace Finding

def located? : Finding → Option (Span × Marker)
  | marker span m => some (span, m)
  | malformed .. | unclosed .. => none

/-- The first finding and its lines end before the second one begins, if both are markers. -/
def Precedes (f g : Finding) : Prop :=
  ∀ x ∈ f.located?, ∀ y ∈ g.located?, x.1.close < y.1.start ∧ x.2.lastLine ≤ y.2.firstLine

variable {f g : Finding} {p : Position} {s : Segment} {ss : List Segment} {x : Span × Marker}

theorem map_snd_located? (f : Finding) : f.located?.map Prod.snd = f.marker? := by
  cases f <;> rfl

theorem exists_of_mem_located? (h : ofSegment? p s = some f) (hx : x ∈ f.located?) :
    ∃ k body fields, s = .marked k body ∧ Fields.ofBody? k body = some fields ∧
      x.1 = ⟨p.offset, (p.after (k.opener ++ body)).offset⟩ ∧
      x.2 = .ofFields k fields p.line (p.after (k.opener ++ body)).line := by
  cases s with
  | plain c => cases h
  | unclosed k => cases h; cases hx
  | marked k body =>
    rw [ofSegment?_marked] at h
    cases hb : Fields.ofBody? k body with
    | none => rw [hb] at h; cases h; cases hx
    | some fields =>
      rw [hb] at h
      cases h
      cases hx
      exact ⟨k, body, fields, rfl, hb, rfl, rfl⟩

theorem breaks_source_marked (k : Kind) (body : Text) :
    Text.breaks (source (.marked k body)) = Text.breaks (k.opener ++ body) := by
  rw [source, Text.breaks_append]
  rfl

theorem located?_ofSegment? (h : ofSegment? p s = some f) (hx : x ∈ f.located?) :
    x.1.start = p.offset ∧ x.1.close < (p.after s.source).offset ∧
      x.2.firstLine = p.line ∧ x.2.lastLine ≤ (p.after s.source).line := by
  obtain ⟨k, body, fields, rfl, -, hs, hm⟩ := exists_of_mem_located? h hx
  rw [hs, hm]
  refine ⟨rfl, ?_, rfl, ?_⟩
  · have hc : 0 < Text.size [')'] := Text.size_pos (List.cons_ne_nil _ _)
    simp only [Position.offset_after, source, Text.size_append]
    omega
  · show p.line + Text.breaks (k.opener ++ body) ≤ p.line + Text.breaks (source (.marked k body))
    rw [breaks_source_marked]

theorem located?_ofSegments (h : f ∈ ofSegments p ss) (hx : x ∈ f.located?) :
    p.offset ≤ x.1.start ∧ p.line ≤ x.2.firstLine := by
  obtain ⟨ss₁, s, ss₂, -, hf⟩ := mem_ofSegments_iff.mp h
  obtain ⟨hs, -, hl, -⟩ := located?_ofSegment? hf hx
  rw [hs, hl]
  exact ⟨Nat.le_add_right _ _, Nat.le_add_right _ _⟩

theorem pairwise_precedes (p : Position) (ss : List Segment) :
    (ofSegments p ss).Pairwise Precedes := by
  induction ss generalizing p with
  | nil => exact List.Pairwise.nil
  | cons s ss ih =>
    rw [ofSegments, List.pairwise_append]
    refine ⟨?_, ih _, ?_⟩
    · cases ofSegment? p s with
      | none => exact List.Pairwise.nil
      | some f => exact List.pairwise_singleton _ _
    · intro f hf g hg x hx y hy
      obtain ⟨-, hc, -, hl⟩ := located?_ofSegment? (Option.mem_toList.mp hf) hx
      obtain ⟨hs, hl'⟩ := located?_ofSegments hg hy
      exact ⟨Nat.lt_of_lt_of_le hc hs, Nat.le_trans hl hl'⟩

end Finding

namespace Document

def located (d : Document) : List (Span × Marker) := d.findings.filterMap Finding.located?

variable {d : Document} {x y : Span × Marker}

theorem map_snd_located (d : Document) : d.located.map Prod.snd = d.markers := by
  rw [located, markers, List.map_filterMap]
  congr 1
  funext f
  exact f.map_snd_located?

/-- A located marker has the fields of a piece of the text, and the lines on which it stands. -/
theorem exists_source_of_mem_located (h : x ∈ d.located) :
    ∃ s k body fields t, d.text = s ++ (source (.marked k body) ++ t) ∧
      Fields.ofBody? k body = some fields ∧
      x.1 = ⟨Text.size s, Text.size (s ++ (k.opener ++ body))⟩ ∧
      x.2 = .ofFields k fields (1 + Text.breaks s)
        (1 + Text.breaks s + Text.breaks (source (.marked k body))) := by
  obtain ⟨f, hf, hx⟩ := List.mem_filterMap.mp h
  obtain ⟨ss₁, s, ss₂, hss, hs⟩ := Finding.mem_ofSegments_iff.mp hf
  obtain ⟨k, body, fields, rfl, hb, hspan, hm⟩ := Finding.exists_of_mem_located? hs hx
  obtain ⟨after, hc, -, -⟩ := (ofText_eq_iff.mp hss).of_marked
  refine ⟨sources ss₁, k, body, fields, after, ?_, hb, ?_, ?_⟩
  · simpa [source] using hc.eq_sources_append
  · rw [hspan]
    simp
  · rw [hm, Finding.breaks_source_marked]
    rfl

theorem standsAt_of_mem_located (h : x ∈ d.located) : x.2.StandsAt d x.1 := by
  obtain ⟨s, k, body, fields, t, ht, hb, hspan, hm⟩ := exists_source_of_mem_located h
  have hparts := Fields.partOf_of_ofBody? hb
  have hf : x.2.firstLine = 1 + Text.breaks s := by rw [hm]; rfl
  have hl : x.2.lastLine = x.2.firstLine + Text.breaks (source (.marked k body)) := by rw [hm]; rfl
  have hk : x.2.kind = k := by rw [hm]; rfl
  constructor
  · refine ⟨s, body, t, hk ▸ ht, ?_, ?_, hk ▸ hl⟩
    · rw [hspan]
    · rw [hspan, hk]
  · omega
  · omega
  · rw [lineCount, ht, Text.breaks_append, Text.breaks_append]
    omega
  · rw [hk, ← Kind.hasReceiver_iff, ← hparts.receiver_isSome, hm]
    simp [Marker.ofFields]
  · rw [hm]
    intro hs
    rcases Text.mem_of_mem_tidy hs with hs | hs
    · exact hparts.slash_not_mem_name hs
    · cases hs
  · intro t ht
    simp only [hm, Marker.fields, Marker.ofFields, List.cons_append, List.mem_cons,
      List.mem_append, Option.mem_toList, Option.map_eq_some_iff, List.not_mem_nil, or_false] at ht
    rcases ht with rfl | ⟨raw, -, rfl⟩ | rfl | rfl
    · exact Text.neat_tidy _
    · exact Text.neat_tidy _
    · exact Text.neat_tidy _
    · exact Text.neat_tidyParams _

theorem start_le_close_of_mem_located (h : x ∈ d.located) : x.1.start ≤ x.1.close := by
  obtain ⟨s, body, t, -, hs, hc, -⟩ := (standsAt_of_mem_located h).exists_source
  rw [hs, hc]
  exact Text.size_le_size_append s _

/-- No marker begins within another one. -/
theorem close_lt_start_of_mem_located (hx : x ∈ d.located) (hy : y ∈ d.located)
    (h : x.1.start < y.1.start) : x.1.close < y.1.start := by
  have hp : d.located.Pairwise fun x y => x.1.close < y.1.start :=
    (Finding.pairwise_precedes {} _).filterMap _ fun f g hfg x hx y hy => (hfg x hx y hy).1
  rw [List.pairwise_iff_getElem] at hp
  obtain ⟨i, hi, rfl⟩ := List.getElem_of_mem hx
  obtain ⟨j, hj, rfl⟩ := List.getElem_of_mem hy
  rcases Nat.lt_trichotomy i j with hij | rfl | hij
  · exact hp i j hi hj hij
  · exact absurd h (Nat.lt_irrefl _)
  · have hlt := hp j i hj hi hij
    have hle := start_le_close_of_mem_located hy
    omega

/-- The markers of a document stand at spans that follow each other, on lines that do not go back,
with fields that can be told apart and are neat. -/
theorem markers_stand (d : Document) :
    d.located.map Prod.snd = d.markers ∧ (∀ x ∈ d.located, x.2.StandsAt d x.1) ∧
      d.located.Pairwise fun x y => x.1.close < y.1.start ∧ x.2.lastLine ≤ y.2.firstLine := by
  refine ⟨map_snd_located d, fun x hx => standsAt_of_mem_located hx, ?_⟩
  exact (Finding.pairwise_precedes {} _).filterMap _ fun f g h x hx y hy => h x hx y hy

end Document

end SourceMarkers
