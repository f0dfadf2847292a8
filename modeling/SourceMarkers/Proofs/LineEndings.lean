import SourceMarkers.Proofs.CarriageReturns
import SourceMarkers.Proofs.FieldCuts
import SourceMarkers.Proofs.Joining

/-! # Line endings

A source with a carriage return before each line feed and one without them have
the same markers, on the same lines, but for the line breaks in the literals of
their fields.
-/

namespace SourceMarkers

open Segment

namespace Kind

theorem carriageReturn_not_mem_opener (k : Kind) : '\r' ∉ k.opener := by cases k <;> decide

theorem newline_not_mem_keyword (k : Kind) : '\n' ∉ k.keyword :=
  fun h => k.newline_not_mem_opener (List.mem_append_left ['('] h)

end Kind

namespace Segment

variable {rest t : Text} {ss : List Segment}

def crlf : Segment → List Segment
  | plain c => (Text.crlf [c]).map plain
  | unclosed k => [unclosed k]
  | marked k body => [marked k (Text.crlf body)]

theorem sources_crlf (s : Segment) : sources s.crlf = Text.crlf s.source := by
  cases s with
  | plain c =>
    have hp : ∀ u : Text, sources (u.map plain) = u := by
      intro u
      induction u with
      | nil => rfl
      | cons d u ih => exact congrArg (d :: ·) ih
    exact hp _
  | unclosed k =>
    rw [crlf, sources_cons, sources_nil, List.append_nil, source,
      Text.crlf_of_not_mem k.newline_not_mem_keyword]
  | marked k body =>
    rw [crlf, sources_cons, sources_nil, List.append_nil, source, source, Text.crlf_append,
      Text.crlf_append, Text.crlf_of_not_mem k.newline_not_mem_opener]
    rfl

/-- With carriage returns a text has the same keywords, and they stand as before. -/
theorem Cut.crlf (h : Cut rest t ss) :
    Cut (Text.crlf rest) (Text.crlf t) (ss.flatMap Segment.crlf) := by
  induction h with
  | nil => exact .nil
  | @plain c t ss hk _ ih =>
    by_cases hc : c = '\n'
    · subst hc
      have hn : ∀ d, d = '\r' ∨ d = '\n' → ∀ (u : Text) (k : Kind), ¬ k.opener <+: d :: u := by
        rintro d (rfl | rfl) u <;>
          exact Kind.not_opener_prefix_cons fun k => by cases k <;> decide
      exact .plain (hn '\r' (Or.inl rfl) _) (.plain (hn '\n' (Or.inr rfl) _) ih)
    · have hs : (Segment.plain c).crlf = [.plain c] := by
        rw [Segment.crlf, Text.crlf_cons_of_ne hc]
        rfl
      rw [List.flatMap_cons, hs, Text.crlf_cons_of_ne hc]
      refine .plain (fun k hp => ?_) ih
      rw [← Text.crlf_cons_of_ne hc] at hp
      exact hk k ((Text.prefix_crlf_iff k.newline_not_mem_opener
        k.carriageReturn_not_mem_opener).mp hp)
  | @unclosed k t ss ht _ ih =>
    rw [Text.crlf_append, Text.crlf_of_not_mem k.newline_not_mem_opener]
    exact .unclosed ((Text.walk?_crlf_eq_none (by decide)).mpr ht) ih
  | @marked k body t ss hb _ ih =>
    rw [Text.crlf_append, Text.crlf_append, Text.crlf_of_not_mem k.newline_not_mem_opener,
      Text.crlf_cons_of_ne (by decide)]
    exact .marked ((Text.freeOf_crlf (by decide)).mpr hb) ih

theorem ofText_crlf : ofText (Text.crlf t) = (ofText t).flatMap Segment.crlf :=
  ofText_eq_iff.mpr (cut_ofText t).crlf

end Segment

namespace Fields

variable {k : Kind} {body t : Text}

/-- The fields of a body with carriage returns, of which the parameters may end with one more. -/
def crlf (w : Text) (f : Fields) : Fields where
  owner := Text.crlf f.owner
  receiver := f.receiver.map Text.crlf
  name := Text.crlf f.name
  params := Text.crlf f.params ++ w

theorem cutComma?_crlf :
    cutComma? (Text.crlf t) = (cutComma? t).map (Prod.map Text.crlf Text.crlf) :=
  Text.cut_crlf (by decide) (by decide) cutComma?_eq_some_iff (Text.freeOf_crlf (by decide))

theorem cutSlash?_crlf :
    cutSlash? (Text.crlf t) = (cutSlash? t).map (Prod.map Text.crlf Text.crlf) :=
  Text.cut_crlf (by decide) (by decide) cutSlash?_eq_some_iff <|
    not_congr (Text.mem_crlf_iff (by decide))

theorem finish?_crlf (owner : Text) (receiver : Option Text) (t : Text) :
    ∃ w, (w = [] ∨ w = ['\r']) ∧
      finish? (Text.crlf owner) (receiver.map Text.crlf) (Text.crlf t) =
        (finish? owner receiver t).map (crlf w) := by
  unfold finish?
  rw [cutSlash?_crlf]
  cases cutSlash? t with
  | none => exact ⟨[], Or.inl rfl, rfl⟩
  | some p =>
    obtain ⟨w, hw, hp⟩ := Text.dropLast_crlf p.2
    exact ⟨w, hw, by simp [crlf, hp]⟩

theorem ofBody?_crlf (k : Kind) (body : Text) :
    ∃ w, (w = [] ∨ w = ['\r']) ∧
      ofBody? k (Text.crlf body) = (ofBody? k body).map (crlf w) := by
  unfold ofBody?
  rw [cutComma?_crlf]
  cases cutComma? body with
  | none => exact ⟨[], Or.inl rfl, rfl⟩
  | some p =>
    cases hk : k.hasReceiver with
    | false => exact finish?_crlf p.1 none p.2
    | true =>
      cases hq : cutComma? p.2 with
      | none =>
        refine ⟨[], Or.inl rfl, ?_⟩
        simp [cutComma?_crlf, hq]
      | some q =>
        obtain ⟨w, hw, he⟩ := finish?_crlf p.1 (some q.1) q.2
        refine ⟨w, hw, ?_⟩
        simp only [Option.map_some, if_true, Option.bind_eq_bind, Option.bind_some, Prod.map_fst,
          Prod.map_snd, cutComma?_crlf, hq]
        exact he

end Fields

namespace Marker

/-- The marker with a carriage return before each line feed of its fields. -/
def crlf (m : Marker) : Marker :=
  { m with
    owner := Text.crlf m.owner
    receiver := m.receiver.map Text.crlf
    name := Text.crlf m.name
    params := Text.crlf m.params }

theorem ofFields_crlf {k : Kind} {body w : Text} {f : Fields} {first last : Nat}
    (h : Fields.ofBody? k body = some f) (hr : '\r' ∉ body) (hw : w = [] ∨ w = ['\r']) :
    ofFields k (f.crlf w) first last = (ofFields k f first last).crlf := by
  have hf := Fields.partOf_of_ofBody? h
  have hparams : Text.tidyParams (Text.crlf f.params ++ w) =
      Text.crlf (Text.tidyParams f.params) := by
    rw [← Text.tidyParams_crlf fun hm => hr (hf.params_subset hm)]
    rcases hw with rfl | rfl
    · rw [List.append_nil]
    · exact Text.tidyParams_concat_carriageReturn
  have hreceiver : (f.receiver.map Text.crlf).map Text.tidy =
      (f.receiver.map Text.tidy).map Text.crlf := by
    cases hv : f.receiver with
    | none => rfl
    | some r => exact congrArg some (Text.tidy_crlf fun hm => hr (hf.receiver_subset r hv hm))
  rw [ofFields, ofFields, crlf, Fields.crlf, Text.tidy_crlf fun hm => hr (hf.owner_subset hm),
    Text.tidy_crlf fun hm => hr (hf.name_subset hm), hparams, hreceiver]

end Marker

namespace Finding

variable {p p' : Position} {s : Segment} {ss : List Segment}

theorem ofSegments_singleton : ofSegments p [s] = (ofSegment? p s).toList := List.append_nil _

theorem filterMap_ofSegments_crlf_self (h : '\r' ∉ s.source) (hp : p'.line = p.line) :
    (ofSegments p' s.crlf).filterMap marker? =
      ((ofSegments p [s]).filterMap marker?).map Marker.crlf := by
  cases s with
  | plain c =>
    have hn : ∀ (u : Text) (p : Position), ofSegments p (u.map Segment.plain) = [] := by
      intro u
      induction u with
      | nil => exact fun p => rfl
      | cons d u ih => exact fun p => ih _
    rw [Segment.crlf, hn]
    rfl
  | unclosed k => rfl
  | marked k body =>
    have hr : '\r' ∉ body := fun hm => h (by simp [source, hm])
    have hl : (p'.after (k.opener ++ Text.crlf body)).line = (p.after (k.opener ++ body)).line := by
      simp [hp]
    obtain ⟨w, hw, he⟩ := Fields.ofBody?_crlf k body
    rw [Segment.crlf, ofSegments_singleton, ofSegments_singleton, ofSegment?_marked,
      ofSegment?_marked, he, hl, hp]
    cases hb : Fields.ofBody? k body with
    | none => rfl
    | some f => exact congrArg (fun m => [m]) (Marker.ofFields_crlf hb hr hw)

theorem filterMap_ofSegments_crlf (h : '\r' ∉ sources ss) (hp : p'.line = p.line) :
    (ofSegments p' (ss.flatMap Segment.crlf)).filterMap marker? =
      ((ofSegments p ss).filterMap marker?).map Marker.crlf := by
  induction ss generalizing p p' with
  | nil => rfl
  | cons s ss ih =>
    rw [sources_cons, List.mem_append, not_or] at h
    have hl : (p'.after (sources s.crlf)).line = (p.after (sources [s])).line := by
      rw [sources_crlf, sources_cons, sources_nil, List.append_nil, Position.line_after,
        Position.line_after, Text.breaks_crlf, hp]
    rw [List.flatMap_cons, ← List.singleton_append (x := s), ofSegments_append, ofSegments_append,
      List.filterMap_append, List.filterMap_append, List.map_append,
      filterMap_ofSegments_crlf_self h.1 hp, ih h.2 hl]

end Finding

namespace Document

/-- The document with a carriage return before each line feed. -/
def crlf (d : Document) : Document := ⟨Text.crlf d.text⟩

variable {d : Document}

theorem markers_crlf (h : '\r' ∉ d.text) : d.crlf.markers = d.markers.map Marker.crlf := by
  have hs : d.text = sources (ofText d.text) := by
    simpa using (cut_ofText d.text).eq_sources_append
  unfold markers findings crlf
  rw [ofText_crlf]
  exact Finding.filterMap_ofSegments_crlf (hs ▸ h) rfl

end Document

end SourceMarkers
