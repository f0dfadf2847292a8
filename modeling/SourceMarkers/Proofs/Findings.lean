import SourceMarkers.Finding
import SourceMarkers.Proofs.Cut

/-! # Findings and their places

The findings of a text are those of its parts, each moved to where its part
stands. A text that is put in somewhere moves what stands behind it by its size
and by its line breaks.
-/

namespace SourceMarkers

open Segment

namespace Text

variable {s t : Text}

theorem size_pos (h : t ≠ []) : 0 < size t := by
  cases t with
  | nil => exact absurd rfl h
  | cons c t => have := c.utf8Size_pos; simp only [size_cons]; omega

theorem size_le_size_append (s t : Text) : size s ≤ size (s ++ t) := by
  rw [size_append]
  exact Nat.le_add_right _ _

end Text

namespace Position

variable {p : Position} {s t : Text}

@[simp] theorem after_nil : p.after [] = p := rfl

@[simp] theorem offset_after : (p.after t).offset = p.offset + Text.size t := rfl

@[simp] theorem line_after : (p.after t).line = p.line + Text.breaks t := rfl

theorem after_append : p.after (s ++ t) = (p.after s).after t := by
  simp [after, Nat.add_assoc]

theorem after_after_comm : (p.after s).after t = (p.after t).after s := by
  simp [after, Nat.add_right_comm]

theorem after_insert {u : Text} : p.after (s ++ (t ++ u)) = (p.after (s ++ u)).after t := by
  simp only [after_append]
  exact after_after_comm

end Position

namespace Finding

def start : Finding → Nat
  | marker span _ | malformed span _ _ => span.start
  | unclosed start _ => start

def kind : Finding → Kind
  | marker _ m => m.kind
  | malformed _ kind _ | unclosed _ kind => kind

def opening (f : Finding) : Nat := f.start + Text.size f.kind.keyword

/-- The byte offset of the parenthesis that closes the marker, if there is one. -/
def close? : Finding → Option Nat
  | marker span _ | malformed span _ _ => some span.close
  | unclosed .. => none

/-- The number by which what stands at an offset moves when something of size `n` is put in at
offset `o`. -/
def gain (o n offset : Nat) : Nat := if o ≤ offset then n else 0

/-- The finding after a text has been put in at a byte offset, which lies outside keywords. -/
def inserted (o : Nat) (u : Text) : Finding → Finding
  | marker span m => .marker ⟨span.start + gain o (Text.size u) span.start,
      span.close + gain o (Text.size u) span.close⟩
      { m with
        firstLine := m.firstLine + gain o (Text.breaks u) span.start
        lastLine := m.lastLine + gain o (Text.breaks u) span.close }
  | malformed span k line => .malformed ⟨span.start + gain o (Text.size u) span.start,
      span.close + gain o (Text.size u) span.close⟩ k
      (line + gain o (Text.breaks u) span.start)
  | unclosed start k => .unclosed (start + gain o (Text.size u) start) k

variable {p : Position} {s : Segment} {ss ss' : List Segment} {f : Finding} {k : Kind}
  {body u : Text} {o n x : Nat}

theorem gain_of_le (h : o ≤ x) : gain o n x = n := if_pos h

theorem gain_of_lt (h : x < o) : gain o n x = 0 := if_neg (Nat.not_le.mpr h)

theorem ofSegment?_marked (p : Position) (k : Kind) (body : Text) :
    ofSegment? p (.marked k body) =
      some (match Fields.ofBody? k body with
        | none => .malformed ⟨p.offset, (p.after (k.opener ++ body)).offset⟩ k p.line
        | some fields => .marker ⟨p.offset, (p.after (k.opener ++ body)).offset⟩
            (.ofFields k fields p.line (p.after (k.opener ++ body)).line)) := by
  rw [ofSegment?]
  cases Fields.ofBody? k body <;> rfl

theorem ofSegments_append :
    ofSegments p (ss ++ ss') = ofSegments p ss ++ ofSegments (p.after (sources ss)) ss' := by
  induction ss generalizing p with
  | nil => rfl
  | cons s ss ih =>
    have hs : sources (s :: ss) = s.source ++ sources ss := rfl
    rw [List.cons_append, ofSegments, ofSegments, ih, hs, Position.after_append, List.append_assoc]

theorem mem_ofSegments_iff :
    f ∈ ofSegments p ss ↔ ∃ ss₁ s ss₂, ss = ss₁ ++ s :: ss₂ ∧
      ofSegment? (p.after (sources ss₁)) s = some f := by
  constructor
  · intro h
    induction ss generalizing p with
    | nil => simp [ofSegments] at h
    | cons s ss ih =>
      rw [ofSegments, List.mem_append, Option.mem_toList] at h
      rcases h with h | h
      · exact ⟨[], s, ss, rfl, h⟩
      · obtain ⟨ss₁, s', ss₂, rfl, hf⟩ := ih h
        refine ⟨s :: ss₁, s', ss₂, rfl, ?_⟩
        rwa [← Position.after_append] at hf
  · rintro ⟨ss₁, s, ss₂, rfl, hf⟩
    rw [ofSegments_append, ofSegments, hf]
    simp

theorem of_ofSegment?_marked (h : ofSegment? p (.marked k body) = some f) :
    f.kind = k ∧ f.start = p.offset ∧ f.close? = some (p.after (k.opener ++ body)).offset := by
  rw [ofSegment?_marked] at h
  cases hf : Fields.ofBody? k body <;> rw [hf] at h <;> cases h <;> exact ⟨rfl, rfl, rfl⟩

theorem ofSegment?_bounds (h : ofSegment? p s = some f) :
    f.start = p.offset ∧ ∀ c ∈ f.close?, c < p.offset + Text.size s.source := by
  cases s with
  | plain c => cases h
  | unclosed k => cases h; simp [start, close?]
  | marked k body =>
    obtain ⟨-, hs, hc⟩ := of_ofSegment?_marked h
    have hb : Text.size (source (.marked k body)) = Text.size (k.opener ++ body) + 1 := by
      rw [source, Text.size_append]
      rfl
    refine ⟨hs, fun c hm => ?_⟩
    rw [hc] at hm
    cases hm
    rw [hb, Position.offset_after]
    omega

theorem ofSegments_bounds (h : f ∈ ofSegments p ss) :
    p.offset ≤ f.start ∧ f.start < p.offset + Text.size (sources ss) ∧
      ∀ c ∈ f.close?, c < p.offset + Text.size (sources ss) := by
  obtain ⟨ss₁, s, ss₂, rfl, hf⟩ := mem_ofSegments_iff.mp h
  obtain ⟨hs, hc⟩ := ofSegment?_bounds hf
  have hpos : 0 < Text.size s.source := Text.size_pos s.source_ne_nil
  simp only [Position.offset_after, sources_append, sources_cons, Text.size_append] at *
  refine ⟨by omega, by omega, fun c hm => ?_⟩
  have := hc c hm
  omega

theorem ofSegment?_after (h : o ≤ p.offset) :
    ofSegment? (p.after u) s = (ofSegment? p s).map (inserted o u) := by
  cases s with
  | plain c => rfl
  | unclosed k => simp [ofSegment?, inserted, gain_of_le h]
  | marked k body =>
    have hc : o ≤ p.offset + (Text.size k.opener + Text.size body) := by omega
    rw [ofSegment?_marked, ofSegment?_marked, Position.after_after_comm, Option.map_some]
    cases Fields.ofBody? k body with
    | none => simp [inserted, gain_of_le h, gain_of_le hc]
    | some fields => simp [inserted, gain_of_le h, gain_of_le hc, Marker.ofFields]

/-- What is put in before a place moves the findings from there on. -/
theorem ofSegments_after (h : o ≤ p.offset) :
    ofSegments (p.after u) ss = (ofSegments p ss).map (inserted o u) := by
  induction ss generalizing p with
  | nil => rfl
  | cons s ss ih =>
    have ho : o ≤ (p.after s.source).offset := by
      rw [Position.offset_after]
      omega
    rw [ofSegments, ofSegments, ofSegment?_after h, Position.after_after_comm, ih ho,
      List.map_append]
    cases ofSegment? p s <;> rfl

theorem inserted_eq_self (hs : f.start < o) (hc : ∀ c ∈ f.close?, c < o) :
    f.inserted o u = f := by
  cases f with
  | unclosed start k => simp [inserted, gain_of_lt (show start < o from hs)]
  | marker span m =>
    simp [inserted, gain_of_lt (show span.start < o from hs), gain_of_lt (hc span.close rfl)]
  | malformed span k line =>
    simp [inserted, gain_of_lt (show span.start < o from hs), gain_of_lt (hc span.close rfl)]

theorem map_inserted_eq_self (h : p.offset + Text.size (sources ss) ≤ o) :
    (ofSegments p ss).map (inserted o u) = ofSegments p ss := by
  have hid : ∀ f ∈ ofSegments p ss, f.inserted o u = id f := by
    intro f hf
    obtain ⟨-, hs, hc⟩ := ofSegments_bounds hf
    exact inserted_eq_self (by omega) fun c hm => by have := hc c hm; omega
  rw [List.map_congr_left hid, List.map_id]

end Finding

end SourceMarkers
