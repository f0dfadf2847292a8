import SourceMarkers.Proofs.Continuation

/-! # Breaking the lines of a marker

A line of a source may be broken anywhere inside a marker by a continuation.
The same markers are found as before, on the lines to which their keywords and
closing parentheses have moved.
-/

namespace SourceMarkers

open Segment

variable {f : Finding} {p : Position} {k : Kind} {ss₁ ss₂ : List Segment}
  {u v x y body after : Text} {c : Nat}

namespace Finding

/-- The marker found, on the lines on which it stands once a line has been broken at a byte
offset. -/
def brokenAt? (o : Nat) : Finding → Option Marker
  | marker span m => some { m with
      firstLine := m.firstLine + if o ≤ span.start then 1 else 0
      lastLine := m.lastLine + if o ≤ span.close then 1 else 0 }
  | malformed .. | unclosed .. => none

theorem marker?_inserted (o : Nat) (f : Finding) :
    (f.inserted o ['\\', '\n']).marker? = f.brokenAt? o := by
  cases f <;> rfl

theorem ofSegment?_broken (hu : u.EndsClean) (hv : v ≠ []) :
    ofSegment? p (.marked k (u ++ '\\' :: '\n' :: v)) =
      (ofSegment? p (.marked k (u ++ v))).map
        (inserted (p.offset + Text.size (k.opener ++ u)) ['\\', '\n']) := by
  have ho : 0 < Text.size k.opener := Text.size_pos k.opener_ne_nil
  have hs : p.offset < p.offset + Text.size (k.opener ++ u) := by
    rw [Text.size_append]
    omega
  have hc : p.offset + Text.size (k.opener ++ u) ≤ (p.after (k.opener ++ (u ++ v))).offset := by
    simp only [Position.offset_after, Text.size_append]
    omega
  have hp : p.after (k.opener ++ (u ++ '\\' :: '\n' :: v)) =
      (p.after (k.opener ++ (u ++ v))).after ['\\', '\n'] := by
    rw [← List.append_assoc, ← List.append_assoc]
    exact Position.after_insert (t := ['\\', '\n'])
  have h := Fields.rel_ofBody? (k := k) (.broken u hu hv)
  rw [ofSegment?_marked, ofSegment?_marked, hp, Option.map_some]
  revert h
  generalize Fields.ofBody? k (u ++ v) = x
  generalize Fields.ofBody? k (u ++ '\\' :: '\n' :: v) = y
  intro h
  cases h with
  | none =>
    simp only [inserted, gain_of_lt hs, gain_of_le hc]
    rfl
  | some h =>
    simp only [← h.ofFields_eq, inserted, gain_of_lt hs, gain_of_le hc]
    rfl

theorem ofSegments_broken (hu : u.EndsClean) (hv : v ≠ []) :
    ofSegments p (.marked k (u ++ '\\' :: '\n' :: v) :: ss₂) =
      (ofSegments p (.marked k (u ++ v) :: ss₂)).map
        (inserted (p.offset + Text.size (k.opener ++ u)) ['\\', '\n']) := by
  have ho : p.offset + Text.size (k.opener ++ u) ≤
      (p.after (source (.marked k (u ++ v)))).offset := by
    simp only [Position.offset_after, source, Text.size_append]
    omega
  have hp : p.after (source (.marked k (u ++ '\\' :: '\n' :: v))) =
      (p.after (source (.marked k (u ++ v)))).after ['\\', '\n'] := by
    simp only [source, List.append_assoc]
    rw [← List.append_assoc, ← List.append_assoc k.opener]
    exact Position.after_insert (t := ['\\', '\n'])
  rw [ofSegments, ofSegments, List.map_append, ofSegment?_broken hu hv, Option.toList_map, hp,
    ofSegments_after ho]

/-- What stands before the place in a marker stays, and what stands behind it moves. -/
theorem ofSegments_append_broken (hu : u.EndsClean) (hv : v ≠ []) :
    ofSegments p (ss₁ ++ .marked k (u ++ '\\' :: '\n' :: v) :: ss₂) =
      (ofSegments p (ss₁ ++ .marked k (u ++ v) :: ss₂)).map
        (inserted (p.offset + Text.size (sources ss₁ ++ (k.opener ++ u))) ['\\', '\n']) := by
  have ho : p.offset + Text.size (sources ss₁ ++ (k.opener ++ u)) =
      (p.after (sources ss₁)).offset + Text.size (k.opener ++ u) := by
    rw [Position.offset_after, Text.size_append, Nat.add_assoc]
  have hss : p.offset + Text.size (sources ss₁) ≤
      p.offset + Text.size (sources ss₁ ++ (k.opener ++ u)) := by
    rw [Text.size_append]
    omega
  rw [ofSegments_append, ofSegments_append, List.map_append, map_inserted_eq_self hss, ho,
    ofSegments_broken hu hv]

theorem exists_marked {d : Document} (hf : f ∈ d.findings) (hc : f.close? = some c) :
    ∃ ss₁ k body ss₂ after, Segment.ofText d.text = ss₁ ++ .marked k body :: ss₂ ∧
      Cut (k.opener ++ (body ++ ')' :: after)) d.text ss₁ ∧ body.Balanced ∧ Cut [] after ss₂ ∧
      f.opening = Text.size (sources ss₁ ++ k.keyword) ∧
      c = Text.size (sources ss₁ ++ (k.opener ++ body)) := by
  obtain ⟨ss₁, s, ss₂, hs, hf⟩ := mem_ofSegments_iff.mp hf
  cases s with
  | plain => cases hf
  | unclosed => cases hf; cases hc
  | marked k body =>
    obtain ⟨after, hcut, hb, hr⟩ := (ofText_eq_iff.mp hs).of_marked
    obtain ⟨hk, hstart, hclose⟩ := of_ofSegment?_marked hf
    refine ⟨ss₁, k, body, ss₂, after, hs, hcut, hb, hr, ?_, ?_⟩
    · rw [opening, hk, hstart, Text.size_append]
      simp
    · rw [hclose] at hc
      cases hc
      simp

end Finding

theorem exists_body_split {s : Text} (h : x ++ y = s ++ (k.opener ++ (body ++ ')' :: after)))
    (hx : Text.size (s ++ k.keyword) < Text.size x)
    (hy : Text.size x < Text.size (s ++ (k.opener ++ body))) :
    ∃ u v, x = s ++ (k.opener ++ u) ∧ y = v ++ ')' :: after ∧ body = u ++ v ∧ v ≠ [] := by
  have hs : x ++ y = s ++ k.keyword ++ '(' :: (body ++ ')' :: after) := by
    simpa [Kind.opener] using h
  rcases append_eq_append_cons_iff.mp hs with ⟨w, hw, -⟩ | ⟨u, rfl, hb⟩
  · rw [hw, Text.size_append] at hx
    omega
  · rcases append_eq_append_cons_iff.mp hb.symm with ⟨v, rfl, hv⟩ | ⟨w, rfl, -⟩
    · refine ⟨u, v, by simp [Kind.opener], hv, rfl, ?_⟩
      rintro rfl
      simp only [Kind.opener, Text.size_append, Text.size_cons, Text.size_nil] at hy
      omega
    · simp only [Kind.opener, Text.size_append, Text.size_cons, Text.size_nil] at hy
      omega

theorem Segment.Cut.broken {t : Text} {ss : List Segment}
    (h : Cut (k.opener ++ (u ++ v)) t ss) (hu : (k.opener ++ u).EndsClean) :
    Cut (k.opener ++ (u ++ '\\' :: '\n' :: v))
      (sources ss ++ (k.opener ++ (u ++ '\\' :: '\n' :: v))) ss := by
  have ho : 2 ≤ k.opener.length := by cases k <;> decide
  have hl : 2 ≤ (k.opener ++ u).length := by
    rw [List.length_append]
    omega
  apply h.replace_rest
  · intro s _ hs k' hp
    have hb : '\\' ∉ k'.opener := by cases k' <;> decide
    rw [← List.append_assoc, ← List.append_assoc] at hp
    refine hs k' ((prefix_of_prefix_append_cons hb hp).trans ?_)
    simp
  · intro k' _ s hs
    have he : (s ++ (k.opener ++ u)).EndsClean := hu.append hl
    have hw := (Text.walk?_insert_eq_none (t := v) he (d := .closing) (by decide) (by decide)).mpr
    simp only [List.append_assoc] at hw
    exact hw hs

/-- A text is cut as before when a line is broken inside one of its markers. -/
theorem Segment.ofText_broken {t : Text} (hu : (k.opener ++ u).EndsClean)
    (h : Cut (k.opener ++ (u ++ (v ++ ')' :: after))) t ss₁) (hb : Text.Balanced (u ++ v))
    (hr : Cut [] after ss₂) :
    ofText (sources ss₁ ++ (k.opener ++ (u ++ '\\' :: '\n' :: (v ++ ')' :: after)))) =
      ss₁ ++ .marked k (u ++ '\\' :: '\n' :: v) :: ss₂ := by
  have hu' : u.EndsClean := hu.of_suffix (List.suffix_append _ _)
  have hb' : Text.Balanced (u ++ '\\' :: '\n' :: v) :=
    (Text.freeOf_insert hu' (by decide) (by decide)).mpr hb
  have hm : Cut [] (k.opener ++ (u ++ '\\' :: '\n' :: (v ++ ')' :: after)))
      (.marked k (u ++ '\\' :: '\n' :: v) :: ss₂) := by
    simpa using Cut.marked (k := k) hb' hr
  exact ofText_eq_iff.mpr ((h.broken hu).append hm)

namespace Document

theorem findings_broken (hf : f ∈ (Document.mk (x ++ y)).findings) (hc : f.close? = some c)
    (hx : f.opening < Text.size x) (hy : Text.size x < c) (he : x.EndsClean) :
    (Document.mk (x ++ '\\' :: '\n' :: y)).findings =
      (Document.mk (x ++ y)).findings.map (Finding.inserted (Text.size x) ['\\', '\n']) := by
  obtain ⟨ss₁, k, body, ss₂, after, hs, hcut, hb, hr, ho, rfl⟩ := Finding.exists_marked hf hc
  rw [ho] at hx
  obtain ⟨u, v, rfl, rfl, rfl, hv⟩ := exists_body_split hcut.eq_sources_append hx hy
  have hu : (k.opener ++ u).EndsClean := he.of_suffix (List.suffix_append _ _)
  have hu' : u.EndsClean := hu.of_suffix (List.suffix_append _ _)
  rw [List.append_assoc] at hcut
  have hn := ofText_broken hu hcut hb hr
  have ht : sources ss₁ ++ (k.opener ++ u) ++ '\\' :: '\n' :: (v ++ ')' :: after) =
      sources ss₁ ++ (k.opener ++ (u ++ '\\' :: '\n' :: (v ++ ')' :: after))) := by
    simp only [List.append_assoc]
  unfold findings
  rw [hs, ht, hn, Finding.ofSegments_append_broken hu' hv]
  simp only [Nat.zero_add]

/-- A line may be broken by a continuation anywhere between the parentheses of a marker but behind
a backslash: the same markers are found, and each keyword and each closing parenthesis from there on
is found one line below. -/
theorem markers_broken (hf : f ∈ (Document.mk (x ++ y)).findings) (hc : f.close? = some c)
    (hx : f.opening < Text.size x) (hy : Text.size x < c) (he : x.EndsClean) :
    (Document.mk (x ++ '\\' :: '\n' :: y)).markers =
      (Document.mk (x ++ y)).findings.filterMap (Finding.brokenAt? (Text.size x)) := by
  unfold markers
  rw [findings_broken hf hc hx hy he, List.filterMap_map]
  congr 1
  funext g
  exact Finding.marker?_inserted _ g

theorem markers_broken_name :
    (Document.mk ("CALL(MTD(Fo".toList ++ '\\' :: '\n' ::
      "o, bar /x/) NSMTD(k, m /y/)".toList)).markers =
      [⟨.classMethod, "Foo".toList, none, "bar".toList, ['x'], 1, 2⟩,
        ⟨.namespaceMethod, ['k'], none, ['m'], ['y'], 2, 2⟩] := by
  have hf : .marker ⟨5, 21⟩ ⟨.classMethod, "Foo".toList, none, "bar".toList, ['x'], 1, 1⟩ ∈
      (Document.mk ("CALL(MTD(Fo".toList ++ "o, bar /x/) NSMTD(k, m /y/)".toList)).findings := by
    decide +kernel
  exact (markers_broken hf rfl (by decide) (by decide) (by decide)).trans (by decide +kernel)

end Document

end SourceMarkers
