import SourceMarkers.Proofs.Findings

/-! # Joining texts

Nothing that is written below a text changes what is found in it, and what is
found below does not depend on it, except for the lines on which it stands. Only
a keyword whose parenthesis is never closed reaches out of its text.
-/

namespace SourceMarkers

open Segment

namespace Kind

theorem newline_not_mem_opener (k : Kind) : '\n' ∉ k.opener := by cases k <;> decide

end Kind

def Marker.below (lines : Nat) (m : Marker) : Marker :=
  { m with firstLine := m.firstLine + lines, lastLine := m.lastLine + lines }

variable {a b t u rest : Text} {ss : List Segment} {p : Position} {k : Kind}

namespace Segment

theorem Cut.append_newline (h : Cut [] a ss) (hu : ∀ k : Kind, .unclosed k ∉ ss) :
    Cut [] (a ++ '\n' :: b) (ss ++ .plain '\n' :: ofText b) := by
  have hn : ∀ k : Kind, ¬ k.opener <+: '\n' :: b :=
    Kind.not_opener_prefix_cons fun k => by cases k <;> decide
  have hc : Cut ('\n' :: b) (sources ss ++ '\n' :: b) ss := by
    refine h.replace_rest ?_ ?_
    · intro s _ hs k hp
      exact hs k (by simpa using prefix_of_prefix_append_cons k.newline_not_mem_opener hp)
    · intro k hm
      exact absurd hm (hu k)
  have ha : a = sources ss := by simpa using h.eq_sources_append
  rw [ha]
  exact hc.append (.plain hn (cut_ofText b))

theorem ofSegments_eq_nil (h : Cut rest t ss) (ht : '(' ∉ t) : Finding.ofSegments p ss = [] := by
  induction h generalizing p with
  | nil => rfl
  | plain _ _ ih => exact ih (fun hm => ht (List.mem_cons_of_mem _ hm))
  | unclosed _ _ _ => simp [Kind.opener] at ht
  | marked _ _ _ => simp [Kind.opener] at ht

theorem Cut.findings_prefix_append (h : Cut [] a ss) (hu : ∀ k : Kind, .unclosed k ∉ ss) :
    Finding.ofSegments p ss <+: Finding.ofSegments p (ofText (a ++ u)) := by
  induction h generalizing p with
  | nil => exact List.nil_prefix
  | @plain c t ss hk hc ih =>
    by_cases hp : ∃ k : Kind, k.opener <+: c :: (t ++ u)
    · -- An opener begins here that the text ends in, so the text has no parenthesis left.
      obtain ⟨k, hp⟩ := hp
      have ht : c :: t <+: k.keyword := by
        rcases List.prefix_or_prefix_of_prefix hp (List.prefix_append (c :: t) u) with h | h
        · exact absurd h (hk k)
        · rcases List.prefix_concat_iff.mp h with h | h
          · exact absurd (h ▸ List.prefix_rfl) (hk k)
          · exact h
      have hn : '(' ∉ c :: t := fun hm => k.parenthesis_not_mem_keyword (ht.subset hm)
      rw [ofSegments_eq_nil (.plain hk hc) hn]
      exact List.nil_prefix
    · rw [List.cons_append, ofText_plain (fun k h => hp ⟨k, h⟩)]
      exact ih fun k hm => hu k (List.mem_cons_of_mem _ hm)
  | unclosed _ _ _ => exact absurd List.mem_cons_self (hu _)
  | @marked k body t ss hb hc ih =>
    rw [List.append_assoc, List.append_assoc, List.cons_append, ofText_marked hb]
    exact (List.prefix_append_right_inj _).mpr (ih fun k hm => hu k (List.mem_cons_of_mem _ hm))

end Segment

namespace Document

theorem unclosed_not_mem_ofText
    (h : ∀ e ∈ (Document.mk a).searchLog, ¬ "unterminated ".toList <+: e.message) (k : Kind) :
    .unclosed k ∉ ofText a := by
  intro hm
  obtain ⟨ss₁, ss₂, hs⟩ := List.append_of_mem hm
  have hf : .unclosed (Text.size (sources ss₁)) k ∈ (Document.mk a).findings := by
    refine Finding.mem_ofSegments_iff.mpr ⟨ss₁, .unclosed k, ss₂, hs, ?_⟩
    simp [Finding.ofSegment?]
  refine h _ (List.mem_append_left _ (List.mem_filterMap.mpr ⟨_, hf, rfl⟩)) ?_
  simp only [List.append_assoc]
  exact List.prefix_append _ _

theorem findings_append_newline (hu : ∀ k : Kind, .unclosed k ∉ ofText a) :
    (Document.mk (a ++ '\n' :: b)).findings = (Document.mk a).findings ++
      (Document.mk b).findings.map (Finding.inserted 0 (a ++ ['\n'])) := by
  have hc := (cut_ofText a).append_newline (b := b) hu
  have ha : sources (ofText a) = a := by simpa using (cut_ofText a).eq_sources_append.symm
  unfold findings
  rw [ofText_eq_iff.mpr hc, Finding.ofSegments_append, ha]
  congr 1
  rw [← Finding.ofSegments_after (Nat.zero_le _), Finding.ofSegments, Position.after_append]
  rfl

theorem filterMap_marker?_inserted {fs : List Finding} {u : Text} :
    (fs.map (Finding.inserted 0 u)).filterMap Finding.marker? =
      (fs.filterMap Finding.marker?).map (Marker.below (Text.breaks u)) := by
  rw [List.filterMap_map, List.map_filterMap]
  congr 1
  funext f
  cases f <;> simp [Finding.inserted, Finding.marker?, Marker.below, Finding.gain]

/-- If every keyword in a text finds its closing parenthesis, the markers of the text and of what is
written below it are found one after the other, and no continuation of the text takes one of its
markers away. -/
theorem markers_joined (a b : Text)
    (h : ∀ e ∈ (Document.mk a).searchLog, ¬ "unterminated ".toList <+: e.message) :
    (Document.mk (a ++ '\n' :: b)).markers = (Document.mk a).markers ++
        (Document.mk b).markers.map (Marker.below (Document.mk a).lineCount) ∧
      ∀ u, (Document.mk a).markers <+: (Document.mk (a ++ u)).markers := by
  have hu := unclosed_not_mem_ofText h
  constructor
  · have hb : (Document.mk a).lineCount = Text.breaks (a ++ ['\n']) := by
      rw [Text.breaks_append]
      rfl
    unfold markers
    rw [findings_append_newline hu, List.filterMap_append, filterMap_marker?_inserted, hb]
  · intro u
    exact ((cut_ofText a).findings_prefix_append hu).filterMap _

theorem markers_joined_stray_quote :
    (Document.mk ("'\\)( CALL(a, b, c /x/) ((".toList ++ '\n' :: "MTD(k, m /y/)".toList)).markers =
      [⟨.objectCall, ['a'], some ['b'], ['c'], ['x'], 1, 1⟩,
        ⟨.classMethod, ['k'], none, ['m'], ['y'], 2, 2⟩] := by
  have h : ∀ e ∈ (Document.mk "'\\)( CALL(a, b, c /x/) ((".toList).searchLog,
      ¬ "unterminated ".toList <+: e.message := by decide +kernel
  exact (markers_joined _ _ h).1.trans (by decide +kernel)

end Document

end SourceMarkers
