import SourceMarkers.Proofs.Classification

/-! # Keywords between segments

But for the parenthesis of a keyword that is never closed, no place from which
the search goes on lies inside an opener. So the search comes by every keyword
that no marker encloses, and reads it from its beginning.
-/

namespace SourceMarkers

open Nesting Segment

/-- No opener extends over the end of the first text into the second. -/
def Apart (s t : Text) : Prop :=
  ∀ (k : Kind) (u v : Text), k.opener = u ++ v → u <:+ s → v <+: t → u = [] ∨ v = []

variable {d : Document} {k : Kind} {s t u body : Text} {ss : List Segment} {c : Char} {o : Nat}

theorem apart_nil : Apart [] t := fun _ _ _ _ hu _ => Or.inl (List.suffix_nil.mp hu)

theorem Apart.plain (h : Apart s (c :: t)) (hc : ∀ k : Kind, ¬ k.opener <+: c :: t) :
    Apart (s ++ [c]) t := by
  intro k u v hk hu hv
  rcases List.suffix_concat_iff.mp hu with rfl | ⟨u, rfl, hu'⟩
  · exact Or.inl rfl
  · rw [List.append_assoc, List.singleton_append] at hk
    have hv : c :: v <+: c :: t := List.cons_prefix_cons.mpr ⟨rfl, hv⟩
    rcases h k u (c :: v) hk hu' hv with rfl | he
    · exact absurd (hk ▸ hv) (hc k)
    · cases he

theorem apart_concat (hc : ∀ k : Kind, c ∉ k.keyword) : Apart (s ++ [c]) t := by
  intro k u v hk hu _
  rcases List.suffix_concat_iff.mp hu with rfl | ⟨u, rfl, -⟩
  · exact Or.inl rfl
  · rw [List.append_assoc, List.singleton_append, Kind.opener] at hk
    rcases append_eq_append_cons_iff.mp hk with ⟨w, -, hw⟩ | ⟨w, hw, -⟩
    · rcases List.append_eq_cons_iff.mp hw.symm with ⟨-, he⟩ | ⟨w, -, he⟩
      · exact Or.inr (List.cons.inj he).2
      · simp at he
    · exact absurd (by simp [hw]) (hc k)

theorem size_append_opener : Text.size (s ++ k.opener) = Text.size (s ++ k.keyword) + 1 := by
  rw [Kind.opener, ← List.append_assoc, Text.size_append]
  rfl

namespace Document

theorem Opens.exists_eq (h : d.Opens k o) (hd : d.text = s ++ (u ++ t)) (hi : Text.size s ≤ o)
    (hj : o < Text.size (s ++ u)) :
    ∃ v w, u = v ++ '(' :: w ∧ k.keyword <:+ s ++ v := by
  obtain ⟨x, y, hx, rfl, hk⟩ := h
  rw [hd] at hx
  rcases append_eq_append_cons_iff.mp hx with ⟨v, rfl, hv⟩ | ⟨w, rfl, -⟩
  · rcases append_eq_append_cons_iff.mp hv with ⟨w, rfl, -⟩ | ⟨w, rfl, -⟩
    · rw [← List.append_assoc, Text.size_append] at hj
      omega
    · exact ⟨v, w, rfl, hk⟩
  · have hw : 0 < Text.size ('(' :: w) := Text.size_pos (List.cons_ne_nil _ _)
    rw [Text.size_append] at hi
    omega

theorem not_opens_plain (ha : Apart s (c :: t)) (hd : d.text = s ++ (c :: t)) :
    ∀ o, Text.size s ≤ o → o < Text.size (s ++ [c]) → ∀ k, ¬ d.Opens k o := by
  intro o hi hj k ho
  obtain ⟨v, w, hu, hk⟩ := ho.exists_eq (u := [c]) hd hi hj
  rcases List.append_eq_cons_iff.mp hu.symm with ⟨rfl, he⟩ | ⟨v, -, he⟩
  · cases he
    rw [List.append_nil] at hk
    rcases ha k k.keyword ['('] rfl hk (List.prefix_append ['('] t) with h | h
    · exact k.keyword_ne_nil h
    · cases h
  · simp at he

theorem not_opens_keyword (hd : d.text = s ++ (k.keyword ++ t)) :
    ∀ o, Text.size s ≤ o → o < Text.size (s ++ k.keyword) → ∀ j, ¬ d.Opens j o := by
  intro o hi hj j ho
  obtain ⟨v, w, hu, -⟩ := ho.exists_eq hd hi hj
  exact k.parenthesis_not_mem_keyword (by simp [hu])

theorem opens_opener (hd : d.text = s ++ (k.opener ++ t)) :
    d.Opens k (Text.size (s ++ k.keyword)) :=
  ⟨s ++ k.keyword, t, by simp [hd, Kind.opener], rfl, List.suffix_append s k.keyword⟩

/-- A keyword that is read from its beginning is the longest one that ends where it ends. -/
theorem length_le_of_opens {j : Kind} (ha : Apart s (k.opener ++ t))
    (hd : d.text = s ++ (k.opener ++ t)) (h : d.Opens j (Text.size (s ++ k.keyword))) :
    j.keyword.length ≤ k.keyword.length := by
  obtain ⟨x, y, hx, ho, hj⟩ := h
  have hk : d.text = s ++ k.keyword ++ '(' :: t := by simp [hd, Kind.opener]
  obtain rfl := Text.eq_of_append_eq_of_size_eq (hx.symm.trans hk) ho
  rcases Nat.le_total j.keyword.length k.keyword.length with hl | hl
  · exact hl
  · obtain ⟨w, hw⟩ := List.suffix_of_suffix_length_le (List.suffix_append s k.keyword) hj hl
    obtain ⟨x, hx⟩ := hj
    rw [← hw, ← List.append_assoc, List.append_cancel_right_eq] at hx
    have hjo : j.opener = w ++ k.opener := by rw [Kind.opener, ← hw, Kind.opener, List.append_assoc]
    rcases ha j w k.opener hjo ⟨x, hx⟩ (List.prefix_append k.opener t) with rfl | h
    · exact Nat.le_of_eq (congrArg List.length hw.symm)
    · exact absurd h k.opener_ne_nil

theorem closingOffset?_opener (hd : d.text = s ++ (k.opener ++ t)) :
    d.text.closingOffset? (Text.size s + Text.size k.keyword) =
      (walk? (meets .closing) start (Glyph.ofText t)).map
        fun j => Text.size (s ++ (k.opener ++ t.take j)) := by
  have hs : d.text = s ++ k.keyword ++ '(' :: t := by simp [hd, Kind.opener]
  rw [hs, ← Text.size_append, Text.closingOffset?_parenthesis]
  simp only [Kind.opener, List.append_assoc, List.singleton_append]

theorem closingOffset?_of_leavesOpen (h : t.LeavesOpen) (hd : d.text = s ++ (k.opener ++ t)) :
    d.text.closingOffset? (Text.size s + Text.size k.keyword) = none := by
  rw [closingOffset?_opener hd, Option.map_eq_none_iff]
  exact h

theorem closingOffset?_of_balanced (h : body.Balanced)
    (hd : d.text = s ++ (k.opener ++ (body ++ ')' :: t))) :
    d.text.closingOffset? (Text.size s + Text.size k.keyword) =
      some (Text.size (s ++ (k.opener ++ body))) := by
  have hw : walk? (meets .closing) start (Glyph.ofText (body ++ ')' :: t)) = some body.length :=
    (Text.walk?_meets_eq_some_iff fun _ => Glyph.ofChar_eq_closing_iff).mpr ⟨body, t, rfl, rfl, h⟩
  rw [closingOffset?_opener hd, hw, Option.map_some, List.take_left]

theorem findingAt_unclosed (h : t.LeavesOpen) (hd : d.text = s ++ (k.opener ++ t)) :
    d.findingAt (Text.size s) k = .unclosed (Text.size s) k := by
  rw [findingAt, closingOffset?_of_leavesOpen h hd]

theorem findingAt_marked (h : body.Balanced) (hd : d.text = s ++ (k.opener ++ (body ++ ')' :: t))) :
    Finding.ofSegment? (Position.after {} s) (.marked k body) =
      some (d.findingAt (Text.size s) k) := by
  have ho : Text.size s + Text.size k.keyword + 1 = Text.size (s ++ k.opener) := by
    rw [size_append_opener, Text.size_append]
  have hb : d.text.slice (Text.size s + Text.size k.keyword + 1)
      (Text.size (s ++ (k.opener ++ body))) = body := by
    rw [ho, hd, ← List.append_assoc s k.opener, ← List.append_assoc s k.opener body]
    exact Text.slice_append
  have hs : d.lineAt (Text.size s) = (Position.after {} s).line := by
    rw [lineAt_append hd, Nat.add_comm]
    rfl
  have he : d.lineAt (Text.size (s ++ (k.opener ++ body))) =
      ((Position.after {} s).after (k.opener ++ body)).line := by
    have ht : d.text = s ++ (k.opener ++ body) ++ ')' :: t := by simp [hd]
    rw [lineAt_append ht, ← Position.after_append, Nat.add_comm]
    rfl
  rw [Finding.ofSegment?_marked, findingAt, closingOffset?_of_balanced h hd]
  simp only [hb, hs, he]
  cases Fields.ofBody? k body with
  | none => simp
  | some fields => simp

theorem last_findingAt_unclosed (h : t.LeavesOpen) (hd : d.text = s ++ (k.opener ++ t)) :
    (d.findingAt (Text.size s) k).last + 1 = Text.size (s ++ k.keyword ++ ['(']) := by
  rw [Finding.last, close?_findingAt, closingOffset?_of_leavesOpen h hd, Option.getD_none,
    Finding.opening, start_findingAt, kind_findingAt, Text.size_append, Text.size_append]
  rfl

theorem last_findingAt_marked (h : body.Balanced)
    (hd : d.text = s ++ (k.opener ++ (body ++ ')' :: t))) :
    (d.findingAt (Text.size s) k).last + 1 = Text.size (s ++ (k.opener ++ body) ++ [')']) := by
  rw [Finding.last, close?_findingAt, closingOffset?_of_balanced h hd, Option.getD_some,
    Text.size_append (t := [')'])]
  rfl

theorem Classified.cons_opener {fs : List Finding} (ha : Apart s (k.opener ++ t))
    (hd : d.text = s ++ (k.opener ++ t))
    (h : d.Classified ((d.findingAt (Text.size s) k).last + 1) fs) :
    d.Classified (Text.size s) (d.findingAt (Text.size s) k :: fs) := by
  have hk : d.text = s ++ (k.keyword ++ '(' :: t) := by simp [hd, Kind.opener]
  have ho : (d.findingAt (Text.size s) k).opening = Text.size (s ++ k.keyword) := by
    rw [Finding.opening, start_findingAt, kind_findingAt, Text.size_append]
  apply h.cons
  · rw [ho]
    exact Text.size_le_size_append _ _
  · rw [ho]
    exact not_opens_keyword hk
  · rw [ho, kind_findingAt]
    exact opens_opener hd
  · rw [ho, kind_findingAt]
    exact fun j => length_le_of_opens ha hd
  · rw [start_findingAt, kind_findingAt]

/-- The search classifies the keywords from any place on where no opener is being read. -/
theorem classified_of_cut (h : Cut [] t ss) (ha : Apart s t) (hd : d.text = s ++ t) :
    d.Classified (Text.size s) (Finding.ofSegments (Position.after {} s) ss) := by
  induction h generalizing s with
  | nil =>
    apply Classified.nil
    rintro o ho k ⟨x, y, hx, rfl, -⟩
    have hs : Text.size (s ++ []) = Text.size (x ++ '(' :: y) := by rw [← hd, hx]
    have hy : 0 < Text.size ('(' :: y) := Text.size_pos (List.cons_ne_nil _ _)
    rw [List.append_nil, Text.size_append] at hs
    omega
  | @plain c t ss hk _ ih =>
    have hc := ih (ha.plain hk) (by simp [hd])
    rw [Position.after_append] at hc
    apply hc.skip
    · exact Text.size_le_size_append _ _
    · exact not_opens_plain ha hd
  | @unclosed k t ss ht _ ih =>
    have hf : Finding.ofSegment? (Position.after {} s) (.unclosed k) =
        some (d.findingAt (Text.size s) k) := by
      rw [findingAt_unclosed ht hd, Finding.ofSegment?, Position.offset_after, Nat.zero_add]
    have hc := ih (s := s ++ k.keyword ++ ['(']) (apart_concat Kind.parenthesis_not_mem_keyword)
      (by simp [hd, Kind.opener])
    rw [Position.after_append, Position.after_append, ← last_findingAt_unclosed ht hd] at hc
    rw [Finding.ofSegments, hf]
    exact hc.cons_opener ha hd
  | @marked k body t ss hb _ ih =>
    have hp : ∀ k : Kind, ')' ∉ k.keyword := fun k => by cases k <;> decide
    have hc := ih (s := s ++ (k.opener ++ body) ++ [')']) (apart_concat hp) (by simp [hd])
    rw [← last_findingAt_marked hb hd, List.append_assoc, Position.after_append] at hc
    rw [Finding.ofSegments, findingAt_marked hb hd]
    exact hc.cons_opener ha hd

/-- The search tells of every keyword in a document: it is found once, as the longest one that ends
where it ends and with the outcome that its parentheses decide, or a marker that is found encloses
it. The findings are the only list of this sort. Each of them is a marker of the result or has one
event in the log, which ends with the number of markers. -/
theorem keywords_classified (d : Document) :
    (∀ fs, d.Classified 0 fs ↔ fs = d.findings) ∧
      ∃ es, Finding.Told d.findings d.markers es ∧ d.searchLog = es ++
        [⟨.trace, "scan found ".toList ++ Text.decimal d.markers.length ++ " markers".toList⟩] := by
  have h : d.Classified 0 d.findings := classified_of_cut (cut_ofText d.text) apart_nil rfl
  refine ⟨fun fs => ?_, _, Finding.told_filterMap d.findings, rfl⟩
  constructor
  · exact fun hf => hf.unique h
  · rintro rfl
    exact h

end Document

end SourceMarkers
