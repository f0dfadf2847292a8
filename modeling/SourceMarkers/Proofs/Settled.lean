import SourceMarkers.Proofs.Tidying

/-! # Tidying a tidy field

Collapsing and trimming do nothing to a field that has been tidied. So it changes
when it is tidied again only if removing its line continuations has left a new
one, or, for a parameter list, if a second comma stands at its beginning. A new
continuation stands inside a literal.
-/

namespace SourceMarkers

open Glyph

theorem Reading.quote_run_of_not_mem {r : Reading} {gs : List Glyph} (h : ∀ q, .quote q ∉ gs) :
    (r.run gs).quote = r.quote := by
  induction gs generalizing r with
  | nil => rfl
  | cons g gs ih =>
    rw [run_cons, ih fun q hq => h q (List.mem_cons_of_mem g hq)]
    cases g with
    | quote q => exact absurd List.mem_cons_self (h q)
    | _ => rfl

namespace Text

variable {b s t u v : Text} {c : Char} {r : Reading} {gap : Bool}

/-- Within a gap the reading stays where it is, so that a text is read as it was once its gaps are
spaces. -/
theorem collapseFrom_collapseFrom (h : gap → r.step .plain = r) :
    collapseFrom r gap (collapseFrom r gap t) = collapseFrom r gap t := by
  induction t generalizing r gap with
  | nil => rfl
  | cons c t ih =>
    by_cases hc : r.outside && isLayout c
    · have hl : isLayout c := (Bool.and_eq_true _ _ ▸ hc).2
      have hp : ofChar c = .plain := ofChar_of_isBlank (isBlank_of_isLayout hl)
      have hs : (r.step .plain).step .plain = r.step .plain := rfl
      rw [collapseFrom, if_pos hc, hp]
      cases gap with
      | true =>
        rw [h rfl] at hs ⊢
        exact ih fun _ => hs
      | false =>
        have ho : r.outside && isLayout ' ' := by
          rw [Bool.and_eq_true] at hc ⊢
          exact ⟨hc.1, rfl⟩
        have hsp : ofChar ' ' = .plain := by decide
        rw [if_neg (by decide), collapseFrom, if_pos ho, if_neg (by decide), hsp, ih fun _ => hs]
    · have hi := @ih (r.step (ofChar c)) false fun hg => absurd hg Bool.false_ne_true
      rw [collapseFrom, if_neg hc, collapseFrom, if_neg hc, hi]

theorem collapse_collapse (t : Text) : collapse (collapse t) = collapse t :=
  collapseFrom_collapseFrom nofun

theorem trim_append_of_blank (h : ∀ c ∈ s, isBlank c) : trim (s ++ t) = trim t := by
  rw [trim, trim, trimStart, trimStart, List.dropWhile_append_of_pos h]

theorem trim_append_blank (h : ∀ c ∈ s, isBlank c) : trim (t ++ s) = trim t := by
  induction s using List.reverseRecOn with
  | nil => rw [List.append_nil]
  | append_singleton s c ih =>
    rw [List.forall_mem_append] at h
    rw [← List.append_assoc, trim_concat_of_isBlank (h.2 c (List.mem_singleton_self c)), ih h.1]

theorem isBlank_of_mem_collapseFrom (h : ∀ c ∈ s, isBlank c) (hc : c ∈ collapseFrom r gap s) :
    isBlank c := by
  rcases mem_collapseFrom hc with hs | rfl
  · exact h c hs
  · decide

theorem run_start_of_blank (h : ∀ c ∈ s, isBlank c) : Reading.start.run (ofText s) = .start := by
  induction s with
  | nil => rfl
  | cons c s ih =>
    rw [List.forall_mem_cons] at h
    rw [ofText_cons, ofChar_of_isBlank h.1]
    exact ih h.2

/-- Blanks at the ends of a text may be dropped before it is collapsed. -/
theorem trim_collapse_append_of_blank (h : ∀ c ∈ s, isBlank c) :
    trim (collapse (s ++ t)) = trim (collapse t) := by
  obtain ⟨gap, hg⟩ := @exists_collapseFrom_append .start false s t
  rw [collapse, hg, run_start_of_blank h,
    trim_append_of_blank fun c => isBlank_of_mem_collapseFrom h]
  cases gap with
  | true => exact trim_collapseFrom_gap
  | false => rfl

theorem trim_collapse_append_blank (h : ∀ c ∈ s, isBlank c) :
    trim (collapse (t ++ s)) = trim (collapse t) := by
  obtain ⟨gap, hg⟩ := @exists_collapseFrom_append .start false t s
  rw [collapse, hg, trim_append_blank fun c => isBlank_of_mem_collapseFrom h]
  rfl

theorem trim_collapse_trimStart (t : Text) : trim (collapse (trimStart t)) = trim (collapse t) := by
  have hs := @trim_collapse_append_of_blank (t.takeWhile isBlank) (t.dropWhile isBlank)
    fun _ => List.mem_takeWhile_imp
  rw [List.takeWhile_append_dropWhile] at hs
  exact hs.symm

theorem trim_collapse_trimEnd (t : Text) : trim (collapse (trimEnd t)) = trim (collapse t) := by
  have hs := @trim_collapse_append_blank (t.rtakeWhile isBlank) (t.rdropWhile isBlank)
    fun _ => List.mem_rtakeWhile_imp
  rw [List.rdropWhile_append_rtakeWhile] at hs
  exact hs.symm

/-- Collapsing and trimming leave the text as it is. -/
def Settled (t : Text) : Prop := trim (collapse t) = t

theorem settled_tidy (raw : Text) : Settled (tidy raw) := by
  have hs : trim (collapse (tidy raw)) = trim (collapse (collapse (splice raw))) :=
    (trim_collapse_trimEnd _).trans (trim_collapse_trimStart _)
  rw [Settled, hs, collapse_collapse]
  rfl

theorem Settled.trimStart_eq (h : Settled t) : trimStart t = t := by
  rw [← h, trimStart_trim]

theorem Settled.dropComma (h : Settled t) : Settled (dropComma t) := by
  by_cases hc : ∃ s, trimStart t = ',' :: s
  · obtain ⟨s, hs⟩ := hc
    have ht : t = ',' :: s := h.trimStart_eq.symm.trans hs
    have he : trimEnd (collapse s) = s := by
      have htrim : trim (',' :: collapse s) = ',' :: trimEnd (collapse s) :=
        trimEnd_append_cons (s := []) (by decide)
      have hst : trim (',' :: collapse s) = ',' :: s := by
        rw [Settled, ht] at h
        exact h
      rw [htrim] at hst
      exact (List.cons.inj hst).2
    rw [Settled, dropComma_of_comma hs, trim_collapse_trimStart, ← trimStart_trimEnd, he]
  · rwa [dropComma_of_ne fun s hs => hc ⟨s, hs⟩, h.trimStart_eq]

theorem settled_tidyParams (raw : Text) : Settled (tidyParams raw) :=
  tidyParams_eq raw ▸ (settled_tidy raw).dropComma

theorem splice_sublist (t : Text) : (splice t).Sublist t := by
  fun_induction splice t with
  | case1 t ih => exact (ih.cons _).cons _
  | case2 t ih => exact ((ih.cons _).cons _).cons _
  | case3 c t _ _ ih => exact ih.cons_cons c
  | case4 => exact List.Sublist.slnil

theorem splice_eq_self_iff : splice t = t ↔ ∀ b, Continuation b → ¬ b <:+: t := by
  induction t using splice_induction with
  | nil => exact iff_of_true rfl fun b hb h => by cases List.infix_nil.mp h; cases hb
  | continuation b t hb ih =>
    refine iff_of_false (fun h => ?_) fun h => h b hb (List.prefix_append b t).isInfix
    have hl := (splice_sublist t).length_le
    rw [← splice_continuation_append hb, h, List.length_append] at hl
    cases hb <;> simp only [List.length_cons, List.length_nil] at hl <;> omega
  | cons c t hc ih =>
    rw [splice_cons hc, List.cons.injEq, eq_self, true_and, ih]
    refine forall₂_congr fun b hb => ?_
    rw [List.infix_cons_iff, or_iff_right (hc b hb)]

theorem length_collapseFrom_le : (collapseFrom r gap t).length ≤ t.length := by
  induction t generalizing r gap with
  | nil => exact Nat.le_refl _
  | cons c t ih =>
    rw [collapseFrom]
    split
    · split
      · exact Nat.le_succ_of_le ih
      · exact Nat.succ_le_succ ih
    · exact Nat.succ_le_succ ih

theorem length_trimStart_le (t : Text) : (trimStart t).length ≤ t.length :=
  (List.dropWhile_sublist isBlank).length_le

theorem length_dropComma_le (t : Text) : (dropComma t).length ≤ (trimStart t).length := by
  by_cases hc : ∃ s, trimStart t = ',' :: s
  · obtain ⟨s, hs⟩ := hc
    rw [dropComma_of_comma hs, hs]
    exact Nat.le_succ_of_le (length_trimStart_le s)
  · rw [dropComma_of_ne fun s hs => hc ⟨s, hs⟩]

theorem length_tidy_le (raw : Text) : (tidy raw).length ≤ (splice raw).length :=
  calc
    (tidy raw).length ≤ (trimStart (collapse (splice raw))).length := trimEnd_prefix_self.length_le
    _ ≤ (collapse (splice raw)).length := length_trimStart_le _
    _ ≤ (splice raw).length := length_collapseFrom_le

theorem splice_eq_self_of_le (h : t.length ≤ (splice t).length) : splice t = t :=
  (splice_sublist t).eq_of_length_le h

theorem Settled.tidy_eq_self_iff (h : Settled t) : tidy t = t ↔ splice t = t := by
  constructor
  · intro ht
    apply splice_eq_self_of_le
    rw [← congrArg List.length ht]
    exact length_tidy_le t
  · intro hs
    rw [tidy, hs]
    exact h

theorem Settled.tidyParams_eq_self_iff (h : Settled t) :
    tidyParams t = t ↔ splice t = t ∧ ¬ [','] <+: t := by
  rw [tidyParams_eq]
  constructor
  · intro ht
    have hs : splice t = t := by
      apply splice_eq_self_of_le
      calc
        t.length = (Text.dropComma (tidy t)).length := by rw [ht]
        _ ≤ (trimStart (tidy t)).length := length_dropComma_le _
        _ ≤ (tidy t).length := length_trimStart_le _
        _ ≤ (splice t).length := length_tidy_le t
    refine ⟨hs, ?_⟩
    rintro ⟨rest, hr⟩
    have hc : t = ',' :: rest := hr.symm
    rw [h.tidy_eq_self_iff.mpr hs, dropComma_of_comma (h.trimStart_eq.trans hc)] at ht
    have hl := length_trimStart_le rest
    rw [ht, hc] at hl
    exact Nat.not_succ_le_self _ hl
  · rintro ⟨hs, hc⟩
    rw [h.tidy_eq_self_iff.mpr hs, dropComma_of_ne, h.trimStart_eq]
    intro s ht
    rw [h.trimStart_eq] at ht
    exact hc ⟨s, ht.symm⟩

theorem Continuation.exists_break (hb : Continuation b) :
    ∃ c w, b = '\\' :: c :: w ∧ isBreak c := by
  cases hb with
  | lf => exact ⟨'\n', [], rfl, rfl⟩
  | crlf => exact ⟨'\r', ['\n'], rfl, rfl⟩

theorem Continuation.quote_not_mem (hb : Continuation b) (q : Quote) : .quote q ∉ ofText b := by
  cases hb <;> cases q <;> decide

/-- If breaks stand inside literals only, the same literal is open from the beginning of a
continuation to its end. -/
theorem BreaksInside.continuation (h : BreaksInside .start t) (ht : t = u ++ b ++ v)
    (hb : Continuation b) : ∃ q, ∀ x, x <+: b → (readingAfter (u ++ x)).quote = some q := by
  have hq : ∀ x, x <+: b → (readingAfter (u ++ x)).quote = (readingAfter u).quote := by
    rintro x ⟨y, rfl⟩
    rw [readingAfter, ofText_append, Reading.run_append]
    exact Reading.quote_run_of_not_mem fun q hm =>
      hb.quote_not_mem q (ofText_append ▸ List.mem_append_left _ hm)
  obtain ⟨c, w, rfl, hc⟩ := hb.exists_break
  have ho := h (u ++ ['\\']) c (w ++ v) (by simp [ht]) hc
  have hx : ['\\'] <+: '\\' :: c :: w := List.prefix_append ['\\'] (c :: w)
  rw [Reading.outside_iff, ← readingAfter, hq _ hx, ← ne_eq, Option.ne_none_iff_exists'] at ho
  obtain ⟨q, hu⟩ := ho
  exact ⟨q, fun x hx => (hq x hx).trans hu⟩

/-- A tidy field is tidied to itself just if it has no line continuation, and a tidy parameter list
if it does not begin with a comma either. A continuation that is left stands inside a literal. -/
theorem tidied_again_iff (raw : Text) :
    (tidy (tidy raw) = tidy raw ↔ ∀ b, Continuation b → ¬ b <:+: tidy raw) ∧
      (tidyParams (tidyParams raw) = tidyParams raw ↔
        (∀ b, Continuation b → ¬ b <:+: tidyParams raw) ∧ ¬ [','] <+: tidyParams raw) ∧
      ∀ t ∈ [tidy raw, tidyParams raw], ∀ u b v, t = u ++ b ++ v → Continuation b →
        ∃ q, ∀ x, x <+: b → (readingAfter (u ++ x)).quote = some q := by
  refine ⟨?_, ?_, ?_⟩
  · rw [(settled_tidy raw).tidy_eq_self_iff, splice_eq_self_iff]
  · rw [(settled_tidyParams raw).tidyParams_eq_self_iff, splice_eq_self_iff]
  · intro t ht u b v htu hb
    have hn : BreaksInside .start t := by
      simp only [List.mem_cons, List.not_mem_nil, or_false] at ht
      rcases ht with rfl | rfl
      · exact (neat_tidy raw).breaks_inside
      · exact (neat_tidyParams raw).breaks_inside
    exact hn.continuation htu hb

/-- The backslash before the first continuation continues the second line break. -/
example : tidy (tidy "\"\\\\\n\nx".toList) ≠ tidy "\"\\\\\n\nx".toList := by decide

end Text

end SourceMarkers
