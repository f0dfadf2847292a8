import SourceMarkers.Proofs.Literals
import SourceMarkers.Proofs.Passages

/-! # Collapsing a passage or a literal

The reading with which a text is collapsed is outside literals in its loose
passages and inside one in its literals. So collapsing squeezes each passage,
with one space for each run of layout characters, and keeps each literal as it
is.
-/

namespace SourceMarkers

namespace IsQuote

variable {q : Char}

theorem ne_backslash (h : IsQuote q) : q ≠ '\\' := by
  rcases h with rfl | rfl <;> decide

theorem not_isBlank (h : IsQuote q) : ¬ isBlank q := by
  rcases h with rfl | rfl <;> decide

theorem not_isLayout (h : IsQuote q) : ¬ isLayout q :=
  fun hl => h.not_isBlank (isBlank_of_isLayout hl)

end IsQuote

namespace Text

/-- The text with a space for each run of spaces, tabs, line feeds and carriage returns that is as
long as can be. -/
def squeeze : Text → Text
  | [] => []
  | c :: t =>
    if c ∈ [' ', '\t', '\n', '\r'] then ' ' :: squeeze (t.dropWhile (· ∈ [' ', '\t', '\n', '\r']))
    else c :: squeeze t
termination_by t => t.length
decreasing_by
  · exact Nat.lt_succ_of_le (List.dropWhile_sublist _).length_le
  · exact Nat.lt_succ_self t.length

variable {b s t u : Text} {c q : Char} {gap : Bool}

theorem isLayout_iff_mem : isLayout c ↔ c ∈ [' ', '\t', '\n', '\r'] := by
  simp only [isLayout, Bool.or_eq_true, decide_eq_true_eq, List.mem_cons, List.not_mem_nil,
    or_false, or_assoc]

theorem decide_mem_eq_isLayout : (fun c => decide (c ∈ [' ', '\t', '\n', '\r'])) = isLayout := by
  funext c
  rw [Bool.eq_iff_iff, decide_eq_true_iff, isLayout_iff_mem]

theorem squeeze_cons_of_isLayout (h : isLayout c) :
    squeeze (c :: t) = ' ' :: squeeze (t.dropWhile isLayout) := by
  rw [squeeze, if_pos (isLayout_iff_mem.mp h), decide_mem_eq_isLayout]

theorem squeeze_cons_of_not_isLayout (h : ¬ isLayout c) : squeeze (c :: t) = c :: squeeze t := by
  rw [squeeze, if_neg (mt isLayout_iff_mem.mpr h)]

/-- A text is empty, or it begins with a run of layout characters or with another character. -/
theorem squeeze_induction {motive : Text → Prop} (t : Text) (nil : motive [])
    (run : ∀ c t, isLayout c → motive (t.dropWhile isLayout) → motive (c :: t))
    (cons : ∀ c t, ¬ isLayout c → motive t → motive (c :: t)) : motive t := by
  induction t using squeeze.induct with
  | case1 => exact nil
  | case2 c t hc ih =>
    rw [decide_mem_eq_isLayout] at ih
    exact run c t (isLayout_iff_mem.mpr hc) ih
  | case3 c t hc ih => exact cons c t (mt isLayout_iff_mem.mp hc) ih

def readingAfter (u : Text) : Reading := Reading.start.run (Glyph.ofText u)

/-- A literal that the quote opens is open behind a text. -/
def Inside (u : Text) (q : Char) : Prop :=
  ∃ k, Glyph.ofChar q = .quote k ∧ (readingAfter u).quote = some k

theorem readingAfter_concat : readingAfter (u ++ [c]) = (readingAfter u).step (.ofChar c) := by
  rw [readingAfter, Glyph.ofText_append, Reading.run_append]
  rfl

theorem isQuote_iff : IsQuote c ↔ ∃ k, Glyph.ofChar c = .quote k := by
  constructor
  · rintro (rfl | rfl)
    · exact ⟨.double, rfl⟩
    · exact ⟨.single, rfl⟩
  · rintro ⟨k, hk⟩
    unfold Glyph.ofChar at hk
    unfold IsQuote
    grind

theorem eq_of_ofChar_eq_quote {k : Quote} (hc : Glyph.ofChar c = .quote k)
    (hq : Glyph.ofChar q = .quote k) : c = q := by
  unfold Glyph.ofChar at hc hq
  grind

theorem backslashes_readingAfter (u : Text) :
    (readingAfter u).backslashes = (u.rtakeWhile fun c => c = '\\').length := by
  induction u using List.reverseRecOn with
  | nil => rfl
  | append_singleton u c ih =>
    rw [readingAfter_concat, Reading.step, List.rtakeWhile_concat, ih]
    by_cases hc : c = '\\' <;> simp [hc, Glyph.ofChar_eq_backslash_iff]

theorem escaped_readingAfter_iff : (readingAfter u).escaped ↔ ¬ EvenEnd u := by
  rw [Reading.escaped_iff, backslashes_readingAfter, EvenEnd, Nat.not_even_iff]

theorem outside_concat (h : (readingAfter u).outside) (hc : IsQuote c → ¬ EvenEnd u) :
    (readingAfter (u ++ [c])).outside := by
  rw [Reading.outside_iff] at h ⊢
  rw [readingAfter_concat, Reading.step]
  cases hg : Glyph.ofChar c with
  | quote k =>
    have he := escaped_readingAfter_iff.mpr (hc (isQuote_iff.mpr ⟨k, hg⟩))
    simp [Reading.quoteAfter, he, h]
  | _ => exact h

theorem inside_concat_self (h : (readingAfter u).outside) (hq : IsQuote q) (he : EvenEnd u) :
    Inside (u ++ [q]) q := by
  obtain ⟨k, hk⟩ := isQuote_iff.mp hq
  refine ⟨k, hk, ?_⟩
  have hn : ¬ (readingAfter u).escaped := fun hn => escaped_readingAfter_iff.mp hn he
  rw [Reading.outside_iff] at h
  rw [readingAfter_concat, Reading.step, hk]
  simp [Reading.quoteAfter, hn, h]

theorem Inside.concat (h : Inside u q) (hc : c = q → ¬ EvenEnd u) : Inside (u ++ [c]) q := by
  obtain ⟨k, hk, hu⟩ := h
  refine ⟨k, hk, ?_⟩
  rw [readingAfter_concat, Reading.step]
  cases hg : Glyph.ofChar c with
  | quote l =>
    by_cases hkl : k = l
    · have he := escaped_readingAfter_iff.mpr (hc (eq_of_ofChar_eq_quote hg (hkl ▸ hk)))
      simp [Reading.quoteAfter, he, hu]
    · simp [Reading.quoteAfter, hu, hkl]
  | _ => exact hu

theorem Inside.outside_concat (h : Inside u q) (he : EvenEnd u) :
    (readingAfter (u ++ [q])).outside := by
  obtain ⟨k, hk, hu⟩ := h
  have hn : ¬ (readingAfter u).escaped := fun hn => escaped_readingAfter_iff.mp hn he
  rw [Reading.outside_iff, readingAfter_concat, Reading.step, hk]
  simp [Reading.quoteAfter, hn, hu]

theorem outside_append (h : (readingAfter u).outside) (hs : Lacks IsQuote u s) :
    (readingAfter (u ++ s)).outside := by
  induction s generalizing u with
  | nil => rwa [List.append_nil]
  | cons c s ih =>
    obtain ⟨hc, hs⟩ := lacks_cons_iff.mp hs
    rw [List.append_cons]
    exact ih (outside_concat h hc) hs

theorem Inside.append (h : Inside u q) (hb : Lacks (· = q) u b) : Inside (u ++ b) q := by
  induction b generalizing u with
  | nil => rwa [List.append_nil]
  | cons c b ih =>
    obtain ⟨hc, hb⟩ := lacks_cons_iff.mp hb
    rw [List.append_cons]
    exact ih (h.concat hc) hb

theorem Inside.not_outside (h : Inside u q) : ¬ (readingAfter u).outside := by
  obtain ⟨k, -, hu⟩ := h
  simp [Reading.outside_iff, hu]

theorem collapseFrom_cons_of_not (h : ¬ ((readingAfter u).outside && isLayout c)) :
    collapseFrom (readingAfter u) gap (c :: t) =
      c :: collapseFrom (readingAfter (u ++ [c])) false t := by
  rw [collapseFrom, if_neg h, readingAfter_concat]

theorem collapseFrom_inside (h : Inside u q) (hb : Lacks (· = q) u b) :
    collapseFrom (readingAfter u) false (b ++ t) =
      b ++ collapseFrom (readingAfter (u ++ b)) false t := by
  induction b generalizing u with
  | nil => simp
  | cons c b ih =>
    obtain ⟨hc, hb⟩ := lacks_cons_iff.mp hb
    have hn : ¬ ((readingAfter u).outside && isLayout c) := by simp [h.not_outside]
    rw [List.cons_append, collapseFrom_cons_of_not hn, ih (h.concat hc) hb, List.append_cons u c b]
    rfl

/-- A passage outside literals is collapsed by squeezing it, without the layout characters at its
beginning if they belong to a gap. -/
theorem collapseFrom_loose (h : (readingAfter u).outside) (hs : Lacks IsQuote u s)
    (ht : ∀ c ∈ t.head?, ¬ isLayout c) :
    collapseFrom (readingAfter u) gap (s ++ t) =
      squeeze (if gap then s.dropWhile isLayout else s) ++
        collapseFrom (readingAfter (u ++ s)) false t := by
  induction s generalizing u gap with
  | nil =>
    have hg : squeeze (if gap then [].dropWhile isLayout else []) = [] := by
      cases gap <;> rw [squeeze.eq_def] <;> rfl
    rw [hg, List.append_nil]
    cases t with
    | nil => rfl
    | cons c t =>
      have hn : ¬ ((readingAfter u).outside && isLayout c) := by simp [ht c rfl]
      rw [List.nil_append, collapseFrom_cons_of_not hn, collapseFrom_cons_of_not hn]
      rfl
  | cons c s ih =>
    obtain ⟨hc, hs⟩ := lacks_cons_iff.mp hs
    have ih := fun gap => @ih (u ++ [c]) gap (outside_concat h hc) hs
    rw [← List.append_cons, readingAfter_concat] at ih
    by_cases hl : isLayout c
    · cases gap with
      | false => simp [collapseFrom, h, hl, ih, squeeze_cons_of_isLayout]
      | true => simp [collapseFrom, h, hl, ih]
    · cases gap with
      | false => simp [collapseFrom, hl, ih, squeeze_cons_of_not_isLayout]
      | true => simp [collapseFrom, hl, ih, squeeze_cons_of_not_isLayout]

end Text

end SourceMarkers
