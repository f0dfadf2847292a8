import SourceMarkers.Proofs.CarriageReturns
import SourceMarkers.Proofs.Collapsing
import SourceMarkers.Proofs.NeatFields

/-! # What tidying does to a field

A tidy field is the field without its line continuations, with one space for
each run of layout characters between its literals, and without the blanks at
its ends. Its literals are those of the field: nothing that is taken away stands
between a backslash and a quote.
-/

namespace SourceMarkers

namespace Text

/-- The second text is the first one without its line continuations, which are looked for from left
to right. -/
inductive Spliced : Text → Text → Prop where
  | nil : Spliced [] []
  | continuation {b t j : Text} : Continuation b → Spliced t j → Spliced (b ++ t) j
  | cons {c : Char} {t j : Text} : (∀ b, Continuation b → ¬ b <+: c :: t) → Spliced t j →
      Spliced (c :: t) (c :: j)

variable {j s t u u' : Text} {c q : Char}

theorem spliced_iff : Spliced t j ↔ j = splice t := by
  constructor
  · intro h
    induction h with
    | nil => rfl
    | continuation hb _ ih => rw [splice_continuation_append hb, ih]
    | cons hc _ ih => rw [splice_cons hc, ih]
  · rintro rfl
    induction t using splice_induction with
    | nil => exact .nil
    | continuation b t hb ih =>
      rw [splice_continuation_append hb]
      exact .continuation hb ih
    | cons c t hc ih =>
      rw [splice_cons hc]
      exact .cons hc ih

theorem trimStart_append_cons (h : ¬ isBlank c) :
    trimStart (s ++ c :: t) = trimStart s ++ c :: t := by
  unfold trimStart
  rw [List.dropWhile_append]
  split
  · next he => rw [List.isEmpty_iff.mp he, List.dropWhile_cons_of_neg h, List.nil_append]
  · rfl

theorem trimEnd_append_cons (h : ¬ isBlank c) : trimEnd (s ++ c :: t) = s ++ c :: trimEnd t := by
  have hr := trimStart_append_cons (s := t.reverse) (t := s.reverse) h
  unfold trimStart at hr
  unfold trimEnd
  rw [List.reverse_append, List.reverse_cons, List.append_assoc, List.singleton_append, hr]
  simp

theorem evenEnd_append_of_not_mem (hs : s ≠ []) (h : '\\' ∉ s) : EvenEnd (u ++ s) := by
  obtain ⟨s, c, rfl⟩ := (List.eq_nil_or_concat s).resolve_left hs
  rw [List.concat_eq_append] at h ⊢
  rw [← List.append_assoc]
  apply evenEnd_concat_of_ne
  rintro rfl
  exact h (by simp)

theorem backslash_not_mem_takeWhile {p : Char → Bool} (h : ¬ p '\\') :
    '\\' ∉ s.takeWhile p := fun hm => h (List.mem_takeWhile_imp hm)

/-- A text that begins with a layout character begins with a run of them, which leaves no backslash
behind. -/
theorem exists_run (h : isLayout c) :
    ∃ g, c :: t = g ++ t.dropWhile isLayout ∧ ∀ u : Text, EvenEnd (u ++ g) := by
  refine ⟨(c :: t).takeWhile isLayout, ?_, fun u => ?_⟩
  · rw [← List.dropWhile_cons_of_pos h, List.takeWhile_append_dropWhile]
  · refine evenEnd_append_of_not_mem ?_ (backslash_not_mem_takeWhile (by decide))
    rw [List.takeWhile_cons_of_pos h]
    exact List.cons_ne_nil _ _

theorem evenEnd_squeeze (h : EvenEnd u ↔ EvenEnd u') :
    EvenEnd (u ++ s) ↔ EvenEnd (u' ++ squeeze s) := by
  induction s using squeeze_induction generalizing u u' with
  | nil => simpa [squeeze] using h
  | run c t hc ih =>
    obtain ⟨g, hg, he⟩ := exists_run (t := t) hc
    rw [squeeze_cons_of_isLayout hc, List.append_cons u', hg, ← List.append_assoc]
    exact ih (iff_of_true (he u) (evenEnd_concat_of_ne (by decide)))
  | cons c t hc ih =>
    rw [squeeze_cons_of_not_isLayout hc, List.append_cons u, List.append_cons u']
    exact ih (by rw [evenEnd_concat, evenEnd_concat, h])

theorem Lacks.squeeze (h : EvenEnd u ↔ EvenEnd u') (hs : Lacks IsQuote u s) :
    Lacks IsQuote u' (squeeze s) := by
  induction s using squeeze_induction generalizing u u' with
  | nil =>
    rw [Text.squeeze]
    exact lacks_nil
  | run c t hc ih =>
    obtain ⟨g, hg, he⟩ := exists_run (t := t) hc
    rw [hg, lacks_append_iff] at hs
    rw [squeeze_cons_of_isLayout hc, lacks_cons_iff]
    constructor
    · intro hq
      exact absurd hq (by unfold IsQuote; decide)
    · exact ih (iff_of_true (he u) (evenEnd_concat_of_ne (by decide))) hs.2
  | cons c t hc ih =>
    rw [lacks_cons_iff] at hs
    rw [squeeze_cons_of_not_isLayout hc, lacks_cons_iff]
    constructor
    · intro hq he
      exact hs.1 hq (h.mpr he)
    · exact ih (by rw [evenEnd_concat, evenEnd_concat, h]) hs.2

theorem FirstAfter.squeeze (h : EvenEnd u ↔ EvenEnd u') (hs : FirstAfter IsQuote u s q) :
    FirstAfter IsQuote u' (squeeze s) q :=
  ⟨hs.lacks.squeeze h, hs.holds, (evenEnd_squeeze h).mp hs.evenEnd⟩

theorem evenEnd_takeWhile_isBlank : EvenEnd (s.takeWhile isBlank) := by
  by_cases hs : s.takeWhile isBlank = []
  · rw [hs]
    exact evenEnd_nil
  · exact evenEnd_append_of_not_mem (u := []) hs (backslash_not_mem_takeWhile (by decide))

theorem Lacks.trimStart (h : Lacks IsQuote [] s) : Lacks IsQuote [] (trimStart s) := by
  rw [← List.takeWhile_append_dropWhile (p := isBlank) (l := s), lacks_append_iff] at h
  exact h.2.congr (iff_of_true evenEnd_takeWhile_isBlank evenEnd_nil)

theorem FirstAfter.trimStart (h : FirstAfter IsQuote [] s q) :
    FirstAfter IsQuote [] (trimStart s) q := by
  refine ⟨h.lacks.trimStart, h.holds, ?_⟩
  have he := h.evenEnd
  rw [← List.takeWhile_append_dropWhile (p := isBlank) (l := s), ← List.append_assoc] at he
  exact (evenEnd_append_congr (iff_of_true evenEnd_takeWhile_isBlank evenEnd_nil)).mp he

end Text

/-- The literal without the blanks at its end, if it is not closed. -/
def Literal.trimmed (l : Literal) : Literal :=
  if l.closed then l else { l with body := Text.trimEnd l.body }

namespace Passages

open Text

def squeezed : Passages → Passages
  | loose t => loose (squeeze t)
  | unclosed s q b => unclosed (squeeze s) q b
  | closed s q b rest => closed (squeeze s) q b rest.squeezed

def trimmedStart : Passages → Passages
  | loose t => loose (trimStart t)
  | unclosed s q b => unclosed (trimStart s) q b
  | closed s q b rest => closed (trimStart s) q b rest

def trimmedEnd : Passages → Passages
  | loose t => loose (trimEnd t)
  | unclosed s q b => unclosed s q (trimEnd b)
  | closed s q b rest => closed s q b rest.trimmedEnd

variable {p : Passages} {u u' s s' b : Text} {q : Char} {rest : Passages}

theorem ReadAfter.unclosed_congr (h : (unclosed s q b).ReadAfter u)
    (hq : FirstAfter IsQuote u' s' q) : (unclosed s' q b).ReadAfter u' := by
  have he : ∀ v : Text, EvenEnd (v ++ [q]) := fun v => evenEnd_concat_of_ne hq.holds.ne_backslash
  exact ⟨hq, h.2.congr (iff_of_true (he _) (he _))⟩

theorem ReadAfter.closed_congr (h : (closed s q b rest).ReadAfter u)
    (hq : FirstAfter IsQuote u' s' q) : (closed s' q b rest).ReadAfter u' := by
  have he : ∀ v : Text, EvenEnd (v ++ [q]) := fun v => evenEnd_concat_of_ne hq.holds.ne_backslash
  exact ⟨hq, h.2.1.congr (iff_of_true (he _) (he _)), h.2.2.congr (iff_of_true (he _) (he _))⟩

theorem ReadAfter.squeezed (h : EvenEnd u ↔ EvenEnd u') (hp : p.ReadAfter u) :
    p.squeezed.ReadAfter u' := by
  induction p generalizing u u' with
  | loose t => exact Lacks.squeeze h hp
  | unclosed s q b => exact hp.unclosed_congr (hp.1.squeeze h)
  | closed s q b rest ih =>
    obtain ⟨hq, hb, -⟩ := hp.closed_congr (hp.1.squeeze h)
    have he : ∀ v : Text, EvenEnd (v ++ [q]) := fun v => evenEnd_concat_of_ne hq.holds.ne_backslash
    exact ⟨hq, hb, ih (iff_of_true (he _) (he _)) hp.2.2⟩

theorem ReadAfter.trimmedStart (h : p.ReadAfter []) : p.trimmedStart.ReadAfter [] := by
  cases p with
  | loose t => exact Lacks.trimStart h
  | unclosed s q b => exact h.unclosed_congr h.1.trimStart
  | closed s q b rest => exact h.closed_congr h.1.trimStart

theorem ReadAfter.trimmedEnd (h : p.ReadAfter u) : p.trimmedEnd.ReadAfter u := by
  induction p generalizing u with
  | loose t => exact Lacks.of_prefix h trimEnd_prefix_self
  | unclosed s q b => exact ⟨h.1, Lacks.of_prefix h.2 trimEnd_prefix_self⟩
  | closed s q b rest ih => exact ⟨h.1, h.2.1, ih h.2.2⟩

/-- Collapsing a text squeezes the passages between its literals. -/
theorem ReadAfter.collapseFrom_source (h : p.ReadAfter u) (ho : (readingAfter u).outside) :
    collapseFrom (readingAfter u) false p.source = p.squeezed.source := by
  induction p generalizing u with
  | loose t =>
    have hc : collapseFrom (readingAfter u) false (t ++ []) =
        squeeze t ++ collapseFrom (readingAfter (u ++ t)) false [] :=
      collapseFrom_loose ho h (by simp)
    rw [List.append_nil] at hc
    exact hc.trans (List.append_nil _)
  | unclosed s q b =>
    obtain ⟨hq, hb⟩ := h
    have hi := inside_concat_self (outside_append ho hq.lacks) hq.holds hq.evenEnd
    have hl : ∀ c ∈ (q :: b).head?, ¬ isLayout c := by simpa using hq.holds.not_isLayout
    have hn : ¬ ((readingAfter (u ++ s)).outside && isLayout q) := by
      simp [hq.holds.not_isLayout]
    have hc := collapseFrom_inside (t := []) hi hb
    rw [List.append_nil] at hc
    rw [source, collapseFrom_loose ho hq.lacks hl, collapseFrom_cons_of_not hn, hc]
    exact congrArg _ (congrArg _ (List.append_nil _))
  | closed s q b rest ih =>
    obtain ⟨hq, hb, hr⟩ := h
    have hi := inside_concat_self (outside_append ho hq.lacks) hq.holds hq.evenEnd
    have hl : ∀ c ∈ (q :: (b ++ q :: rest.source)).head?, ¬ isLayout c := by
      simpa using hq.holds.not_isLayout
    have hn : ∀ v : Text, ¬ ((readingAfter v).outside && isLayout q) := by
      simp [hq.holds.not_isLayout]
    have ho' := (hi.append hb.lacks).outside_concat hb.evenEnd
    rw [source, collapseFrom_loose ho hq.lacks hl, collapseFrom_cons_of_not (hn _),
      collapseFrom_inside hi hb.lacks, collapseFrom_cons_of_not (hn _), ih hr ho']
    rfl

theorem ReadAfter.trimStart_source (h : p.ReadAfter u) :
    trimStart p.source = p.trimmedStart.source := by
  cases p with
  | loose t => rfl
  | unclosed s q b => exact trimStart_append_cons h.1.holds.not_isBlank
  | closed s q b rest => exact trimStart_append_cons h.1.holds.not_isBlank

theorem ReadAfter.trimEnd_source (h : p.ReadAfter u) :
    trimEnd p.source = p.trimmedEnd.source := by
  induction p generalizing u with
  | loose t => rfl
  | unclosed s q b => exact trimEnd_append_cons h.1.holds.not_isBlank
  | closed s q b rest ih =>
    have hq := h.1.holds.not_isBlank
    rw [source, trimEnd_append_cons hq, trimEnd_append_cons hq, ih h.2.2]
    rfl

/-- The passages that are left when a text has been collapsed and trimmed. -/
def tidied (p : Passages) : Passages := p.squeezed.trimmedStart.trimmedEnd

theorem ReadAfter.tidied (h : p.ReadAfter []) : p.tidied.ReadAfter [] :=
  (h.squeezed Iff.rfl).trimmedStart.trimmedEnd

theorem ReadAfter.source_tidied (h : p.ReadAfter []) :
    p.tidied.source = trim p.squeezed.source := by
  have hs : p.squeezed.ReadAfter [] := h.squeezed Iff.rfl
  rw [trim, hs.trimStart_source, hs.trimmedStart.trimEnd_source]
  rfl

theorem literals_squeezed (p : Passages) : p.squeezed.literals = p.literals := by
  induction p with
  | loose t => rfl
  | unclosed s q b => rfl
  | closed s q b rest ih => rw [squeezed, literals, ih, literals]

theorem literals_trimmedStart (p : Passages) : p.trimmedStart.literals = p.literals := by
  cases p <;> rfl

theorem literals_trimmedEnd (p : Passages) :
    p.trimmedEnd.literals = p.literals.map Literal.trimmed := by
  induction p with
  | loose t => rfl
  | unclosed s q b => rfl
  | closed s q b rest ih =>
    rw [trimmedEnd, literals, ih, literals]
    rfl

end Passages

namespace Text

open Passages

theorem trimStart_trimEnd (t : Text) : trimStart (trimEnd t) = trim t := by
  cases ht : trimStart t with
  | nil =>
    have he : trimEnd t = [] := List.rdropWhile_eq_nil_iff.mpr (List.dropWhile_eq_nil_iff.mp ht)
    rw [trim, ht, he]
    rfl
  | cons c s =>
    have hc : ¬ isBlank c := by
      have hn := List.head?_dropWhile_not isBlank t
      rw [← trimStart, ht] at hn
      simpa using hn
    have hs : t = t.takeWhile isBlank ++ c :: s := by
      rw [← ht]
      exact List.takeWhile_append_dropWhile.symm
    have hb : trimStart (t.takeWhile isBlank) = [] :=
      List.dropWhile_eq_nil_iff.mpr fun d hd => List.mem_takeWhile_imp hd
    have he := trimEnd_append_cons (s := []) (t := s) hc
    rw [List.nil_append, List.nil_append] at he
    rw [trim, ht, he, hs, trimEnd_append_cons hc, trimStart_append_cons hc, hb, List.nil_append]

theorem trimStart_trim (t : Text) : trimStart (trim t) = trim t := by
  rw [← trimStart_trimEnd, trimStart, trimStart, List.dropWhile_idempotent]

theorem trim_dropComma (t : Text) : trim (dropComma t) = dropComma (trim t) := by
  by_cases h : ∃ s, trimStart t = ',' :: s
  · obtain ⟨s, hs⟩ := h
    have he : trim t = ',' :: trimEnd s := by
      rw [trim, hs]
      exact trimEnd_append_cons (s := []) (by decide)
    rw [dropComma_of_comma hs, dropComma_of_comma ((trimStart_trim t).trans he), trim_trimStart,
      trimStart_trimEnd]
  · have hn : ∀ s, trimStart (trim t) ≠ ',' :: s := by
      intro s hs
      rw [trimStart_trim] at hs
      obtain ⟨w, hw⟩ := trimEnd_prefix_self (t := trimStart t)
      rw [← trim, hs] at hw
      exact h ⟨s ++ w, hw.symm⟩
    rw [dropComma_of_ne fun s hs => h ⟨s, hs⟩, dropComma_of_ne hn, trim_trimStart, trimStart_trim]

theorem trimStart_tidy (raw : Text) : trimStart (tidy raw) = tidy raw := trimStart_trim _

theorem tidyParams_eq (raw : Text) : tidyParams raw = dropComma (tidy raw) :=
  trim_dropComma _

/-- A tidy field, in terms of the literals of the field without its continuations and of the
passages between them. -/
theorem tidy_keeps_literals (raw : Text) :
    ∃ (j : Text) (p q : Passages), (∀ j', Spliced raw j' ↔ j' = j) ∧
      (∀ p' : Passages, p'.Reads j ↔ p' = p) ∧ (∀ q' : Passages, q'.Reads (tidy raw) ↔ q' = q) ∧
      tidy raw = trim p.squeezed.source ∧ q.literals = p.literals.map Literal.trimmed ∧
      (∀ rest, tidy raw = ',' :: rest → tidyParams raw = trimStart rest) ∧
      ((∀ rest, tidy raw ≠ ',' :: rest) → tidyParams raw = tidy raw) := by
  obtain ⟨p, hp⟩ := exists_reads_iff (splice raw)
  obtain ⟨hs, hr⟩ := (hp p).mpr rfl
  have ht : tidy raw = trim p.squeezed.source := by
    have hc := hr.collapseFrom_source rfl
    rw [hs] at hc
    exact congrArg trim hc
  obtain ⟨q, hq⟩ := exists_reads_iff (tidy raw)
  have hqp : p.tidied = q := (hq _).mp ⟨hr.source_tidied.trans ht.symm, hr.tidied⟩
  refine ⟨splice raw, p, q, fun _ => spliced_iff, hp, hq, ht, ?_, ?_, ?_⟩
  · rw [← hqp, Passages.tidied, literals_trimmedEnd, literals_trimmedStart, literals_squeezed]
  · intro rest hc
    rw [tidyParams_eq, dropComma_of_comma ((trimStart_tidy raw).trans hc)]
  · intro hc
    have hn : ∀ rest, trimStart (tidy raw) ≠ ',' :: rest := by rwa [trimStart_tidy]
    rw [tidyParams_eq, dropComma_of_ne hn, trimStart_tidy]

end Text

end SourceMarkers
