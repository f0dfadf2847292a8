import SourceMarkers.Proofs.Bytes
import SourceMarkers.Proofs.Continuation

/-! # Literals and line continuations

Parentheses and commas are looked for in a source with its line continuations,
and a field is tidied once they have been removed. Before a character that is
left, both readings see the same literal open, unless a continuation has split
a run of backslashes in front of a quote.
-/

namespace SourceMarkers

namespace Reading

variable {r r' : Reading} {g : Glyph}

/-- The glyph is a quote that opens or closes a literal if it is not escaped. -/
def Heeds (r : Reading) (g : Glyph) : Prop :=
  ∃ q, g = .quote q ∧ (r.quote = none ∨ r.quote = some q)

/-- From the same literal, a glyph leads to the same one unless it is a quote that is escaped in one
reading only. -/
theorem quoteAfter_eq_iff (h : r.quote = r'.quote) :
    r.quoteAfter g = r'.quoteAfter g ↔ (r'.Heeds g → r.escaped = r'.escaped) := by
  unfold Heeds
  cases g with
  | quote q =>
    simp only [quoteAfter, h]
    cases hr : r.escaped <;> cases hr' : r'.escaped <;> cases r'.quote <;> grind
  | _ => simp [quoteAfter, h]

theorem escaped_iff : r.escaped ↔ r.backslashes % 2 = 1 := decide_eq_true_iff

end Reading

namespace Text

/-- A line break that is continued. -/
inductive Continuation : Text → Prop where
  | lf : Continuation ['\\', '\n']
  | crlf : Continuation ['\\', '\r', '\n']

/-- When continuations are removed, the character is left between what is left of the texts on its
two sides. -/
def Survives (u : Text) (c : Char) (v : Text) : Prop :=
  splice (u ++ c :: v) = splice u ++ c :: splice v

instance (u : Text) (c : Char) (v : Text) : Decidable (Survives u c v) :=
  inferInstanceAs (Decidable (_ = _))

/-- The property holds of each character that survives, with the text before it and with what is
left before and after it. -/
def AtSurvivors (t : Text) (P : Text → Text → Char → Text → Prop) : Prop :=
  ∀ u c v, t = u ++ c :: v → Survives u c v → P u (splice u) c (splice v)

variable {b s t u v : Text} {c : Char}
  {P : Text → Text → Char → Text → Prop} {r r' : Reading}

theorem splice_continuation_append (hb : Continuation b) : splice (b ++ t) = splice t := by
  cases hb with
  | lf => exact splice_continuation t
  | crlf => exact splice_continuation_crlf t

theorem splice_cons (h : ∀ b, Continuation b → ¬ b <+: c :: t) :
    splice (c :: t) = c :: splice t := by
  rw [splice]
  · rintro t rfl rfl
    exact h _ .lf (List.prefix_append ['\\', '\n'] t)
  · rintro t rfl rfl
    exact h _ .crlf (List.prefix_append ['\\', '\r', '\n'] t)

@[elab_as_elim]
theorem splice_induction {motive : Text → Prop} (nil : motive [])
    (continuation : ∀ b t, Continuation b → motive t → motive (b ++ t))
    (cons : ∀ c t, (∀ b, Continuation b → ¬ b <+: c :: t) → motive t → motive (c :: t))
    (t : Text) : motive t := by
  fun_induction splice t with
  | case1 t ih => exact continuation _ t .lf ih
  | case2 t ih => exact continuation _ t .crlf ih
  | case3 c t hlf hcrlf ih =>
    refine cons c t ?_ ih
    rintro b (_ | _) ⟨w, hw⟩
    · exact hlf w (List.cons.inj hw).1.symm (List.cons.inj hw).2.symm
    · exact hcrlf w (List.cons.inj hw).1.symm (List.cons.inj hw).2.symm
  | case4 => exact nil

theorem splice_append_of_backslash_not_mem (h : '\\' ∉ s) : splice (s ++ t) = s ++ splice t := by
  induction s with
  | nil => rfl
  | cons c s ih =>
    rw [List.mem_cons, not_or] at h
    rw [List.cons_append, splice_cons_of_ne (Ne.symm h.1), ih h.2, List.cons_append]

theorem Continuation.backslash_not_mem {d : Char} (hb : Continuation b) (h : b = u ++ d :: v) :
    '\\' ∉ v := by
  obtain ⟨w, rfl, hw⟩ : ∃ w, b = '\\' :: w ∧ '\\' ∉ w := by
    cases hb <;> exact ⟨_, rfl, by decide⟩
  rcases List.cons_eq_append_iff.mp h with ⟨-, hv⟩ | ⟨u, -, rfl⟩
  · exact (List.cons.inj hv).2 ▸ hw
  · exact fun hm => hw (by simp [hm])

theorem Continuation.not_survives (hb : Continuation b) (h : b = u ++ c :: v) :
    ¬ Survives u c (v ++ t) := by
  intro hs
  have hl := congrArg List.length hs
  rw [← List.cons_append, ← List.append_assoc, ← h, splice_continuation_append hb,
    splice_append_of_backslash_not_mem (hb.backslash_not_mem h)] at hl
  simp only [List.length_append, List.length_cons] at hl
  omega

theorem survives_continuation_iff (hb : Continuation b) :
    Survives (b ++ u) c v ↔ Survives u c v := by
  unfold Survives
  rw [List.append_assoc, splice_continuation_append hb, splice_continuation_append hb]

theorem survives_cons_iff {d : Char} (h : ∀ b, Continuation b → ¬ b <+: d :: (u ++ c :: v)) :
    Survives (d :: u) c v ↔ Survives u c v := by
  have hu : ∀ b, Continuation b → ¬ b <+: d :: u :=
    fun b hb hp => h b hb (hp.trans (List.prefix_append (d :: u) (c :: v)))
  unfold Survives
  rw [List.cons_append, splice_cons h, splice_cons hu, List.cons_append, List.cons.injEq]
  simp

theorem atSurvivors_continuation_iff (hb : Continuation b) :
    AtSurvivors (b ++ t) P ↔ AtSurvivors t fun u => P (b ++ u) := by
  constructor
  · intro h u c v ht hs
    have hp := h (b ++ u) c v (by simp [ht]) ((survives_continuation_iff hb).mpr hs)
    rwa [splice_continuation_append hb] at hp
  · intro h u c v ht hs
    rcases append_eq_append_cons_iff.mp ht with ⟨w, rfl, hw⟩ | ⟨w, hw, rfl⟩
    · rw [splice_continuation_append hb]
      exact h w c v hw ((survives_continuation_iff hb).mp hs)
    · exact absurd hs (hb.not_survives hw)

theorem atSurvivors_cons_iff (hc : ∀ b, Continuation b → ¬ b <+: c :: t) :
    AtSurvivors (c :: t) P ↔
      P [] [] c (splice t) ∧ AtSurvivors t fun u w => P (c :: u) (c :: w) := by
  have hu : ∀ u d v, t = u ++ d :: v → splice (c :: u) = c :: splice u := by
    rintro u d v rfl
    exact splice_cons fun b hb hp => hc b hb (hp.trans (List.prefix_append (c :: u) (d :: v)))
  constructor
  · intro h
    refine ⟨h [] c t rfl (splice_cons hc), ?_⟩
    intro u d v ht hs
    rw [← hu u d v ht]
    subst ht
    exact h (c :: u) d v rfl ((survives_cons_iff hc).mpr hs)
  · rintro ⟨hp, h⟩ u d v ht hs
    rcases List.cons_eq_append_iff.mp ht with ⟨rfl, hd⟩ | ⟨w, rfl, rfl⟩
    · cases hd
      exact hp
    · rw [hu w d v rfl]
      exact h w d v rfl ((survives_cons_iff hc).mp hs)

theorem atSurvivors_of_splice_eq_nil (h : splice t = []) : AtSurvivors t P := by
  rintro u c v rfl hs
  rw [hs] at h
  simp at h

theorem Continuation.quote_run (hb : Continuation b) :
    (r.run (Glyph.ofText b)).quote = r.quote := by
  cases hb <;> rfl

/-- Only continuations stand before the first character that survives. -/
theorem exists_survives (h : splice t ≠ []) :
    ∃ u c v, t = u ++ c :: v ∧ Survives u c v ∧ splice u = [] ∧
      ∀ r : Reading, (r.run (Glyph.ofText u)).quote = r.quote := by
  induction t using splice_induction with
  | nil => exact absurd rfl h
  | continuation b t hb ih =>
    rw [splice_continuation_append hb] at h
    obtain ⟨u, c, v, rfl, hs, hu, hr⟩ := ih h
    refine ⟨b ++ u, c, v, by simp, (survives_continuation_iff hb).mpr hs, ?_, fun r => ?_⟩
    · rw [splice_continuation_append hb, hu]
    · rw [Glyph.ofText_append, Reading.run_append, hr, hb.quote_run]
  | cons c t hc _ => exact ⟨[], c, t, rfl, splice_cons hc, rfl, fun _ => rfl⟩

/-- Two readings that begin in the same literal, one of a text and one of what is left of it, stay
in the same literal just as long as they agree on which quotes are escaped. -/
theorem quote_run_eq_iff (h : r.quote = r'.quote) :
    (AtSurvivors t fun u u' _ _ =>
        (r.run (Glyph.ofText u)).quote = (r'.run (Glyph.ofText u')).quote) ↔
      AtSurvivors t fun u u' c v' => v' ≠ [] → (r'.run (Glyph.ofText u')).Heeds (.ofChar c) →
        (r.run (Glyph.ofText u)).escaped = (r'.run (Glyph.ofText u')).escaped := by
  induction t using splice_induction generalizing r r' with
  | nil => exact iff_of_true (atSurvivors_of_splice_eq_nil rfl) (atSurvivors_of_splice_eq_nil rfl)
  | continuation b t hb ih =>
    have hq : (r.run (Glyph.ofText b)).quote = r'.quote := hb.quote_run.trans h
    rw [atSurvivors_continuation_iff hb, atSurvivors_continuation_iff hb]
    simpa only [Glyph.ofText_append, Reading.run_append] using ih hq
  | cons c t hc ih =>
    have hstep : (r.step (.ofChar c)).quote = (r'.step (.ofChar c)).quote ↔
        (r'.Heeds (.ofChar c) → r.escaped = r'.escaped) := Reading.quoteAfter_eq_iff h
    rw [atSurvivors_cons_iff hc, atSurvivors_cons_iff hc]
    by_cases ht : splice t = []
    · exact iff_of_true ⟨h, atSurvivors_of_splice_eq_nil ht⟩
        ⟨absurd ht, atSurvivors_of_splice_eq_nil ht⟩
    · constructor
      · rintro ⟨-, ha⟩
        -- The literal behind the character is seen before the next one that survives.
        have hq : (r.step (.ofChar c)).quote = (r'.step (.ofChar c)).quote := by
          obtain ⟨u, d, v, hu, hs, hu', hr⟩ := exists_survives ht
          have hd := ha u d v hu hs
          rwa [hu', Glyph.ofText_cons, Reading.run_cons, hr] at hd
        exact ⟨fun _ => hstep.mp hq, (ih hq).mp ha⟩
      · rintro ⟨he, hb⟩
        exact ⟨h, (ih (hstep.mpr (he ht))).mpr hb⟩

/-- The reading behind a part of a source in which parentheses and commas are looked for. -/
def sourceReading (u : Text) : Reading := (Nesting.start.run (Glyph.ofBytes (utf8 u))).reading

/-- The reading in which a field is tidied, behind what is left of the same part. It is the one with
which `collapse` goes on there. -/
def fieldReading (u : Text) : Reading := Reading.start.run (Glyph.ofText (splice u))

theorem sourceReading_eq : sourceReading u = Reading.start.run (Glyph.ofText u) := by
  rw [sourceReading, Nesting.run_ofBytes, Nesting.reading_run]
  rfl

/-- Before each character that survives, the search and the tidying of fields see the same literal
open, just if each quote that may open or close one, but for the last character, is escaped in both
readings or in none. -/
theorem literals_agree_iff (t : Text) :
    (∀ u c v, t = u ++ c :: v → Survives u c v →
        (sourceReading u).quote = (fieldReading u).quote) ↔
      ∀ u c v, t = u ++ c :: v → Survives u c v → splice v ≠ [] →
        (fieldReading u).Heeds (.ofChar c) →
          (sourceReading u).escaped = (fieldReading u).escaped := by
  simp only [sourceReading_eq]
  exact quote_run_eq_iff (rfl : Reading.start.quote = Reading.start.quote)

/-- The second backslash continues the line, and the first one escapes the quote once the line
break is gone. -/
theorem literals_disagree_split_backslashes :
    ¬ ∀ u c v, "\\\\\n\"x".toList = u ++ c :: v → Survives u c v →
      (sourceReading u).quote = (fieldReading u).quote := by
  intro h
  have hq := h "\\\\\n\"".toList 'x' [] rfl (by decide)
  revert hq
  decide

end Text

end SourceMarkers
