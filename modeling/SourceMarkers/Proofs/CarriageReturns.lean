import SourceMarkers.Proofs.Literals
import SourceMarkers.Proofs.NeatFields

/-! # Carriage returns

Some texts have a carriage return before each line feed. Literals and
parentheses are read in them as they would be without, and a field is tidied
alike, but for the line breaks in its literals.
-/

namespace SourceMarkers

open Nesting

namespace Text

/-- A text with a carriage return before each line feed. -/
def crlf : Text → Text
  | [] => []
  | '\n' :: t => '\r' :: '\n' :: crlf t
  | c :: t => c :: crlf t

variable {b s t u v w : Text} {c : Char} {d : Glyph} {n : Nesting} {r : Reading} {gap : Bool}
  {P : Text → Prop} {cut? : Text → Option (Text × Text)}

@[simp] theorem crlf_nil : crlf [] = [] := rfl

@[simp] theorem crlf_newline_cons : crlf ('\n' :: t) = '\r' :: '\n' :: crlf t := by rw [crlf]

theorem crlf_cons_of_ne (h : c ≠ '\n') : crlf (c :: t) = c :: crlf t := by
  rw [crlf]
  rintro rfl
  exact h rfl

@[simp] theorem crlf_append : crlf (s ++ t) = crlf s ++ crlf t := by
  fun_induction crlf s with
  | case1 => rfl
  | case2 s ih => simp [ih]
  | case3 c s hc ih => rw [List.cons_append, crlf_cons_of_ne hc, ih, List.cons_append]

theorem crlf_of_not_mem (h : '\n' ∉ t) : crlf t = t := by
  fun_induction crlf t with
  | case1 => rfl
  | case2 => exact absurd List.mem_cons_self h
  | case3 c t _ ih => rw [ih fun hm => h (List.mem_cons_of_mem c hm)]

@[simp] theorem breaks_crlf : breaks (crlf t) = breaks t := by
  unfold breaks
  fun_induction crlf t with
  | case1 => rfl
  | case2 t ih => simp [ih]
  | case3 c t hc ih => rw [List.count_cons, List.count_cons, ih]

theorem crlf_suffix_of_eq (h : crlf t = u ++ '\n' :: v) : ['\r'] <:+ u := by
  fun_induction crlf t generalizing u with
  | case1 => simp at h
  | case2 t ih =>
    rcases List.cons_eq_append_iff.mp h with ⟨-, he⟩ | ⟨x, rfl, hx⟩
    · cases he
    · rcases List.cons_eq_append_iff.mp hx with ⟨rfl, -⟩ | ⟨y, rfl, hy⟩
      · exact List.suffix_rfl
      · exact (ih hy).trans (List.suffix_append ['\r', '\n'] y)
  | case3 c t hc ih =>
    rcases List.cons_eq_append_iff.mp h with ⟨-, he⟩ | ⟨x, rfl, hx⟩
    · exact absurd (List.cons.inj he).1.symm hc
    · exact (ih hx).trans (List.suffix_cons c x)

theorem mem_crlf_iff (h : c ≠ '\r') : c ∈ crlf t ↔ c ∈ t := by
  fun_induction crlf t with
  | case1 => exact Iff.rfl
  | case2 t ih => simp [ih, h]
  | case3 d t _ ih => rw [List.mem_cons, List.mem_cons, ih]

theorem prefix_crlf_iff (hn : '\n' ∉ w) (hr : '\r' ∉ w) : w <+: crlf t ↔ w <+: t := by
  induction t generalizing w with
  | nil => exact Iff.rfl
  | cons c t ih =>
    cases w with
    | nil => simp
    | cons a w =>
      rw [List.mem_cons, not_or] at hn hr
      by_cases hc : c = '\n'
      · subst hc
        rw [crlf_newline_cons, List.cons_prefix_cons, List.cons_prefix_cons]
        exact iff_of_false (fun h => hr.1 h.1.symm) (fun h => hn.1 h.1.symm)
      · rw [crlf_cons_of_ne hc, List.cons_prefix_cons, List.cons_prefix_cons, ih hn.2 hr.2]

theorem crlf_eq_append_cons_iff (hn : c ≠ '\n') (hr : c ≠ '\r') :
    crlf t = u ++ c :: v ↔ ∃ a b, t = a ++ c :: b ∧ u = crlf a ∧ v = crlf b := by
  constructor
  · intro h
    fun_induction crlf t generalizing u with
    | case1 => simp at h
    | case2 t ih =>
      rcases List.cons_eq_append_iff.mp h with ⟨-, he⟩ | ⟨x, rfl, hx⟩
      · exact absurd (List.cons.inj he).1 hr
      · rcases List.cons_eq_append_iff.mp hx with ⟨-, he⟩ | ⟨y, rfl, hy⟩
        · exact absurd (List.cons.inj he).1 hn
        · obtain ⟨a, b, rfl, rfl, hb⟩ := ih hy
          exact ⟨'\n' :: a, b, rfl, by simp, hb⟩
    | case3 d t hd ih =>
      rcases List.cons_eq_append_iff.mp h with ⟨rfl, he⟩ | ⟨x, rfl, hx⟩
      · cases he
        exact ⟨[], t, rfl, rfl, rfl⟩
      · obtain ⟨a, b, rfl, rfl, hb⟩ := ih hx
        exact ⟨d :: a, b, rfl, (crlf_cons_of_ne hd).symm, hb⟩
  · rintro ⟨a, b, rfl, rfl, rfl⟩
    rw [crlf_append, crlf_cons_of_ne hn]

theorem cut_crlf (hn : c ≠ '\n') (hr : c ≠ '\r')
    (hc : ∀ {t u v}, cut? t = some (u, v) ↔ t = u ++ c :: v ∧ P u) (hP : ∀ {u}, P (crlf u) ↔ P u) :
    cut? (crlf t) = (cut? t).map (Prod.map crlf crlf) := by
  ext ⟨u, v⟩
  rw [hc, crlf_eq_append_cons_iff hn hr, Option.map_eq_some_iff]
  constructor
  · rintro ⟨⟨a, b, rfl, rfl, rfl⟩, hu⟩
    exact ⟨(a, b), hc.mpr ⟨rfl, hP.mp hu⟩, rfl⟩
  · rintro ⟨⟨a, b⟩, hab, he⟩
    obtain ⟨rfl, ha⟩ := hc.mp hab
    cases he
    exact ⟨⟨a, b, rfl, rfl, rfl⟩, hP.mpr ha⟩

theorem dropLast_crlf (t : Text) :
    ∃ w, (w = [] ∨ w = ['\r']) ∧ (crlf t).dropLast = crlf t.dropLast ++ w := by
  rcases List.eq_nil_or_concat t with rfl | ⟨t, c, rfl⟩
  · exact ⟨[], Or.inl rfl, rfl⟩
  · rw [List.concat_eq_append, crlf_append, List.dropLast_concat]
    by_cases hc : c = '\n'
    · subst hc
      refine ⟨['\r'], Or.inr rfl, ?_⟩
      rw [crlf_newline_cons, crlf_nil, List.append_cons (crlf t), List.dropLast_concat]
    · refine ⟨[], Or.inl rfl, ?_⟩
      rw [crlf_cons_of_ne hc, crlf_nil, List.dropLast_concat, List.append_nil]

theorem run_crlf : n.run (Glyph.ofText (crlf t)) = n.run (Glyph.ofText t) := by
  fun_induction crlf t generalizing n with
  | case1 => rfl
  | case2 t ih => exact (congrArg (run · _) step_plain_step_plain).trans ih
  | case3 c t _ ih => exact ih

theorem walk?_crlf_eq_none (hd : d ≠ .plain) :
    walk? (meets d) n (Glyph.ofText (crlf t)) = none ↔
      walk? (meets d) n (Glyph.ofText t) = none := by
  have hp : ∀ n : Nesting, ¬ n.meets d .plain := by simp [meets, hd.symm]
  fun_induction crlf t generalizing n with
  | case1 => exact Iff.rfl
  | case2 t ih =>
    have hg : Glyph.ofText ('\r' :: '\n' :: crlf t) =
        .plain :: .plain :: Glyph.ofText (crlf t) := rfl
    have hg' : Glyph.ofText ('\n' :: t) = .plain :: Glyph.ofText t := rfl
    -- Two plain glyphs are read where one was, and none of them is met.
    rw [hg, hg', walk?_cons_eq_none, walk?_cons_eq_none, walk?_cons_eq_none, step_plain_step_plain,
      and_iff_right (hp _), and_iff_right (hp _), and_iff_right (hp _)]
    exact ih
  | case3 c t _ ih =>
    rw [Glyph.ofText_cons, Glyph.ofText_cons, walk?_cons_eq_none, walk?_cons_eq_none]
    exact and_congr_right' ih

theorem freeOf_crlf (hd : d ≠ .plain) : FreeOf d (crlf t) ↔ FreeOf d t := by
  constructor
  · rintro ⟨hw, hr⟩
    exact ⟨(walk?_crlf_eq_none hd).mp hw, by rwa [run_crlf] at hr⟩
  · rintro ⟨hw, hr⟩
    exact ⟨(walk?_crlf_eq_none hd).mpr hw, by rwa [run_crlf]⟩

theorem continuation_prefix_of_crlf (h : '\r' ∉ c :: t) (hb : Continuation b)
    (hp : b <+: crlf (c :: t)) : ∃ b, Continuation b ∧ b <+: c :: t := by
  rw [List.mem_cons, not_or] at h
  obtain ⟨b, rfl, hb⟩ : ∃ w, b = '\\' :: w ∧ (w = ['\n'] ∨ w = ['\r', '\n']) := by
    cases hb <;> simp
  by_cases hc : c = '\n'
  · subst hc
    rw [crlf_newline_cons, List.cons_prefix_cons] at hp
    exact absurd hp.1 (by decide)
  · rw [crlf_cons_of_ne hc, List.cons_prefix_cons] at hp
    obtain ⟨rfl, hp⟩ := hp
    cases t with
    | nil => rcases hb with rfl | rfl <;> simp at hp
    | cons d t =>
      by_cases hd : d = '\n'
      · subst hd
        exact ⟨_, .lf, List.prefix_append ['\\', '\n'] t⟩
      · rw [crlf_cons_of_ne hd] at hp
        rcases hb with rfl | rfl
        · exact absurd (List.cons_prefix_cons.mp hp).1.symm hd
        · obtain ⟨rfl, -⟩ := List.cons_prefix_cons.mp hp
          exact absurd List.mem_cons_self h.2

theorem splice_crlf (h : '\r' ∉ t) : splice (crlf t) = crlf (splice t) := by
  induction t using splice_induction with
  | nil => rfl
  | continuation b t hb ih =>
    have hi := ih fun hm => h (List.mem_append_right b hm)
    cases hb with
    | lf => exact (splice_continuation_crlf (crlf t)).trans hi
    | crlf => exact absurd (by simp) h
  | cons c t hc ih =>
    have hi := ih fun hm => h (List.mem_cons_of_mem c hm)
    rw [splice_cons hc]
    by_cases hn : c = '\n'
    · subst hn
      rw [crlf_newline_cons, crlf_newline_cons, splice_cons_of_ne (by decide),
        splice_cons_of_ne (by decide), hi]
    · rw [crlf_cons_of_ne hn, crlf_cons_of_ne hn, splice_cons, hi]
      intro b hb hp
      rw [← crlf_cons_of_ne hn] at hp
      obtain ⟨b, hb, hp⟩ := continuation_prefix_of_crlf h hb hp
      exact hc b hb hp

/-- A carriage return is a layout character like the line feed behind it. -/
theorem collapseFrom_crlf : collapseFrom r gap (crlf t) = crlf (collapseFrom r gap t) := by
  fun_induction crlf t generalizing r gap with
  | case1 => rfl
  | case2 t ih =>
    have hr : Glyph.ofChar '\r' = .plain := by decide
    have hn : Glyph.ofChar '\n' = .plain := by decide
    have ho : (r.step .plain).outside = r.outside := rfl
    have hs : (r.step .plain).step .plain = r.step .plain := rfl
    have hl : isLayout '\r' ∧ isLayout '\n' := by decide
    rw [collapseFrom, collapseFrom, collapseFrom, collapseFrom, hr, hn, ho, hs, hl.1, hl.2]
    -- Outside a literal the carriage return opens the gap that the line feed would.
    cases r.outside with
    | true =>
      cases gap with
      | true => exact ih
      | false => exact congrArg (' ' :: ·) ih
    | false => exact congrArg ('\r' :: '\n' :: ·) ih
  | case3 c t hc ih =>
    rw [collapseFrom, collapseFrom]
    split
    · split
      · exact ih
      · exact congrArg (' ' :: ·) ih
    · rw [crlf_cons_of_ne hc, ih]

theorem trimStart_crlf : trimStart (crlf t) = crlf (trimStart t) := by
  unfold trimStart
  fun_induction crlf t with
  | case1 => rfl
  | case2 t ih =>
    rw [List.dropWhile_cons_of_pos (by decide), List.dropWhile_cons_of_pos (by decide),
      List.dropWhile_cons_of_pos (by decide), ih]
  | case3 c t hc ih =>
    rw [List.dropWhile_cons, List.dropWhile_cons]
    split
    · exact ih
    · exact (crlf_cons_of_ne hc).symm

theorem trimEnd_crlf : trimEnd (crlf t) = crlf (trimEnd t) := by
  induction t using List.reverseRecOn with
  | nil => rfl
  | append_singleton t c ih =>
    by_cases hb : isBlank c
    · rw [trimEnd_concat_of_isBlank hb, crlf_append, ← ih]
      by_cases hn : c = '\n'
      · subst hn
        rw [crlf_newline_cons, crlf_nil, List.append_cons, trimEnd_concat_of_isBlank hb,
          trimEnd_concat_of_isBlank (by decide)]
      · rw [crlf_cons_of_ne hn, crlf_nil, trimEnd_concat_of_isBlank hb]
    · have hn : c ≠ '\n' := by
        rintro rfl
        exact hb (by decide)
      have he : ∀ s : Text, trimEnd (s ++ [c]) = s ++ [c] :=
        fun s => List.rdropWhile_concat_neg isBlank s c hb
      rw [he, crlf_append, crlf_cons_of_ne hn, crlf_nil, he]

theorem trim_crlf : trim (crlf t) = crlf (trim t) := by
  rw [trim, trim, trimStart_crlf, trimEnd_crlf]

theorem dropComma_crlf : dropComma (crlf t) = crlf (dropComma t) := by
  by_cases h : ∃ s, trimStart t = ',' :: s
  · obtain ⟨s, hs⟩ := h
    have hc : trimStart (crlf t) = ',' :: crlf s := by
      rw [trimStart_crlf, hs, crlf_cons_of_ne (by decide)]
    rw [dropComma_of_comma hs, dropComma_of_comma hc, trimStart_crlf]
  · rw [dropComma_of_ne fun s hs => h ⟨s, hs⟩, dropComma_of_ne, trimStart_crlf]
    intro s hs
    have hp : [','] <+: crlf (trimStart t) := trimStart_crlf ▸ ⟨s, hs.symm⟩
    obtain ⟨s, hs⟩ := (prefix_crlf_iff (by decide) (by decide)).mp hp
    exact h ⟨s, hs.symm⟩

theorem trim_trimStart : trim (trimStart t) = trim t := by
  rw [trim, trim, trimStart, trimStart, List.dropWhile_idempotent]

theorem trim_dropComma_concat_of_isBlank (h : isBlank c) :
    trim (dropComma (t ++ [c])) = trim (dropComma t) := by
  have hs : trimStart (t ++ [c]) = if trimStart t = [] then [] else trimStart t ++ [c] := by
    unfold trimStart
    simp [List.dropWhile_append, h]
  cases ht : trimStart t with
  | nil =>
    rw [ht, if_pos rfl] at hs
    rw [dropComma_of_ne (by simp [hs]), dropComma_of_ne (by simp [ht]), hs, ht]
  | cons d s =>
    rw [ht, if_neg (List.cons_ne_nil d s), List.cons_append] at hs
    by_cases hd : d = ','
    · subst hd
      rw [dropComma_of_comma hs, dropComma_of_comma ht, trim_trimStart, trim_trimStart,
        trim_concat_of_isBlank h]
    · rw [dropComma_of_ne (by simp [hs, hd]), dropComma_of_ne (by simp [ht, hd]), hs, ht,
        ← List.cons_append, trim_concat_of_isBlank h]

/-- A parameter list that is cut between the two characters of a line break is the same. -/
theorem tidyParams_concat_carriageReturn : tidyParams (t ++ ['\r']) = tidyParams t := by
  rw [tidyParams, tidyParams, splice_concat (by decide)]
  rcases collapse_concat_of_isLayout (t := splice t) (c := '\r') rfl with hc | ⟨b, hb, hc⟩
  · rw [hc]
  · rw [hc, trim_dropComma_concat_of_isBlank hb]

theorem tidy_crlf (h : '\r' ∉ t) : tidy (crlf t) = crlf (tidy t) := by
  rw [tidy, tidy, splice_crlf h, collapse, collapse, collapseFrom_crlf, trim_crlf]

theorem tidyParams_crlf (h : '\r' ∉ t) : tidyParams (crlf t) = crlf (tidyParams t) := by
  rw [tidyParams, tidyParams, splice_crlf h, collapse, collapse, collapseFrom_crlf, dropComma_crlf,
    trim_crlf]

end Text

end SourceMarkers
