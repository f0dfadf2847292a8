import SourceMarkers.Proofs.FieldCuts
import SourceMarkers.Proofs.Findings

/-! # Continued lines

A line continuation may be put in anywhere between the parentheses of a marker
but behind a backslash. It is not seen when parentheses, literals and commas are
read, and it is gone from the tidy fields. So nothing changes but the lines.
-/

namespace SourceMarkers

open Nesting

theorem rel_bind {α β γ δ : Type} {r : α → β → Prop} {q : γ → δ → Prop} {x : Option α}
    {y : Option β} {f : α → Option γ} {g : β → Option δ} (h : Option.Rel r x y)
    (hf : ∀ a b, r a b → Option.Rel q (f a) (g b)) : Option.Rel q (x.bind f) (y.bind g) := by
  cases h with
  | none => exact .none
  | some h => exact hf _ _ h

namespace Text

def EndsClean (t : Text) : Prop := ¬ ['\\'] <:+ t ∧ ¬ ['\\', '\r'] <:+ t

instance (t : Text) : Decidable t.EndsClean := inferInstanceAs (Decidable (_ ∧ _))

variable {s t u v : Text} {c : Char} {d : Glyph}

theorem EndsClean.of_suffix (h : t.EndsClean) (hs : s <:+ t) : s.EndsClean :=
  ⟨fun hb => h.1 (hb.trans hs), fun hb => h.2 (hb.trans hs)⟩

theorem EndsClean.append (h : t.EndsClean) (hl : 2 ≤ t.length) : (s ++ t).EndsClean := by
  have hs : t <:+ s ++ t := List.suffix_append s t
  exact ⟨fun hb => h.1 (List.suffix_of_suffix_length_le hb hs (by simp; omega)),
    fun hb => h.2 (List.suffix_of_suffix_length_le hb hs hl)⟩

theorem splice_append (h : s.EndsClean) : splice (s ++ t) = splice s ++ splice t := by
  fun_induction splice s with
  | case1 s ih =>
    have hs : EndsClean s := h.of_suffix (List.suffix_append ['\\', '\n'] s)
    rw [List.cons_append, List.cons_append, splice_continuation, ih hs]
  | case2 s ih =>
    have hs : EndsClean s := h.of_suffix (List.suffix_append ['\\', '\r', '\n'] s)
    rw [List.cons_append, List.cons_append, List.cons_append, splice_continuation_crlf, ih hs]
  | case3 c s hlf hcrlf ih =>
    have hs : EndsClean s := h.of_suffix (List.suffix_cons c s)
    rw [List.cons_append, splice, ih hs, List.cons_append]
    · rintro r rfl he
      rcases List.append_eq_cons_iff.mp he with ⟨rfl, -⟩ | ⟨s, rfl, -⟩
      · exact h.1 List.suffix_rfl
      · exact hlf s rfl rfl
    · rintro r rfl he
      rcases List.append_eq_cons_iff.mp he with ⟨rfl, -⟩ | ⟨s, rfl, hr⟩
      · exact h.1 List.suffix_rfl
      · rcases List.append_eq_cons_iff.mp hr.symm with ⟨rfl, -⟩ | ⟨s, rfl, -⟩
        · exact h.2 List.suffix_rfl
        · exact hcrlf s rfl rfl
  | case4 => rfl

theorem splice_insert (h : s.EndsClean) : splice (s ++ '\\' :: '\n' :: t) = splice (s ++ t) := by
  rw [splice_append h, splice_append h, splice_continuation]

theorem EndsClean.backslashes_run (h : t.EndsClean) :
    (start.run (Glyph.ofText t)).reading.backslashes = 0 := by
  rcases List.eq_nil_or_concat t with rfl | ⟨t, c, rfl⟩
  · rfl
  · rw [List.concat_eq_append] at h ⊢
    have hc : Glyph.ofChar c ≠ .backslash := by
      rw [Ne, Glyph.ofChar_eq_backslash_iff]
      rintro rfl
      exact h.1 (List.suffix_append t ['\\'])
    rw [Glyph.ofText_append, run_append]
    exact if_neg hc

theorem step_continuation {n : Nesting} (h : n.reading.backslashes = 0) :
    (n.step .backslash).step .plain = n := by
  obtain ⟨⟨q, b⟩, depth⟩ := n
  cases h
  cases q <;> rfl

theorem run_insert (h : s.EndsClean) :
    start.run (Glyph.ofText (s ++ '\\' :: '\n' :: t)) = start.run (Glyph.ofText (s ++ t)) := by
  rw [Glyph.ofText_append, Glyph.ofText_append, run_append, run_append]
  exact congrArg (run · _) (step_continuation h.backslashes_run)

theorem walk?_insert_eq_none (h : s.EndsClean) (hb : d ≠ .backslash) (hp : d ≠ .plain) :
    walk? (meets d) start (Glyph.ofText (s ++ '\\' :: '\n' :: t)) = none ↔
      walk? (meets d) start (Glyph.ofText (s ++ t)) = none := by
  have hg : Glyph.ofText ('\\' :: '\n' :: t) = .backslash :: .plain :: Glyph.ofText t := rfl
  rw [Glyph.ofText_append, Glyph.ofText_append, walk?_append_eq_none, walk?_append_eq_none, hg,
    walk?_cons_eq_none, walk?_cons_eq_none, step_continuation h.backslashes_run]
  simp [meets, hb.symm, hp.symm]

theorem freeOf_insert (h : s.EndsClean) (hb : d ≠ .backslash) (hp : d ≠ .plain) :
    FreeOf d (s ++ '\\' :: '\n' :: t) ↔ FreeOf d (s ++ t) := by
  constructor
  · rintro ⟨hw, hr⟩
    exact ⟨(walk?_insert_eq_none h hb hp).mp hw, by rwa [run_insert h] at hr⟩
  · rintro ⟨hw, hr⟩
    exact ⟨(walk?_insert_eq_none h hb hp).mpr hw, by rwa [run_insert h]⟩

/-- The second text is the first one, perhaps with a line continuation put in before its end. -/
inductive Continued : Text → Text → Prop where

  | same (t : Text) : Continued t t

  | broken (u : Text) {v : Text} : u.EndsClean → v ≠ [] →
      Continued (u ++ v) (u ++ '\\' :: '\n' :: v)

theorem Continued.splice_dropLast (h : Continued s t) : splice s.dropLast = splice t.dropLast := by
  cases h with
  | same => rfl
  | @broken u v hu hv =>
    rw [List.dropLast_append_of_ne_nil hv, List.dropLast_append_of_ne_nil (by simp),
      List.dropLast_cons_of_ne_nil (by simp), List.dropLast_cons_of_ne_nil hv, splice_insert hu]

/-- Texts are cut at the first place where the character stands behind a part with the property, and
continuations do not change whether a part has it. -/
structure CutsAt (c : Char) (P : Text → Prop) (cut? : Text → Option (Text × Text)) : Prop where
  eq_some_iff : ∀ {t u v}, cut? t = some (u, v) ↔ t = u ++ c :: v ∧ P u
  insert_iff : ∀ {u v : Text}, u.EndsClean → (P (u ++ '\\' :: '\n' :: v) ↔ P (u ++ v))
  ne_backslash : c ≠ '\\'
  ne_newline : c ≠ '\n'

namespace CutsAt

variable {P : Text → Prop} {cut? : Text → Option (Text × Text)} {p : Text × Text}

theorem cut_insert (h : CutsAt c P cut?) (hu : u.EndsClean) (hv : v ≠ [])
    (hp : cut? (u ++ v) = some p) :
    ∃ q, cut? (u ++ '\\' :: '\n' :: v) = some q ∧ splice p.1 = splice q.1 ∧ Continued p.2 q.2 := by
  obtain ⟨a, b⟩ := p
  obtain ⟨he, ha⟩ := h.eq_some_iff.mp hp
  rcases append_eq_append_cons_iff.mp he with ⟨w, rfl, rfl⟩ | ⟨w, rfl, rfl⟩
  · refine ⟨(u ++ '\\' :: '\n' :: w, b), ?_, (splice_insert hu).symm, .same b⟩
    exact h.eq_some_iff.mpr ⟨by simp, (h.insert_iff hu).mpr ha⟩
  · have hw : EndsClean w := hu.of_suffix ⟨a ++ [c], (List.append_cons a c w).symm⟩
    refine ⟨(a, w ++ '\\' :: '\n' :: v), ?_, rfl, .broken w hw hv⟩
    exact h.eq_some_iff.mpr ⟨by simp, ha⟩

theorem exists_cut_of_insert (h : CutsAt c P cut?) (hu : u.EndsClean)
    (hp : cut? (u ++ '\\' :: '\n' :: v) = some p) : ∃ q, cut? (u ++ v) = some q := by
  obtain ⟨a, b⟩ := p
  obtain ⟨he, ha⟩ := h.eq_some_iff.mp hp
  rcases append_eq_append_cons_iff.mp he with ⟨w, rfl, hv⟩ | ⟨w, rfl, rfl⟩
  · -- The character at which the text is cut is none of the two of the continuation.
    rcases List.append_eq_cons_iff.mp hv.symm with ⟨-, hb⟩ | ⟨w, rfl, hb⟩
    · exact absurd (List.cons.inj hb).1 h.ne_backslash
    · rcases List.append_eq_cons_iff.mp hb.symm with ⟨-, hb⟩ | ⟨w, rfl, rfl⟩
      · exact absurd (List.cons.inj hb).1 h.ne_newline
      · exact ⟨(u ++ w, b), h.eq_some_iff.mpr ⟨by simp, (h.insert_iff hu).mp ha⟩⟩
  · exact ⟨(a, w ++ v), h.eq_some_iff.mpr ⟨by simp, ha⟩⟩

/-- A continuation neither makes a cut possible nor prevents one, and stays where it is. -/
theorem rel (h : CutsAt c P cut?) (hc : Continued s t) :
    Option.Rel (fun p q => splice p.1 = splice q.1 ∧ Continued p.2 q.2) (cut? s) (cut? t) := by
  cases hc with
  | same =>
    cases cut? s with
    | none => exact .none
    | some p => exact .some ⟨rfl, .same _⟩
  | @broken u v hu hv =>
    cases hs : cut? (u ++ v) with
    | some p =>
      obtain ⟨q, hq, hr⟩ := h.cut_insert hu hv hs
      rw [hq]
      exact .some hr
    | none =>
      cases ht : cut? (u ++ '\\' :: '\n' :: v) with
      | none => exact .none
      | some q =>
        obtain ⟨p, hp⟩ := h.exists_cut_of_insert hu ht
        rw [hs] at hp
        cases hp

end CutsAt

end Text

namespace Fields

variable {f g : Fields} {k : Kind} {s t : Text} {i j : Nat}

/-- The fields are the same once their line continuations are removed. -/
structure Alike (f g : Fields) : Prop where
  owner : Text.splice f.owner = Text.splice g.owner
  receiver : f.receiver.map Text.splice = g.receiver.map Text.splice
  name : Text.splice f.name = Text.splice g.name
  params : Text.splice f.params = Text.splice g.params

theorem Alike.ofFields_eq (h : f.Alike g) : Marker.ofFields k f i j = Marker.ofFields k g i j := by
  have hr : f.receiver.map Text.tidy = g.receiver.map Text.tidy := by
    have ht : Text.tidy = (fun t => Text.trim (Text.collapse t)) ∘ Text.splice := rfl
    rw [ht, ← Option.map_map, ← Option.map_map, h.receiver]
  simp only [Marker.ofFields, hr]
  simp only [Text.tidy, Text.tidyParams, h.owner, h.name, h.params]

theorem cutsAt_cutComma? : Text.CutsAt ',' (Text.FreeOf .comma) cutComma? where
  eq_some_iff := cutComma?_eq_some_iff
  insert_iff hu := Text.freeOf_insert hu (by decide) (by decide)
  ne_backslash := by decide
  ne_newline := by decide

theorem cutsAt_cutSlash? : Text.CutsAt '/' ('/' ∉ ·) cutSlash? where
  eq_some_iff := cutSlash?_eq_some_iff
  insert_iff _ := by simp
  ne_backslash := by decide
  ne_newline := by decide

theorem rel_finish? {a a' : Text} {r r' : Option Text} (ha : Text.splice a = Text.splice a')
    (hr : r.map Text.splice = r'.map Text.splice) (h : s.Continued t) :
    Option.Rel Alike (finish? a r s) (finish? a' r' t) := by
  unfold finish?
  rw [Option.map_eq_bind, Option.map_eq_bind]
  exact rel_bind (cutsAt_cutSlash?.rel h) fun p q hp => .some ⟨ha, hr, hp.1, hp.2.splice_dropLast⟩

/-- A continuation in a body neither gives it its fields nor takes them away. -/
theorem rel_ofBody? (h : s.Continued t) : Option.Rel Alike (ofBody? k s) (ofBody? k t) := by
  unfold ofBody?
  refine rel_bind (cutsAt_cutComma?.rel h) fun p q hp => ?_
  cases k.hasReceiver with
  | true =>
    refine rel_bind (cutsAt_cutComma?.rel hp.2) fun p' q' hp' => ?_
    exact rel_finish? hp.1 (congrArg some hp'.1) hp'.2
  | false => exact rel_finish? hp.1 rfl hp.2

end Fields

end SourceMarkers
