import SourceMarkers.Proofs.Balance
import SourceMarkers.Segment

/-! # Cuts

A cut describes the segments of a text without the search that finds them. A
marker encloses a balanced text, a keyword without a closing parenthesis is
followed by a text that leaves its parenthesis open, and no other character
begins an opener. Each text has exactly one cut.
-/

namespace SourceMarkers

open Nesting

section Lists

variable {α : Type} {a b l u v : List α} {x : α}

theorem prefix_of_prefix_append_cons (hx : x ∉ l) (h : l <+: u ++ x :: v) : l <+: u := by
  rcases List.prefix_or_prefix_of_prefix h (List.prefix_append u (x :: v)) with hl | ⟨w, rfl⟩
  · exact hl
  · rw [List.prefix_append_right_inj] at h
    cases w with
    | nil => simp
    | cons y w =>
      rw [List.cons_prefix_cons] at h
      exact absurd (by simp [h.1]) hx

theorem append_eq_append_cons_iff :
    u ++ v = a ++ x :: b ↔
      (∃ w, a = u ++ w ∧ v = w ++ x :: b) ∨ ∃ w, u = a ++ x :: w ∧ b = w ++ v := by
  constructor
  · intro h
    rcases List.append_eq_append_iff.mp h with ⟨w, rfl, hv⟩ | ⟨w, rfl, hb⟩
    · exact Or.inl ⟨w, rfl, hv⟩
    · rcases List.append_eq_cons_iff.mp hb.symm with ⟨rfl, hv⟩ | ⟨w, rfl, hw⟩
      · exact Or.inl ⟨[], by simp, hv⟩
      · exact Or.inr ⟨w, rfl, hw⟩
  · rintro (⟨w, rfl, rfl⟩ | ⟨w, rfl, rfl⟩)
    · simp
    · simp

end Lists

namespace Kind

variable {k : Kind} {t : Text}

theorem opening?_eq_none_iff : opening? t = none ↔ ∀ k : Kind, ¬ k.opener <+: t := by
  simp [opening?]

theorem opener_ne_nil (k : Kind) : k.opener ≠ [] := by simp [opener]

theorem exists_opener_append_eq_cons (k : Kind) (t : Text) : ∃ c u, k.opener ++ t = c :: u := by
  cases k <;> exact ⟨_, _, rfl⟩

theorem not_opener_prefix_cons {c : Char} (h : ∀ k : Kind, k.opener.head? ≠ some c) (k : Kind) :
    ¬ k.opener <+: c :: t := by
  intro hp
  obtain ⟨d, u, hd⟩ := List.exists_cons_of_ne_nil k.opener_ne_nil
  rw [hd, List.cons_prefix_cons] at hp
  exact h k (by rw [hd, hp.1]; rfl)

theorem keyword_injective {l : Kind} (h : k.keyword = l.keyword) : k = l := by
  have hk := ofKeyword?_keyword k
  rw [h, ofKeyword?_keyword] at hk
  exact (Option.some.inj hk).symm

theorem parenthesis_not_mem_keyword (k : Kind) : '(' ∉ k.keyword := by cases k <;> decide

theorem drop_keyword_length : (k.opener ++ t).drop k.keyword.length = '(' :: t := by
  simp [opener]

end Kind

namespace Text

/-- No parenthesis of the text closes one that was opened before it. -/
def LeavesOpen (t : Text) : Prop := walk? (meets .closing) start (Glyph.ofText t) = none

end Text

namespace Segment

def sources (ss : List Segment) : Text := ss.flatMap source

/-- The segments are the first ones of a text, and the rest is what they leave of it. The characters
of the rest count when it is decided what a segment is. -/
inductive Cut (rest : Text) : Text → List Segment → Prop where

  | nil : Cut rest rest []

  | plain {c : Char} {t : Text} {ss : List Segment} : (∀ k : Kind, ¬ k.opener <+: c :: t) →
      Cut rest t ss → Cut rest (c :: t) (plain c :: ss)

  | unclosed {k : Kind} {t : Text} {ss : List Segment} : t.LeavesOpen →
      Cut rest t ss → Cut rest (k.opener ++ t) (unclosed k :: plain '(' :: ss)

  | marked {k : Kind} {body t : Text} {ss : List Segment} : body.Balanced →
      Cut rest t ss → Cut rest (k.opener ++ (body ++ ')' :: t)) (marked k body :: ss)

variable {c : Char} {k : Kind} {s t body rest : Text} {ss ss' : List Segment}

@[simp] theorem sources_nil : sources [] = [] := rfl

@[simp] theorem sources_cons {s : Segment} : sources (s :: ss) = s.source ++ sources ss := rfl

@[simp] theorem sources_append : sources (ss ++ ss') = sources ss ++ sources ss' := by
  simp [sources]

theorem source_ne_nil (s : Segment) : s.source ≠ [] := by
  cases s with
  | plain c => simp [source]
  | unclosed k => exact k.keyword_ne_nil
  | marked k body => simp [source]

theorem enclosed?_parenthesis :
    enclosed? ('(' :: t) =
      (walk? (meets .closing) start (Glyph.ofText t)).map fun j => (t.take j, t.drop (j + 1)) := by
  have ho : Glyph.ofChar '(' = .opening := by decide
  rw [enclosed?, Glyph.ofText_cons, ho, closing?_opening_cons, Option.map_map]
  rfl

theorem enclosed?_eq_some_iff :
    enclosed? ('(' :: t) = some (body, rest) ↔ t = body ++ ')' :: rest ∧ body.Balanced := by
  rw [enclosed?_parenthesis]
  exact Text.map_walk?_meets_eq_some_iff fun _ => Glyph.ofChar_eq_closing_iff

theorem enclosed?_eq_none_iff : enclosed? ('(' :: t) = none ↔ t.LeavesOpen := by
  rw [enclosed?_parenthesis, Option.map_eq_none_iff]
  rfl

theorem ofText_nil : ofText [] = [] := by rw [ofText]

theorem ofText_plain (h : ∀ k : Kind, ¬ k.opener <+: c :: t) :
    ofText (c :: t) = .plain c :: ofText t := by
  rw [ofText, Kind.opening?_eq_none_iff.mpr h]

theorem ofText_parenthesis : ofText ('(' :: t) = .plain '(' :: ofText t :=
  ofText_plain (Kind.not_opener_prefix_cons fun k => by cases k <;> decide)

theorem ofText_unclosed (h : t.LeavesOpen) :
    ofText (k.opener ++ t) = .unclosed k :: .plain '(' :: ofText t := by
  obtain ⟨c, rest, hc⟩ := k.exists_opener_append_eq_cons t
  have hk : Kind.opening? (c :: rest) = some k := hc ▸ Kind.opening?_opener_append k t
  have hd : (c :: rest).drop k.keyword.length = '(' :: t := hc ▸ Kind.drop_keyword_length
  rw [hc, ofText, hk]
  simp only
  split
  · rw [hd, ofText_parenthesis]
  · next body after he =>
    rw [hd, enclosed?_eq_none_iff.mpr h] at he
    cases he

theorem ofText_marked (h : body.Balanced) :
    ofText (k.opener ++ (body ++ ')' :: t)) = .marked k body :: ofText t := by
  obtain ⟨c, rest, hc⟩ := k.exists_opener_append_eq_cons (body ++ ')' :: t)
  have hk : Kind.opening? (c :: rest) = some k := hc ▸ Kind.opening?_opener_append k _
  have hd : (c :: rest).drop k.keyword.length = '(' :: (body ++ ')' :: t) :=
    hc ▸ Kind.drop_keyword_length
  have hb : enclosed? ('(' :: (body ++ ')' :: t)) = some (body, t) :=
    enclosed?_eq_some_iff.mpr ⟨rfl, h⟩
  rw [hc, ofText, hk]
  simp only
  split
  · next he =>
    rw [hd, hb] at he
    cases he
  · next body' after he =>
    rw [hd, hb] at he
    cases he
    rfl

theorem Cut.ofText_eq (h : Cut rest t ss) : ofText t = ss ++ ofText rest := by
  induction h with
  | nil => rfl
  | plain hk _ ih => rw [ofText_plain hk, ih, List.cons_append]
  | unclosed ht _ ih => rw [ofText_unclosed ht, ih, List.cons_append, List.cons_append]
  | marked hb _ ih => rw [ofText_marked hb, ih, List.cons_append]

theorem Cut.of_plain (h : Cut rest t (.plain c :: ss)) :
    ∃ t', t = c :: t' ∧ (∀ k : Kind, ¬ k.opener <+: c :: t') ∧ Cut rest t' ss := by
  cases h with
  | plain hk hc => exact ⟨_, rfl, hk, hc⟩

theorem cut_ofText (t : Text) : Cut [] t (ofText t) := by
  fun_induction ofText t with
  | case1 => exact .nil
  | case2 c rest h ih => exact .plain (Kind.opening?_eq_none_iff.mp h) ih
  | case3 c rest k hk he ih =>
    obtain ⟨t, ht⟩ := Kind.eq_opener_append_of_opening? hk
    rw [ht, Kind.drop_keyword_length] at he ih ⊢
    rw [ofText_parenthesis] at ih ⊢
    obtain ⟨t', ht', -, hc⟩ := ih.of_plain
    cases ht'
    exact .unclosed (enclosed?_eq_none_iff.mp he) hc
  | case4 c rest k hk body after he hlt ih =>
    obtain ⟨t, ht⟩ := Kind.eq_opener_append_of_opening? hk
    rw [ht, Kind.drop_keyword_length] at he
    obtain ⟨rfl, hb⟩ := enclosed?_eq_some_iff.mp he
    rw [ht]
    exact .marked hb ih

/-- The segments of a text are the only ones into which it can be cut. -/
theorem ofText_eq_iff : ofText t = ss ↔ Cut [] t ss := by
  constructor
  · rintro rfl
    exact cut_ofText t
  · intro h
    rw [h.ofText_eq, ofText_nil, List.append_nil]

namespace Cut

theorem append {last : Text} (h : Cut rest t ss) (h' : Cut last rest ss') :
    Cut last t (ss ++ ss') := by
  induction h with
  | nil => exact h'
  | plain hk _ ih => exact .plain hk ih
  | unclosed ht _ ih => exact .unclosed ht ih
  | marked hb _ ih => exact .marked hb ih

theorem eq_sources_append (h : Cut rest t ss) : t = sources ss ++ rest := by
  induction h with
  | nil => rfl
  | plain _ _ ih => rw [ih]; rfl
  | unclosed _ _ ih => rw [ih]; simp [source, Kind.opener]
  | marked _ _ ih => rw [ih]; simp [source]

theorem of_marked {ss₁ ss₂ : List Segment} (h : Cut rest t (ss₁ ++ .marked k body :: ss₂)) :
    ∃ after, Cut (k.opener ++ (body ++ ')' :: after)) t ss₁ ∧ body.Balanced ∧
      Cut rest after ss₂ := by
  generalize hs : ss₁ ++ .marked k body :: ss₂ = ss at h
  induction h generalizing ss₁ with
  | nil => simp at hs
  | plain hk _ ih =>
    rcases List.append_eq_cons_iff.mp hs with ⟨rfl, he⟩ | ⟨ss₁, rfl, he⟩
    · cases he
    · obtain ⟨after, hc, hb, hr⟩ := ih he.symm
      exact ⟨after, .plain hk hc, hb, hr⟩
  | unclosed ht _ ih =>
    rcases List.append_eq_cons_iff.mp hs with ⟨rfl, he⟩ | ⟨ss₁, rfl, he⟩
    · cases he
    · rcases List.append_eq_cons_iff.mp he.symm with ⟨rfl, hm⟩ | ⟨ss₁, rfl, hm⟩
      · cases hm
      · obtain ⟨after, hc, hb, hr⟩ := ih hm.symm
        exact ⟨after, .unclosed ht hc, hb, hr⟩
  | marked hb hc ih =>
    rcases List.append_eq_cons_iff.mp hs with ⟨rfl, he⟩ | ⟨ss₁, rfl, he⟩
    · cases he
      exact ⟨_, .nil, hb, hc⟩
    · obtain ⟨after, hc, hb', hr⟩ := ih he.symm
      exact ⟨after, .marked hb hc, hb', hr⟩

/-- A cut stays one when the rest is replaced by a text that begins no other openers and leaves the
same parentheses open. -/
theorem replace_rest {rest' : Text} (h : Cut rest t ss)
    (hk : ∀ s : Text, s ≠ [] → (∀ k : Kind, ¬ k.opener <+: s ++ rest) →
      ∀ k : Kind, ¬ k.opener <+: s ++ rest')
    (hu : ∀ k : Kind, .unclosed k ∈ ss → ∀ s : Text, (s ++ rest).LeavesOpen →
      (s ++ rest').LeavesOpen) :
    Cut rest' (sources ss ++ rest') ss := by
  induction h with
  | nil => exact .nil
  | @plain c t ss hp hc ih =>
    rw [hc.eq_sources_append, ← List.cons_append] at hp
    exact .plain (hk (c :: sources ss) (by simp) hp)
      (ih fun k hm => hu k (List.mem_cons_of_mem _ hm))
  | @unclosed k t ss ht hc ih =>
    rw [hc.eq_sources_append] at ht
    have hs : sources (.unclosed k :: .plain '(' :: ss) ++ rest' =
        k.opener ++ (sources ss ++ rest') := by
      simp [source, Kind.opener]
    rw [hs]
    exact .unclosed (hu k List.mem_cons_self _ ht)
      (ih fun k hm => hu k (List.mem_cons_of_mem _ (List.mem_cons_of_mem _ hm)))
  | @marked k body t ss hb hc ih =>
    have hs : sources (.marked k body :: ss) ++ rest' =
        k.opener ++ (body ++ ')' :: (sources ss ++ rest')) := by
      simp [source]
    rw [hs]
    exact .marked hb (ih fun k hm => hu k (List.mem_cons_of_mem _ hm))

end Cut

end Segment

end SourceMarkers
