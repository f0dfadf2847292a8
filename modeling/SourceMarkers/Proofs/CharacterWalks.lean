import Mathlib.Data.Nat.Find
import Mathlib.Order.Bounds.Defs
import SourceMarkers.Proofs.Checked
import SourceMarkers.Proofs.Separators

/-! # Walks over characters

The bytes of a text and its characters are letters with offsets, and the same
walk reads both. It can stop at the same offsets in both. A walk that begins
inside a character is still at its start when it has come to the next one.
-/

namespace SourceMarkers

open Nesting Text

namespace Nesting

/-- The offsets of the letters at which a walk can stop. A letter shows a glyph and has an
offset. -/
def stopOffsets {α : Type} (glyph : α → Glyph) (stops : Nesting → Glyph → Bool) :
    Nesting → List (α × Nat) → List Nat
  | _, [] => []
  | n, (a, i) :: letters =>
    if stops n (glyph a) then i :: stopOffsets glyph stops (n.step (glyph a)) letters
    else stopOffsets glyph stops (n.step (glyph a)) letters

/-- The offset of the letter at which a walk stops, which is the first at which it can. -/
def stopOffset? {α : Type} (glyph : α → Glyph) (stops : Nesting → Glyph → Bool) (n : Nesting)
    (letters : List (α × Nat)) : Option Nat :=
  (stopOffsets glyph stops n letters).head?

variable {α : Type} {glyph : α → Glyph} {stops : Nesting → Glyph → Bool} {n : Nesting}
  {xs ys : List (α × Nat)} {as : List α} {i : Nat}

theorem stopOffsets_append :
    stopOffsets glyph stops n (xs ++ ys) =
      stopOffsets glyph stops n xs ++
        stopOffsets glyph stops (n.run (xs.map fun x => glyph x.1)) ys := by
  induction xs generalizing n with
  | nil => rfl
  | cons x xs ih =>
    rw [List.cons_append, stopOffsets, stopOffsets, ih]
    split <;> rfl

theorem stopOffsets_of_plain (hs : ∀ n, ¬ stops n .plain) (hx : ∀ x ∈ xs, glyph x.1 = .plain) :
    stopOffsets glyph stops n xs = [] := by
  induction xs generalizing n with
  | nil => rfl
  | cons x xs ih =>
    rw [stopOffsets, hx x List.mem_cons_self, if_neg (hs n)]
    exact ih fun y hy => hx y (List.mem_cons_of_mem x hy)

theorem run_of_plain (hn : n.step .plain = n) (hx : ∀ x ∈ xs, glyph x.1 = .plain) :
    n.run (xs.map fun x => glyph x.1) = n := by
  have hp : ∀ g ∈ xs.map fun x => glyph x.1, g = .plain := by
    rintro g hg
    obtain ⟨x, hm, rfl⟩ := List.mem_map.mp hg
    exact hx x hm
  rw [List.eq_replicate_of_mem hp]
  exact run_replicate_plain hn _

theorem exists_of_mem_stopOffsets (h : i ∈ stopOffsets glyph stops n xs) :
    ∃ a m, (a, i) ∈ xs ∧ stops m (glyph a) := by
  induction xs generalizing n with
  | nil => cases h
  | cons x xs ih =>
    have hrest : i ∈ stopOffsets glyph stops (n.step (glyph x.1)) xs →
        ∃ a m, (a, i) ∈ x :: xs ∧ stops m (glyph a) := by
      intro hi
      obtain ⟨a, m, ha, hm⟩ := ih hi
      exact ⟨a, m, List.mem_cons_of_mem x ha, hm⟩
    rw [stopOffsets] at h
    split at h
    · next hx =>
      rcases List.mem_cons.mp h with rfl | hi
      · exact ⟨x.1, n, List.mem_cons_self, hx⟩
      · exact hrest hi
    · exact hrest h

theorem stopOffsets_zipIdx :
    stopOffsets glyph stops n (as.zipIdx i) = (places stops n (as.map glyph)).map (i + ·) := by
  induction as generalizing n i with
  | nil => rfl
  | cons a as ih =>
    have hi : ((i + ·) ∘ (1 + ·) : Nat → Nat) = (i + 1 + ·) := by
      ext j
      exact (Nat.add_assoc i 1 j).symm
    rw [List.zipIdx_cons, List.map_cons, stopOffsets]
    split
    · next h =>
      rw [places_cons_of_stops h, ih, List.map_cons, List.map_map, hi]
      rfl
    · next h => rw [places_cons_of_not_stops h, ih, List.map_map, hi]

end Nesting

namespace Text

def charOffsets : Nat → Text → List (Char × Nat)
  | _, [] => []
  | i, c :: t => (c, i) :: charOffsets (i + c.utf8Size) t

/-- The characters from the first one that begins at a byte offset or behind it. -/
def charsFrom (t : Text) (o : Nat) : List (Char × Nat) := (charOffsets 0 t).dropWhile (·.2 < o)

variable {stops : Nesting → Glyph → Bool} {n : Nesting} {s t : Text} {c : Char} {i j o : Nat}

theorem charOffsets_append :
    charOffsets i (s ++ t) = charOffsets i s ++ charOffsets (i + size s) t := by
  induction s generalizing i with
  | nil => rfl
  | cons c s ih =>
    rw [List.cons_append, charOffsets, charOffsets, ih, size_cons, Nat.add_assoc, List.cons_append]

theorem getLast?_charOffsets :
    ((charOffsets 0 t).getLast?.map Prod.snd).getD 0 = size t.dropLast := by
  rcases List.eq_nil_or_concat t with rfl | ⟨t, c, rfl⟩
  · rfl
  · rw [List.concat_eq_append, List.dropLast_concat, charOffsets_append, Nat.zero_add, charOffsets,
      charOffsets, List.getLast?_concat]
    rfl

theorem mem_charOffsets_iff :
    (c, j) ∈ charOffsets i t ↔ ∃ u v, t = u ++ c :: v ∧ j = i + size u := by
  induction t generalizing i with
  | nil => simp [charOffsets]
  | cons d t ih =>
    rw [charOffsets, List.mem_cons, ih, Prod.mk.injEq]
    constructor
    · rintro (⟨rfl, rfl⟩ | ⟨u, v, rfl, rfl⟩)
      · exact ⟨[], t, rfl, rfl⟩
      · exact ⟨d :: u, v, rfl, Nat.add_assoc i _ _⟩
    · rintro ⟨u, v, he, rfl⟩
      rcases List.cons_eq_append_iff.mp he with ⟨rfl, he⟩ | ⟨u, rfl, rfl⟩
      · cases he
        exact Or.inl ⟨rfl, rfl⟩
      · exact Or.inr ⟨u, v, rfl, (Nat.add_assoc i _ _).symm⟩

/-- A walk reads a character and the bytes of it alike. -/
theorem stopOffsets_utf8EncodeChar (hs : ∀ n, ¬ stops n .plain) :
    stopOffsets Glyph.ofByte stops n ((String.utf8EncodeChar c).zipIdx i) =
      stopOffsets Glyph.ofChar stops n [(c, i)] := by
  obtain ⟨b, bs, hb, hbs, -⟩ := exists_utf8EncodeChar_eq c
  have hg : Glyph.ofByte b = Glyph.ofChar c := by
    have he := Glyph.ofBytes_utf8EncodeChar c
    rw [hb] at he
    exact (List.cons.inj he).1
  have hp : ∀ x ∈ bs.zipIdx (i + 1), Glyph.ofByte x.1 = .plain :=
    fun x hx => Glyph.ofByte_eq_plain (hbs x.1 (List.fst_mem_of_mem_zipIdx hx))
  rw [hb, List.zipIdx_cons, stopOffsets, stopOffsets, hg, stopOffsets_of_plain hs hp]
  rfl

theorem stopOffsets_utf8 (hs : ∀ n, ¬ stops n .plain) :
    stopOffsets Glyph.ofByte stops n ((utf8 t).zipIdx i) =
      stopOffsets Glyph.ofChar stops n (charOffsets i t) := by
  induction t generalizing n i with
  | nil => rfl
  | cons c t ih =>
    have hr : n.run (((String.utf8EncodeChar c).zipIdx i).map fun x => Glyph.ofByte x.1) =
        n.run ([(c, i)].map fun x => Glyph.ofChar x.1) := by
      have hc := run_ofBytes (n := n) [c]
      rw [utf8_cons, utf8_nil, List.append_nil] at hc
      rw [← Function.comp_def, ← List.map_map, List.zipIdx_map_fst]
      exact hc
    have hl : (String.utf8EncodeChar c).length = c.utf8Size := String.length_utf8EncodeChar c
    rw [utf8_cons, List.zipIdx_append, stopOffsets_append, stopOffsets_utf8EncodeChar hs, hr, hl, ih,
      ← stopOffsets_append]
    rfl

theorem stopOffsets_eq_separators :
    stopOffsets Glyph.ofChar separates start (charOffsets 0 t) = t.separators := by
  rw [← stopOffsets_utf8 (by simp [separates]), stopOffsets_zipIdx, separators]
  simp only [Nat.zero_add, List.map_id']
  rfl

theorem closingOffset?_eq_stopOffset?_bytes :
    t.closingOffset? o =
      stopOffset? Glyph.ofByte closes start (((utf8 t).drop o).zipIdx o) := by
  rw [closingOffset?, stopOffset?, stopOffsets_zipIdx, List.head?_map, head?_places]
  rfl

/-- The offset is the first one between two characters, or at an end of the text, that does not lie
before another. -/
def IsFirstBoundary (t : Text) (o : Nat) : Nat → Prop := IsLeast {b | t.isBoundary b ∧ o ≤ b}

/-- No character of the text begins at the offset or behind it. -/
def BeginsBefore (t : Text) (o : Nat) : Prop := ∀ u c v, t = u ++ c :: v → size u < o

theorem beginsBefore_of_size_lt (h : size t < o) : t.BeginsBefore o := by
  rintro u c v rfl
  exact Nat.lt_of_le_of_lt (size_le_size_append u (c :: v)) h

theorem beginsBefore_of_isFirstBoundary (h : (s ++ t).IsFirstBoundary o (size s)) :
    s.BeginsBefore o := by
  rintro u c v rfl
  refine Nat.lt_of_not_le fun ho => ?_
  have hb : (u ++ c :: v ++ t).isBoundary (size u) :=
    isBoundary_iff.mpr ⟨u, c :: v ++ t, List.append_assoc _ _ _, rfl⟩
  have hle := h.2 ⟨hb, ho⟩
  have hc := c.utf8Size_pos
  rw [size_append, size_cons] at hle
  omega

theorem exists_isFirstBoundary (ho : o ≤ size t) :
    ∃ s u, t = s ++ u ∧ t.IsFirstBoundary o (size s) := by
  have he : ∃ b, t.isBoundary b ∧ o ≤ b :=
    ⟨size t, isBoundary_iff.mpr ⟨t, [], (List.append_nil t).symm, rfl⟩, ho⟩
  obtain ⟨s, u, ht, hs⟩ := isBoundary_iff.mp (Nat.find_spec he).1
  refine ⟨s, u, ht, ?_⟩
  rw [hs]
  exact ⟨Nat.find_spec he, fun b hb => Nat.find_min' he hb⟩

theorem charsFrom_append (h : s.BeginsBefore o) (ho : t = [] ∨ o ≤ size s) :
    charsFrom (s ++ t) o = charOffsets (size s) t := by
  have hs : ∀ x ∈ charOffsets 0 s, decide (x.2 < o) := by
    rintro ⟨c, i⟩ hx
    obtain ⟨u, v, hs, rfl⟩ := mem_charOffsets_iff.mp hx
    rw [Nat.zero_add]
    exact decide_eq_true (h u c v hs)
  rw [charsFrom, charOffsets_append, List.dropWhile_append_of_pos hs, Nat.zero_add]
  cases t with
  | nil => rfl
  | cons c t =>
    have ho : ¬ size s < o := Nat.not_lt.mpr (ho.resolve_left (List.cons_ne_nil c t))
    rw [charOffsets, List.dropWhile_cons_of_neg (by simpa using ho)]

/-- What is left of a character when its first byte is dropped is read as plain. -/
theorem ofByte_of_mem_drop_utf8 (h : s.BeginsBefore o) {b : UInt8} (hb : b ∈ (utf8 s).drop o) :
    Glyph.ofByte b = .plain := by
  rcases List.eq_nil_or_concat s with rfl | ⟨s, c, rfl⟩
  · rw [utf8_nil, List.drop_nil] at hb
    cases hb
  -- The last character begins before the offset, so at least its first byte is dropped.
  · rw [List.concat_eq_append] at h hb
    obtain ⟨k, rfl⟩ := Nat.exists_eq_add_of_lt (h s c [] rfl)
    obtain ⟨d, ds, hd, hds, -⟩ := exists_utf8EncodeChar_eq c
    rw [utf8_append, utf8_cons, utf8_nil, List.append_nil, hd, Nat.add_assoc, ← List.drop_drop,
      List.drop_left' length_utf8, List.drop_succ_cons] at hb
    exact Glyph.ofByte_eq_plain (hds b (List.mem_of_mem_drop hb))

/-- A walk that begins inside a character is still at its start when it has come to the next. -/
theorem closingOffset?_of_beginsBefore (h : s.BeginsBefore o) (ho : o ≤ size s) :
    (s ++ t).closingOffset? o =
      stopOffset? Glyph.ofChar closes start (charOffsets (size s) t) := by
  have hs : ∀ n, ¬ closes n .plain := by simp [closes]
  have hp : ∀ x ∈ ((utf8 s).drop o).zipIdx o, Glyph.ofByte x.1 = .plain :=
    fun x hx => ofByte_of_mem_drop_utf8 h (List.fst_mem_of_mem_zipIdx hx)
  have hl : o ≤ (utf8 s).length := by rwa [length_utf8]
  have hi : o + ((utf8 s).drop o).length = size s := by
    rw [List.length_drop, length_utf8, Nat.add_sub_cancel' ho]
  rw [closingOffset?_eq_stopOffset?_bytes, utf8_append, List.drop_append_of_le_length hl,
    List.zipIdx_append, stopOffset?, stopOffsets_append, stopOffsets_of_plain hs hp,
    run_of_plain rfl hp, hi, stopOffsets_utf8 hs]
  rfl

theorem charsFrom_of_isFirstBoundary (h : (s ++ t).IsFirstBoundary o (size s)) :
    charsFrom (s ++ t) o = charOffsets (size s) t :=
  charsFrom_append (beginsBefore_of_isFirstBoundary h) (Or.inr h.1.2)

theorem charsFrom_of_size_lt (h : size t < o) : charsFrom t o = [] := by
  have hc := charsFrom_append (t := []) (beginsBefore_of_size_lt h) (Or.inl rfl)
  rwa [List.append_nil] at hc

theorem closingOffset?_eq_stopOffset?_chars (t : Text) (o : Nat) :
    t.closingOffset? o = stopOffset? Glyph.ofChar closes start (t.charsFrom o) := by
  rcases Nat.lt_or_ge (size t) o with ho | ho
  · have hl : (utf8 t).length ≤ o := by
      rw [length_utf8]
      exact Nat.le_of_lt ho
    rw [charsFrom_of_size_lt ho, closingOffset?_eq_stopOffset?_bytes, List.drop_eq_nil_of_le hl]
    rfl
  · obtain ⟨s, u, rfl, hf⟩ := exists_isFirstBoundary ho
    rw [charsFrom_of_isFirstBoundary hf]
    exact closingOffset?_of_beginsBefore (beginsBefore_of_isFirstBoundary hf) hf.1.2

theorem exists_of_closingOffset? (h : t.closingOffset? o = some j) :
    o ≤ j ∧ ∃ u v, t = u ++ ')' :: v ∧ size u = j := by
  constructor
  · obtain ⟨k, -, rfl⟩ := Option.map_eq_some_iff.mp h
    exact Nat.le_add_right o k
  · rw [closingOffset?_eq_stopOffset?_chars] at h
    obtain ⟨d, n, hd, hn⟩ := exists_of_mem_stopOffsets (List.mem_of_mem_head? h)
    have hd := (List.dropWhile_suffix _).mem hd
    obtain ⟨u, v, rfl, rfl⟩ := mem_charOffsets_iff.mp hd
    simp only [closes, Bool.and_eq_true, decide_eq_true_eq, Glyph.ofChar_eq_closing_iff] at hn
    obtain ⟨⟨-, rfl⟩, -⟩ := hn
    exact ⟨u, v, rfl, (Nat.zero_add _).symm⟩

end Text

end SourceMarkers
