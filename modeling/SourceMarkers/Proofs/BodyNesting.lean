import SourceMarkers.Proofs.Parentheses
import SourceMarkers.Proofs.Separators

/-! # Nesting in the body of a marker

A walk that begins inside a parenthesis and one that begins at it read the same
literals up to the parenthesis that closes it, and the first has one parenthesis
less open. It meets no parenthesis that closes nothing, and the commas that it
finds outside all parentheses are those of the marker itself.
-/

namespace SourceMarkers

open Nesting Parenthesis

namespace Nesting

variable {stops : Nesting → Glyph → Bool} {n : Nesting} {gs : List Glyph} {g : Glyph} {k : Nat}

theorem walk?_take_eq_none_of_eq_none (h : walk? stops n gs = none) (k : Nat) :
    walk? stops n (gs.take k) = none := by
  rw [← List.take_append_drop k gs, walk?_append_eq_none] at h
  exact h.1

theorem not_stops_of_walk?_eq_none (h : walk? stops n gs = none) (hg : gs[k]? = some g) :
    ¬ stops (n.run (gs.take k)) g := by
  obtain ⟨hk, rfl⟩ := List.getElem?_eq_some_iff.mp hg
  rw [← List.take_append_drop k gs, List.drop_eq_getElem_cons hk, walk?_append_eq_none,
    walk?_cons_eq_none] at h
  exact h.2.1

/-- As long as nothing is closed that was open before, it makes no difference that one more
parenthesis is open. -/
theorem run_raise (h : walk? (meets .closing) n gs = none) :
    n.raise.run gs = (n.run gs).raise := by
  induction gs generalizing n with
  | nil => rfl
  | cons g gs ih =>
    obtain ⟨hg, h⟩ := walk?_cons_eq_none.mp h
    rw [run_cons, run_cons, step_raise hg, ih h]

theorem closesAll_run (h : walk? (meets .closing) n gs = none) (w : List Parenthesis) :
    ClosesAll n.depth ((n.reading.active gs).filterMap id ++ w) ↔ ClosesAll (n.run gs).depth w := by
  induction gs generalizing n with
  | nil => rfl
  | cons g gs ih =>
    obtain ⟨hg, h⟩ := walk?_cons_eq_none.mp h
    have ha : (n.reading.active (g :: gs)).filterMap id =
        (n.reading.active? g).toList ++ ((n.step g).reading.active gs).filterMap id := by
      rw [Reading.active]
      cases n.reading.active? g <;> rfl
    rw [ha, List.append_assoc, closesAll_step hg, run_cons]
    exact ih h

theorem matched_active_iff (h : walk? (meets .closing) start gs = none) :
    Matched ((Reading.start.active gs).filterMap id) ↔ (start.run gs).depth = 0 := by
  rw [← closesAll_nil_iff, ← closesAll_run h [], List.append_nil]
  rfl

end Nesting

namespace Glyph

variable {b : UInt8}

theorem ofByte_eq_comma_iff : ofByte b = .comma ↔ b = 0x2c := by
  rw [ofByte, ofChar_eq_comma_iff, ← Char.toNat_inj, toNat_ofUInt8, ← UInt8.toNat_inj]
  rfl

end Glyph

namespace Text

/-- The nesting before a byte offset, in a walk over the bytes from another one on. -/
def nestingFrom (t : Text) (o i : Nat) : Nesting :=
  Nesting.start.run (Glyph.ofBytes (((utf8 t).take i).drop o))

/-- The parentheses between two byte offsets, as literals are read from the first one on. -/
def parenthesesFrom (t : Text) (o i : Nat) : List Parenthesis :=
  (Reading.start.active (Glyph.ofBytes (((utf8 t).take i).drop o))).filterMap id

/-- A comma stands at the second byte offset, inside the parenthesis at the first one and inside no
other parenthesis or literal. -/
structure DirectComma (t : Text) (o i : Nat) : Prop where
  comma : (utf8 t)[i]? = some 0x2c
  outside : (t.nestingFrom o i).reading.outside
  matched : ∃ ps, Matched ps ∧ t.parenthesesFrom o i = .opening :: ps

def enclose (u body v : Text) : Text := u ++ '(' :: (body ++ ')' :: v)

def byteGlyphs (t : Text) : List Glyph := Glyph.ofBytes (utf8 t)

variable {t u v body : Text} {o i c j : Nat} {b : UInt8}

theorem exists_eq_append_cons_of_byte (h : (utf8 t)[o]? = some b) (hb : b.toNat < 0x80) :
    ∃ u c v, t = u ++ c :: v ∧ size u = o ∧ c.toNat = b.toNat := by
  induction t generalizing o with
  | nil => cases h
  | cons c t ih =>
    have hl : (String.utf8EncodeChar c).length = c.utf8Size := String.length_utf8EncodeChar c
    rw [utf8_cons] at h
    rcases Nat.lt_or_ge o c.utf8Size with ho | ho
    · rw [List.getElem?_append_left (hl ▸ ho)] at h
      have hc : c.toNat < 0x80 := Nat.lt_of_not_le fun hc =>
        Nat.not_le.mpr hb (le_of_mem_utf8EncodeChar hc (List.mem_of_getElem? h))
      have hs : c.utf8Size = 1 := if_pos (Nat.le_of_lt_succ hc)
      obtain rfl : o = 0 := by omega
      rw [utf8EncodeChar_of_lt hc, List.getElem?_cons_zero, Option.some_inj] at h
      refine ⟨[], c, t, rfl, rfl, ?_⟩
      rw [← h, UInt8.toNat_ofNat']
      omega
    · rw [List.getElem?_append_right (hl ▸ ho), hl] at h
      obtain ⟨u, d, v, rfl, hu, hd⟩ := ih h
      refine ⟨c :: u, d, v, rfl, ?_, hd⟩
      rw [size_cons, hu]
      omega

/-- The parenthesis at a byte offset and the one that closes it enclose a balanced text. -/
theorem exists_balanced_of_closingOffset? (ho : (utf8 t)[o]? = some 0x28)
    (hc : t.closingOffset? o = some c) :
    ∃ u body v, t = enclose u body v ∧ o = size u ∧ c = size u + 1 + size body ∧
      Balanced body := by
  obtain ⟨u, d, w, rfl, rfl, hd⟩ := exists_eq_append_cons_of_byte ho (by decide)
  obtain rfl : d = '(' := Char.toNat_inj.mp hd
  rw [closingOffset?_parenthesis, Option.map_eq_some_iff] at hc
  obtain ⟨k, hk, rfl⟩ := hc
  obtain ⟨body, v, rfl, rfl, hb⟩ :=
    (walk?_meets_eq_some_iff fun _ => Glyph.ofChar_eq_closing_iff).mp hk
  refine ⟨u, body, v, rfl, rfl, ?_, hb⟩
  rw [List.take_left, List.append_cons, size_append, size_append]
  rfl

theorem length_byteGlyphs : (byteGlyphs t).length = size t := by
  rw [byteGlyphs, Glyph.ofBytes, List.length_map, length_utf8]

theorem getElem?_byteGlyphs : (byteGlyphs t)[j]? = (utf8 t)[j]?.map Glyph.ofByte :=
  List.getElem?_map

theorem utf8_enclose :
    utf8 (enclose u body v) = utf8 u ++ 0x28 :: (utf8 body ++ utf8 (')' :: v)) := by
  rw [enclose, utf8_append, utf8_cons, utf8_append]
  rfl

theorem slice_enclose : slice (enclose u body v) (size u + 1) (size u + 1 + size body) = body := by
  have hu : size (u ++ ['(']) = size u + 1 := size_append
  rw [enclose, List.append_cons, ← hu, ← size_append]
  exact slice_append

theorem drop_take_enclose (hj : j ≤ size body) :
    ((utf8 (enclose u body v)).take (size u + 1 + j)).drop (size u) =
      0x28 :: (utf8 body).take j := by
  have hu : (utf8 u).length = size u := length_utf8
  have hs : size u + 1 + j - size u = j + 1 := by omega
  rw [utf8_enclose, List.drop_take, List.drop_left' hu, hs, List.take_succ_cons,
    List.take_append_of_le_length (by rwa [length_utf8])]

theorem drop_take_body (hj : j ≤ size body) :
    ((utf8 (enclose u body v)).take (size u + 1 + j)).drop (size u + 1) = (utf8 body).take j := by
  rw [← List.drop_drop, drop_take_enclose hj]
  rfl

theorem getElem?_body (hj : j < size body) :
    (utf8 (enclose u body v))[size u + 1 + j]? = (utf8 body)[j]? := by
  have hu : (utf8 u).length = size u := length_utf8
  have hs : size u + 1 + j - size u = j + 1 := by omega
  rw [utf8_enclose, List.getElem?_append_right (by omega), hu, hs, List.getElem?_cons_succ,
    List.getElem?_append_left (by rwa [length_utf8])]

theorem Balanced.walk?_byteGlyphs (h : Balanced body) :
    walk? (meets .closing) start (byteGlyphs body) = none := by
  rw [byteGlyphs, walk?_ofBytes (by simp [meets]), h.walk_eq_none, Option.map_none]

theorem Balanced.atRest_run_byteGlyphs (h : Balanced body) :
    (start.run (byteGlyphs body)).atRest := by
  rw [byteGlyphs, run_ofBytes]
  exact h.atRest_run

theorem nestingFrom_body (hj : j ≤ size body) :
    nestingFrom (enclose u body v) (size u + 1) (size u + 1 + j) =
      start.run ((byteGlyphs body).take j) := by
  rw [nestingFrom, drop_take_body hj, Glyph.ofBytes, List.map_take]
  rfl

/-- In the marker one parenthesis more is open than in its body. -/
theorem nestingFrom_enclose (hb : Balanced body) (hj : j ≤ size body) :
    nestingFrom (enclose u body v) (size u) (size u + 1 + j) =
      (start.run ((byteGlyphs body).take j)).raise := by
  rw [nestingFrom, drop_take_enclose hj, Glyph.ofBytes, List.map_cons, List.map_take]
  exact run_raise (walk?_take_eq_none_of_eq_none hb.walk?_byteGlyphs j)

theorem parenthesesFrom_enclose (hj : j ≤ size body) :
    parenthesesFrom (enclose u body v) (size u) (size u + 1 + j) =
      .opening :: (Reading.start.active ((byteGlyphs body).take j)).filterMap id := by
  rw [parenthesesFrom, drop_take_enclose hj, Glyph.ofBytes, List.map_cons, List.map_take]
  rfl

/-- A closing parenthesis that is read in the body closes another one of the body. -/
theorem depth_pos_of_closing (hb : Balanced body) (hj : (utf8 body)[j]? = some 0x29)
    (ho : (start.run ((byteGlyphs body).take j)).reading.outside) :
    0 < (start.run ((byteGlyphs body).take j)).depth := by
  have hg : (byteGlyphs body)[j]? = some .closing := by
    rw [getElem?_byteGlyphs, hj]
    rfl
  have hm := not_stops_of_walk?_eq_none hb.walk?_byteGlyphs hg
  rw [meets, atRest, ho] at hm
  exact Nat.pos_of_ne_zero (by simpa using hm)

theorem directComma_iff (hb : Balanced body) (hj : j < size body) :
    DirectComma (enclose u body v) (size u) (size u + 1 + j) ↔
      (byteGlyphs body)[j]?.any (separates (start.run ((byteGlyphs body).take j))) := by
  have hl : j < (utf8 body).length := by rwa [length_utf8]
  have hm := matched_active_iff (walk?_take_eq_none_of_eq_none hb.walk?_byteGlyphs j)
  rw [getElem?_byteGlyphs, List.getElem?_eq_getElem hl, Option.map_some, Option.any_some, separates,
    Bool.and_eq_true, Bool.and_eq_true, decide_eq_true_iff, decide_eq_true_iff,
    Glyph.ofByte_eq_comma_iff]
  constructor
  · rintro ⟨hc, ho, ps, hp, he⟩
    rw [getElem?_body hj, List.getElem?_eq_getElem hl, Option.some_inj] at hc
    rw [nestingFrom_enclose hb (Nat.le_of_lt hj)] at ho
    rw [parenthesesFrom_enclose (Nat.le_of_lt hj)] at he
    obtain rfl := (List.cons.inj he).2
    exact ⟨⟨ho, hc⟩, hm.mp hp⟩
  · rintro ⟨⟨ho, hc⟩, hd⟩
    refine ⟨?_, ?_, _, hm.mpr hd, parenthesesFrom_enclose (Nat.le_of_lt hj)⟩
    · rw [getElem?_body hj, List.getElem?_eq_getElem hl, hc]
    · rw [nestingFrom_enclose hb (Nat.le_of_lt hj)]
      exact ho

theorem mem_separators_iff_directComma (hb : Balanced body) :
    j ∈ separators body ↔
      j < size body ∧ DirectComma (enclose u body v) (size u) (size u + 1 + j) := by
  have hs : separators body = places separates start (byteGlyphs body) := rfl
  rw [hs, places, List.mem_filter, List.mem_range, length_byteGlyphs]
  exact and_congr_right fun hj => (directComma_iff hb hj).symm

theorem pairwise_separators (t : Text) : (separators t).Pairwise (· < ·) :=
  List.pairwise_lt_range.filter _

end Text

open Text in
/-- Up to the parenthesis that closes a marker, a walk inside it reads the same literals as one from
its parenthesis on, with one parenthesis less open. It closes only what it has opened, ends at rest,
and separates fields at the first of the commas that stand directly in the marker. -/
theorem Fields.body_one_level_down (t : Text) (o c : Nat) (ho : (utf8 t)[o]? = some 0x28)
    (hc : t.closingOffset? o = some c) :
    let body := t.slice (o + 1) c
    utf8 body = ((utf8 t).take c).drop (o + 1) ∧
      (∀ i, o < i → i ≤ c →
        (t.nestingFrom (o + 1) i).reading = (t.nestingFrom o i).reading ∧
          (t.nestingFrom (o + 1) i).depth + 1 = (t.nestingFrom o i).depth) ∧
      (∀ i, o < i → i < c → (utf8 t)[i]? = some 0x29 →
        (t.nestingFrom (o + 1) i).reading.outside → 0 < (t.nestingFrom (o + 1) i).depth) ∧
      ((t.nestingFrom (o + 1) c).reading.outside ∧ (t.nestingFrom (o + 1) c).depth = 0) ∧
      (∀ j, j ∈ body.separators ↔ o + 1 + j < c ∧ t.DirectComma o (o + 1 + j)) ∧
      body.separators.Pairwise (· < ·) ∧
      ∀ k f, ofBody? k body = some f → ∀ j < k.fieldCount - 1,
        body.separators[j]? = some (size ([','].intercalate (f.leading.take (j + 1)))) := by
  obtain ⟨u, body, v, rfl, rfl, rfl, hb⟩ := exists_balanced_of_closingOffset? ho hc
  rw [slice_enclose]
  refine ⟨?_, ?_, ?_, ?_, ?_, pairwise_separators body, ?_⟩
  · rw [drop_take_body (Nat.le_refl _), ← length_utf8, List.take_length]
  · intro i hi hic
    obtain ⟨j, rfl⟩ := Nat.exists_eq_add_of_le (Nat.succ_le_of_lt hi)
    have hj : j ≤ size body := Nat.le_of_add_le_add_left hic
    rw [nestingFrom_body hj, nestingFrom_enclose hb hj]
    exact ⟨rfl, rfl⟩
  · intro i hi hic hbyte hout
    obtain ⟨j, rfl⟩ := Nat.exists_eq_add_of_le (Nat.succ_le_of_lt hi)
    have hj : j < size body := Nat.lt_of_add_lt_add_left hic
    rw [getElem?_body hj] at hbyte
    rw [nestingFrom_body (Nat.le_of_lt hj)] at hout ⊢
    exact depth_pos_of_closing hb hbyte hout
  · have hr := hb.atRest_run_byteGlyphs
    rw [atRest, Bool.and_eq_true, decide_eq_true_iff] at hr
    rw [nestingFrom_body (Nat.le_refl _), ← length_byteGlyphs, List.take_length]
    exact hr
  · intro j
    rw [Nat.add_lt_add_iff_left]
    exact mem_separators_iff_directComma hb
  · intro k f hf
    obtain ⟨tail, hcov⟩ := covers_of_ofBody? hf
    exact hcov.separators

open Text in
/-- The comma in the inner parenthesis and the one in the literal separate nothing. -/
theorem Fields.body_one_level_down_nested :
    let t : Text := "é(a,(b,c),',',d/)!".toList
    (utf8 t)[2]? = some 0x28 ∧ t.closingOffset? 2 = some 17 ∧
      (t.nestingFrom 3 6).depth + 1 = (t.nestingFrom 2 6).depth ∧
      t.DirectComma 2 4 ∧ ¬ t.DirectComma 2 7 ∧ t.DirectComma 2 10 ∧ ¬ t.DirectComma 2 12 := by
  intro t
  have ho : (utf8 t)[2]? = some 0x28 := by decide
  have hc : t.closingOffset? 2 = some 17 := by decide
  obtain ⟨-, hd, -, -, hs, -⟩ := body_one_level_down t 2 17 ho hc
  have hm : ∀ j < 14, j ∉ (t.slice 3 17).separators → ¬ t.DirectComma 2 (3 + j) :=
    fun j hj hn hdc => hn ((hs j).mpr ⟨by omega, hdc⟩)
  refine ⟨ho, hc, (hd 6 (by decide) (by decide)).2, ?_, ?_, ?_, ?_⟩
  · exact ((hs 1).mp (by decide)).2
  · exact hm 4 (by decide) (by decide)
  · exact ((hs 7).mp (by decide)).2
  · exact hm 9 (by decide) (by decide)

end SourceMarkers
