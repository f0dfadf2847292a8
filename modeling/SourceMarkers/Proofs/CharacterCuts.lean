import SourceMarkers.Proofs.CharacterWalks
import SourceMarkers.Proofs.CheckedFields

/-! # Cuts of a body

A body is cut at commas, which are found in one walk from its beginning, at a
slash behind them, and before its last character. The bytes of the body and its
characters give the same cuts, and its fields are what lies between them.
-/

namespace SourceMarkers

open Nesting Text

namespace Fields

def offsetsOf {α : Type} [DecidableEq α] (a : α) (letters : List (α × Nat)) : List Nat :=
  (letters.filter (·.1 = a)).map Prod.snd

structure Cuts where
  /-- The commas behind the fields before the name. -/
  commas : List Nat
  /-- The slash behind the name. -/
  slash : Nat
  /-- The end of the parameters. -/
  stop : Nat
deriving DecidableEq, Repr

/-- The cuts of a body, in one walk over its letters to the last comma that is needed and a search
for a slash behind it. The parameters end where the last character begins, unless the slash is that
character. -/
def cuts? {α : Type} [DecidableEq α] (glyph : α → Glyph) (slash : α) (k : Kind) (last : Nat)
    (letters : List (α × Nat)) : Option Cuts :=
  let commas := (stopOffsets glyph separates start letters).take (k.fieldCount - 1)
  if commas.length < k.fieldCount - 1 then none
  else
    ((offsetsOf slash letters).find? fun i => commas.all (· < i)).map fun i =>
      ⟨commas, i, max last (i + 1)⟩

/-- The cuts of a body in a walk over its bytes. -/
def byteCuts? (k : Kind) (body : Text) : Option Cuts :=
  cuts? Glyph.ofByte 0x2f k (size body.dropLast) (utf8 body).zipIdx

/-- The cuts of a body in a walk over its characters. -/
def charCuts? (k : Kind) (body : Text) : Option Cuts :=
  cuts? Glyph.ofChar '/' k (((charOffsets 0 body).getLast?.map Prod.snd).getD 0)
    (charOffsets 0 body)

/-- The parts of some bytes from an offset on, each of them up to one of some other offsets, and the
next one behind it. -/
def pieces (bytes : List UInt8) : Nat → List Nat → List (List UInt8)
  | _, [] => []
  | i, j :: js => (bytes.take j).drop i :: pieces bytes (j + 1) js

def Cuts.leading (x : Cuts) (body : Text) : List (List UInt8) :=
  pieces (utf8 body) 0 (x.commas ++ [x.slash])

def Cuts.params (x : Cuts) (body : Text) : List UInt8 :=
  ((utf8 body).take x.stop).drop (x.slash + 1)

/-- The offset behind some fields at the beginning of a body, with a comma behind each. -/
def restOffset : List Text → Nat
  | [] => 0
  | u :: ts => size u + 1 + restOffset ts

variable {body s t u v rest : Text} {ts : List Text} {k : Kind} {a : Char} {i : Nat} {l : List Nat}

theorem mem_offsetsOf_iff {α : Type} [DecidableEq α] {a : α} {xs : List (α × Nat)} :
    i ∈ offsetsOf a xs ↔ (a, i) ∈ xs := by
  simp [offsetsOf]

theorem offsetsOf_append {α : Type} [DecidableEq α] {a : α} {xs ys : List (α × Nat)} :
    offsetsOf a (xs ++ ys) = offsetsOf a xs ++ offsetsOf a ys := by
  rw [offsetsOf, List.filter_append, List.map_append]
  rfl

theorem offsetsOf_eq_nil {α : Type} [DecidableEq α] {a : α} {xs : List (α × Nat)}
    (h : ∀ x ∈ xs, x.1 ≠ a) : offsetsOf a xs = [] := by
  rw [offsetsOf, List.map_eq_nil_iff, List.filter_eq_nil_iff]
  exact fun x hx => by simpa using h x hx

theorem offsetsOf_utf8EncodeChar (ha : a.toNat < 0x80) (c : Char) :
    offsetsOf (UInt8.ofNat a.toNat) ((String.utf8EncodeChar c).zipIdx i) =
      offsetsOf a [(c, i)] := by
  obtain ⟨b, bs, hb, hbs, hac⟩ := exists_utf8EncodeChar_eq c
  obtain ⟨hac, hnil⟩ := hac a ha
  rw [hb]
  by_cases he : a = c
  · rw [hnil he, ← hac.mpr he, he]
    simp [offsetsOf]
  · have hne : ∀ x ∈ (b :: bs).zipIdx i, x.1 ≠ UInt8.ofNat a.toNat := by
      rintro ⟨x, j⟩ hx rfl
      rcases List.mem_cons.mp (List.fst_mem_of_mem_zipIdx hx) with hx | hx
      · exact he (hac.mp hx)
      · have hl := hbs _ hx
        rw [UInt8.toNat_ofNat'] at hl
        omega
    rw [offsetsOf_eq_nil hne, offsetsOf_eq_nil]
    simpa using Ne.symm he

theorem offsetsOf_utf8 (ha : a.toNat < 0x80) :
    offsetsOf (UInt8.ofNat a.toNat) ((utf8 t).zipIdx i) = offsetsOf a (charOffsets i t) := by
  induction t generalizing i with
  | nil => rfl
  | cons c t ih =>
    rw [utf8_cons, List.zipIdx_append, offsetsOf_append, offsetsOf_utf8EncodeChar ha,
      String.length_utf8EncodeChar, ih, ← offsetsOf_append]
    rfl

theorem byteCuts?_eq_charCuts? (k : Kind) (body : Text) : byteCuts? k body = charCuts? k body := by
  have ha : offsetsOf 0x2f (utf8 body).zipIdx = offsetsOf '/' (charOffsets 0 body) :=
    offsetsOf_utf8 (a := '/') (by decide)
  rw [byteCuts?, charCuts?, cuts?, cuts?, ha, stopOffsets_utf8 not_separates_plain,
    getLast?_charOffsets]

theorem size_flatMap_append_comma : size (ts.flatMap (· ++ [','])) = restOffset ts := by
  induction ts with
  | nil => rfl
  | cons u ts ih =>
    rw [List.flatMap_cons, size_append, size_append, ih]
    rfl

theorem separators_lt_iff (h : Separated t ts rest) :
    (∀ j ∈ t.separators.take ts.length, j < i) ↔ restOffset ts ≤ i := by
  induction ts generalizing t i with
  | nil => simp [restOffset]
  | cons u ts ih =>
    obtain ⟨v, hc, hs⟩ := separated_cons.mp h
    rw [separators_of_cutComma? hc, List.length_cons, List.take_succ_cons, List.forall_mem_cons,
      restOffset, ← List.map_take, List.forall_mem_map]
    rcases Nat.lt_or_ge i (size u + 1) with hi | hi
    · exact iff_of_false (fun hu => by omega) (by omega)
    · obtain ⟨k, rfl⟩ := Nat.exists_eq_add_of_le hi
      simp only [Nat.add_lt_add_iff_left, Nat.add_le_add_iff_left]
      rw [ih hs]
      exact and_iff_right (by omega)

theorem drop_take_utf8 : ((utf8 (s ++ (u ++ v))).take (size (s ++ u))).drop (size s) = utf8 u := by
  rw [← List.append_assoc, utf8_append, List.take_left' length_utf8, utf8_append,
    List.drop_left' length_utf8]

/-- The first fields are what lies between the first commas. -/
theorem pieces_of_separated (h : Separated t ts rest) :
    pieces (utf8 (s ++ t)) (size s) ((t.separators.take ts.length).map (size s + ·) ++ l) =
      ts.map utf8 ++ pieces (utf8 (s ++ t)) (size s + restOffset ts) l := by
  induction ts generalizing s t with
  | nil => simp [restOffset]
  | cons u ts ih =>
    obtain ⟨v, hc, hs⟩ := separated_cons.mp h
    have ht := eq_of_cutComma? hc
    -- Behind the first comma the body is cut as a body of its own, further on by what is before it.
    have hi := ih (s := s ++ (u ++ [','])) hs
    have hv : s ++ (u ++ [',']) ++ v = s ++ t := by simp [ht]
    have hz : size (s ++ (u ++ [','])) = size s + size u + 1 := by
      rw [size_append, size_append, Nat.add_assoc]
      rfl
    have hr : size s + size u + 1 + restOffset ts = size s + restOffset (u :: ts) := by
      rw [restOffset]
      omega
    have hm : ((size s + ·) ∘ (size u + 1 + ·) : Nat → Nat) = (size s + size u + 1 + ·) := by
      ext j
      simp only [Function.comp_apply]
      omega
    have hu : ((utf8 (s ++ t)).take (size s + size u)).drop (size s) = utf8 u := by
      rw [ht, ← size_append]
      exact drop_take_utf8
    rw [hv, hz, hr] at hi
    rw [separators_of_cutComma? hc, List.length_cons, List.take_succ_cons, List.map_cons,
      ← List.map_take, List.map_map, hm, List.cons_append, pieces, hu, hi, List.map_cons,
      List.cons_append]

theorem find?_offsetsOf_slash {p : Nat → Bool} (hp : ∀ j, i ≤ j → p j) :
    (offsetsOf '/' (charOffsets i t)).find? p = (cutSlash? t).map fun x => i + size x.1 := by
  induction t generalizing i with
  | nil => rfl
  | cons c t ih =>
    rw [charOffsets, ← List.singleton_append, offsetsOf_append, cutSlash?]
    by_cases hc : c = '/'
    · have ho : offsetsOf '/' [(c, i)] = [i] := by simp [offsetsOf, hc]
      rw [ho, List.singleton_append, List.find?_cons_of_pos (hp i (Nat.le_refl i)), if_pos hc]
      rfl
    · rw [offsetsOf_eq_nil (by simpa using hc), List.nil_append,
        ih fun j hj => hp j (Nat.le_trans (Nat.le_add_right i _) hj), if_neg hc, Option.map_map]
      congr 1
      ext x
      exact Nat.add_assoc i _ _

theorem find?_slash {p : Nat → Bool} (hp : ∀ j, p j ↔ size s ≤ j) :
    (offsetsOf '/' (charOffsets 0 (s ++ t))).find? p =
      (cutSlash? t).map fun x => size s + size x.1 := by
  -- Slashes among the fields before the name are passed over.
  have hs : (offsetsOf '/' (charOffsets 0 s)).find? p = none := by
    rw [List.find?_eq_none]
    intro j hj hpj
    obtain ⟨u, v, rfl, rfl⟩ := mem_charOffsets_iff.mp (mem_offsetsOf_iff.mp hj)
    have hle := (hp _).mp hpj
    have hc := Char.utf8Size_pos '/'
    rw [size_append, size_cons] at hle
    omega
  rw [charOffsets_append, offsetsOf_append, List.find?_append, hs, Option.none_or, Nat.zero_add]
  exact find?_offsetsOf_slash fun j hj => (hp j).mpr hj

theorem drop_take_dropLast :
    ((utf8 (s ++ t)).take (max (size (s ++ t).dropLast) (size s))).drop (size s) =
      utf8 t.dropLast := by
  obtain ⟨u, v, hb, hu, hv⟩ := checkedSlice_eq_ok_iff.mp (checkedSlice_dropLast (s := s) (t := t))
  rw [← hv, ← hu, hb]
  exact drop_take_utf8

theorem charCuts?_of_cutCommas?_eq_none (h : cutCommas? (k.fieldCount - 1) body = none) :
    charCuts? k body = none := by
  have hl : ¬ k.fieldCount - 1 ≤ body.separators.length := by
    rw [← isSome_cutCommas?, h]
    simp
  rw [charCuts?, cuts?, stopOffsets_eq_separators]
  exact if_pos (by rw [List.length_take]; omega)

theorem charCuts?_of_cutCommas? (h : cutCommas? (k.fieldCount - 1) body = some (ts, rest)) :
    charCuts? k body = (cutSlash? rest).map fun x =>
      ⟨body.separators.take ts.length, restOffset ts + size x.1,
        max (size body.dropLast) (restOffset ts + size x.1 + 1)⟩ := by
  have hl : k.fieldCount - 1 ≤ body.separators.length := by
    rw [← isSome_cutCommas?, h]
    rfl
  obtain ⟨hn, hs⟩ := cutCommas?_eq_some_iff.mp h
  have hf : (offsetsOf '/' (charOffsets 0 body)).find?
      (fun i => (body.separators.take ts.length).all (· < i)) =
        (cutSlash? rest).map fun x => restOffset ts + size x.1 := by
    have hp : ∀ i, (body.separators.take ts.length).all (· < i) ↔
        size (ts.flatMap (· ++ [','])) ≤ i := by
      intro i
      rw [size_flatMap_append_comma, ← separators_lt_iff hs, List.all_eq_true]
      simp only [decide_eq_true_eq]
    have hf := find?_slash (t := rest) hp
    rwa [← hs.eq_append, size_flatMap_append_comma] at hf
  rw [charCuts?, cuts?, stopOffsets_eq_separators, getLast?_charOffsets,
    if_neg (by rw [List.length_take]; omega), ← hn, hf, Option.map_map]
  rfl

section Pieces

variable {name params : Text} (h : Separated body ts (name ++ '/' :: params))
include h

theorem leading_of_separated :
    pieces (utf8 body) 0 (body.separators.take ts.length ++ [restOffset ts + size name]) =
      (ts ++ [name]).map utf8 := by
  have hp := pieces_of_separated (s := []) (l := [restOffset ts + size name]) h
  have hn : ((utf8 body).take (restOffset ts + size name)).drop (restOffset ts) = utf8 name := by
    rw [h.eq_append, ← size_flatMap_append_comma, ← size_append]
    exact drop_take_utf8
  simp only [List.nil_append, size_nil, Nat.zero_add, List.map_id'] at hp
  rw [hp, List.map_append, pieces, hn]
  rfl

theorem params_of_separated :
    ((utf8 body).take (max (size body.dropLast) (restOffset ts + size name + 1))).drop
      (restOffset ts + size name + 1) = utf8 params.dropLast := by
  have hi : restOffset ts + size name + 1 =
      size (ts.flatMap (· ++ [',']) ++ (name ++ ['/'])) := by
    rw [size_append, size_append, size_flatMap_append_comma, Nat.add_assoc]
    rfl
  have hb : body = ts.flatMap (· ++ [',']) ++ (name ++ ['/']) ++ params := by
    simpa using h.eq_append
  rw [hi, hb]
  exact drop_take_dropLast

end Pieces

/-- The fields of a body are what lies between its cuts, and there are none without them. -/
theorem map_ofBody?_eq_map_charCuts? (k : Kind) (body : Text) :
    (ofBody? k body).map (fun f => (f.leading.map utf8, utf8 f.params)) =
      (charCuts? k body).map fun x => (x.leading body, x.params body) := by
  have hm : (ofBody? k body).map (fun f => (f.leading.map utf8, utf8 f.params)) =
      ((ofBody? k body).map fun f => (f.leading, f.params)).map
        fun x => (x.1.map utf8, utf8 x.2) := by
    rw [Option.map_map]
    rfl
  rw [hm, map_ofBody?]
  cases hc : cutCommas? (k.fieldCount - 1) body with
  | none =>
    rw [charCuts?_of_cutCommas?_eq_none hc]
    rfl
  | some x =>
    obtain ⟨ts, rest⟩ := x
    obtain ⟨-, hs⟩ := cutCommas?_eq_some_iff.mp hc
    rw [charCuts?_of_cutCommas? hc, Option.bind_some, Option.map_map, Option.map_map]
    refine Option.map_congr ?_
    rintro ⟨name, params⟩ hr
    obtain ⟨rfl, -⟩ := eq_of_cutSlash? hr
    simp only [Function.comp_apply, Cuts.leading, Cuts.params, leading_of_separated hs,
      params_of_separated hs]

end Fields

/-- A walk for a parenthesis over the bytes of a text, from any offset on, stops at the offset of
the character at which one over the characters does that begins at the first boundary from there on.
That character is a closing parenthesis. The cuts of a text taken as a body are the same for its
bytes and its characters, and its fields lie between them. -/
theorem Text.byte_walks_are_character_walks (t : Text) :
    (∀ o, t.closingOffset? o = stopOffset? Glyph.ofChar closes start (t.charsFrom o)) ∧
      (∀ o ≤ size t, ∃ s u, t = s ++ u ∧ t.IsFirstBoundary o (size s) ∧
        t.charsFrom o = charOffsets (size s) u) ∧
      (∀ o, size t < o → t.charsFrom o = []) ∧
      (∀ o i, t.closingOffset? o = some i → o ≤ i ∧ ∃ u v, t = u ++ ')' :: v ∧ size u = i) ∧
      ∀ k, Fields.byteCuts? k t = Fields.charCuts? k t ∧
        (Fields.ofBody? k t).map (fun f => (f.leading.map utf8, utf8 f.params)) =
          (Fields.charCuts? k t).map fun x => (x.leading t, x.params t) := by
  refine ⟨closingOffset?_eq_stopOffset?_chars t, fun o ho => ?_, fun o => charsFrom_of_size_lt,
    fun o i => exists_of_closingOffset?, fun k => ?_⟩
  · obtain ⟨s, u, rfl, hf⟩ := exists_isFirstBoundary ho
    exact ⟨s, u, rfl, hf, charsFrom_of_isFirstBoundary hf⟩
  · exact ⟨Fields.byteCuts?_eq_charCuts? k t, Fields.map_ofBody?_eq_map_charCuts? k t⟩

/-- The walk begins inside the first character, which has two bytes. -/
theorem Text.byte_walks_are_character_walks_inside :
    let t : Text := "é,(é),m/pé".toList
    1 ≤ size t ∧
      (∃ s u, t = s ++ u ∧ t.IsFirstBoundary 1 (size s) ∧ t.charsFrom 1 = charOffsets (size s) u) ∧
      size t < 20 ∧ t.charsFrom 20 = [] ∧
      t.closingOffset? 1 = some 6 ∧ (∃ u v, t = u ++ ')' :: v ∧ size u = 6) ∧
      Fields.byteCuts? .objectCall t = some ⟨[2, 7], 9, 11⟩ := by
  intro t
  obtain ⟨hc, hf, he, hs, hk⟩ := byte_walks_are_character_walks t
  have hi : t.closingOffset? 1 = some 6 := by
    rw [hc]
    decide
  refine ⟨by decide, hf 1 (by decide), by decide, he 20 (by decide), hi, (hs 1 6 hi).2, ?_⟩
  rw [(hk .objectCall).1]
  decide

end SourceMarkers
