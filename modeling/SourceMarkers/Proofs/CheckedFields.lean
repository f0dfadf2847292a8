import SourceMarkers.Proofs.Checked
import SourceMarkers.Proofs.FieldCuts

/-! # Checked fields

The fields of a marker are read off the bytes of its body, in one walk that
stops at the last comma it needs. Every part that is taken out of the body lies
between two characters, and the fields are those of the body.
-/

namespace SourceMarkers.Fields

open Nesting Text

/-- Reads the fields that end at commas outside parentheses and literals, as many as are wanted,
with the offset behind the last one. The walk is at an offset `i`, and the field that it is in
begins at an offset `start`. -/
def readCommas (body : Text) (wanted : Nat) (n : Nesting) (i start : Nat) (fields : List Text) :
    List UInt8 → Checked (List Text × Nat)
  | [] => .ok (fields, start)
  | b :: bs =>
    if n.separates (.ofByte b) then do
      let field ← body.checkedSlice start i
      if fields.length + 1 = wanted then .ok (fields ++ [field], i + 1)
      else readCommas body wanted (n.step (.ofByte b)) (i + 1) (i + 1) (fields ++ [field]) bs
    else readCommas body wanted (n.step (.ofByte b)) (i + 1) start fields bs

def readSlash (body : Text) (start : Nat) : Checked (Option (Text × Text)) := do
  let tail ← body.checkedSlice start body.size
  match ← tail.findFrom [['/']] 0 with
  | none => .ok none
  | some (k, _) =>
    let name ← body.checkedSlice start (start + k)
    let params ← body.checkedSlice (start + k + 1) (max (size body.dropLast) (start + k + 1))
    .ok (some (name, params))

def split (kind : Kind) (body : Text) : Checked (Option (List Text × Text)) := do
  let wanted ← Checked.pred kind.fieldCount
  let (fields, start) ← if 0 < wanted then readCommas body wanted .start 0 0 [] (utf8 body)
    else .ok ([], 0)
  if fields.length < wanted then .ok none
  else
    let last ← readSlash body start
    .ok (last.map fun (name, params) => (fields ++ [name], params))

def read (kind : Kind) (body : Text) : Checked (Option Fields) := do
  match ← split kind body with
  | none => .ok none
  | some (fields, params) =>
    let owner ← Checked.get fields 0
    if kind.hasReceiver then
      let receiver ← Checked.get fields 1
      let name ← Checked.get fields 2
      .ok (some ⟨owner, some receiver, name, params⟩)
    else
      let name ← Checked.get fields 1
      .ok (some ⟨owner, none, name, params⟩)

variable {body s t u v : Text} {wanted i start : Nat} {n : Nesting} {fields : List Text}
  {bs bs' : List UInt8}

theorem readCommas_append (h : walk? separates n (Glyph.ofBytes bs) = none) :
    readCommas body wanted n i start fields (bs ++ bs') =
      readCommas body wanted (n.run (Glyph.ofBytes bs)) (i + bs.length) start fields bs' := by
  induction bs generalizing n i with
  | nil => rfl
  | cons b bs ih =>
    obtain ⟨hb, h⟩ := walk?_cons_eq_none.mp h
    rw [List.cons_append, readCommas, if_neg hb, ih h, Glyph.ofBytes_cons, run_cons,
      List.length_cons, Nat.add_assoc, Nat.add_comm 1]

theorem not_separates_plain (n : Nesting) : ¬ n.separates .plain := by simp [separates]

/-- A walk that begins at a field reads it if a comma ends it. -/
theorem readCommas_of_freeOf (hb : body = s ++ (u ++ ',' :: v)) (hu : u.FreeOf .comma) :
    readCommas body wanted .start (size s) (size s) fields (utf8 (u ++ ',' :: v)) =
      if fields.length + 1 = wanted then .ok (fields ++ [u], size (s ++ (u ++ [','])))
      else readCommas body wanted .start (size (s ++ (u ++ [',']))) (size (s ++ (u ++ [','])))
        (fields ++ [u]) (utf8 v) := by
  have hw : walk? separates start (Glyph.ofBytes (utf8 u)) = none := by
    rw [walk?_ofBytes not_separates_plain, separates_eq, hu.walk_eq_none, Option.map_none]
  have hc : utf8 (',' :: v) = 0x2c :: utf8 v := rfl
  have hg : Glyph.ofByte 0x2c = .comma := by decide
  have hs : (start.run (Glyph.ofText u)).separates .comma := by
    rw [separates_eq, meets, hu.atRest_run]
    rfl
  have hi : size s + size u + 1 = size (s ++ (u ++ [','])) := by
    rw [size_append, size_append, Nat.add_assoc]
    rfl
  have hslice : checkedSlice body (size s) (size s + size u) = .ok u := by
    rw [← size_append]
    exact checkedSlice_eq_ok_iff.mpr ⟨s, ',' :: v, hb, rfl, rfl⟩
  rw [utf8_append, readCommas_append hw, run_ofBytes, length_utf8, hc, readCommas, hg, if_pos hs,
    hslice, Checked.ok_bind, step_of_atRest hu.atRest_run (Or.inl rfl), hi]

theorem readCommas_of_cutComma?_eq_none (h : cutComma? t = none) :
    readCommas body wanted .start i start fields (utf8 t) = .ok (fields, start) := by
  have hw : walk? separates Nesting.start (Glyph.ofBytes (utf8 t)) = none := by
    rw [walk?_ofBytes not_separates_plain, Option.map_eq_none_iff]
    exact Option.map_eq_none_iff.mp h
  rw [← List.append_nil (utf8 t), readCommas_append hw]
  rfl

theorem before?_slash : before? ['/'] t = (cutSlash? t).map Prod.fst := by
  induction t with
  | nil => rfl
  | cons c t ih =>
    rw [before?, cutSlash?, ih]
    by_cases hc : c = '/'
    · simp [hc]
    · simp [hc, Ne.symm hc, Function.comp_def]

theorem size_dropLast_le : size t.dropLast ≤ size t := by
  rcases List.eq_nil_or_concat t with rfl | ⟨t, c, rfl⟩
  · exact Nat.le_refl _
  · rw [List.concat_eq_append, List.dropLast_concat]
    exact size_le_size_append _ _

/-- What is left behind a place when the last character is dropped does not begin before it. -/
theorem checkedSlice_dropLast :
    checkedSlice (s ++ t) (size s) (max (size (s ++ t).dropLast) (size s)) = .ok t.dropLast := by
  rcases List.eq_nil_or_concat t with rfl | ⟨t, c, rfl⟩
  · rw [List.append_nil, Nat.max_eq_right size_dropLast_le]
    exact checkedSlice_eq_ok_iff.mpr ⟨s, [], by simp, rfl, by simp⟩
  · rw [List.concat_eq_append, ← List.append_assoc, List.dropLast_concat, List.dropLast_concat,
      Nat.max_eq_left (size_le_size_append s t)]
    exact checkedSlice_eq_ok_iff.mpr ⟨s, [c], by simp, rfl, rfl⟩

theorem findFrom_slash :
    findFrom [['/']] t 0 = .ok ((cutSlash? t).map fun x => (size x.1, size (x.1 ++ ['/']))) := by
  rw [findFrom_singleton (List.cons_ne_nil _ _) rfl, before?_slash, Option.map_map]
  rfl

theorem readSlash_append (hb : body = s ++ t) :
    readSlash body (size s) =
      .ok ((cutSlash? t).map fun (name, params) => (name, params.dropLast)) := by
  have htail : checkedSlice body (size s) (size body) = .ok t :=
    checkedSlice_eq_ok_iff.mpr ⟨s, [], by simp [hb], rfl, by rw [hb]⟩
  rw [readSlash, htail, Checked.ok_bind, findFrom_slash, Checked.ok_bind]
  cases hc : cutSlash? t with
  | none => rfl
  | some x =>
    obtain ⟨name, params⟩ := x
    obtain ⟨rfl, -⟩ := eq_of_cutSlash? hc
    have hname : checkedSlice body (size s) (size s + size name) = .ok name := by
      rw [← size_append]
      exact checkedSlice_eq_ok_iff.mpr ⟨s, '/' :: params, hb, rfl, rfl⟩
    have hi : size s + size name + 1 = size (s ++ (name ++ ['/'])) := by
      rw [size_append, size_append, Nat.add_assoc]
      rfl
    have hb : body = s ++ (name ++ ['/']) ++ params := by simp [hb]
    have hparams : checkedSlice body (size s + size name + 1)
        (max (size body.dropLast) (size s + size name + 1)) = .ok params.dropLast := by
      rw [hi, hb]
      exact checkedSlice_dropLast
    simp only [Option.map_some, hname, hparams, Checked.ok_bind]

theorem split_of_not_hasReceiver {kind : Kind} (hk : kind.hasReceiver = false) :
    split kind body = .ok ((ofBody? kind body).map fun f => (f.leading, f.params)) := by
  have hw : Checked.pred kind.fieldCount = .ok 1 := by rw [Kind.fieldCount, hk]; rfl
  rw [split, hw, Checked.ok_bind, if_pos Nat.one_pos, ofBody?]
  cases hc : cutComma? body with
  | none =>
    rw [readCommas_of_cutComma?_eq_none hc]
    rfl
  | some x =>
    obtain ⟨u, v⟩ := x
    obtain ⟨hb, hu⟩ := cutComma?_eq_some_iff.mp hc
    have hr : readCommas body 1 .start 0 0 [] (utf8 body) = .ok ([u], size (u ++ [','])) := by
      rw [hb]
      exact readCommas_of_freeOf (s := []) rfl hu
    have hs := readSlash_append (show body = u ++ [','] ++ v by simp [hb])
    rw [hr, Checked.ok_bind]
    simp only [List.length_singleton, Nat.lt_irrefl, if_false, hs, Checked.ok_bind, hk,
      Option.bind_eq_bind, Option.bind_some, Bool.false_eq_true, finish?, Option.map_map]
    rfl

theorem split_of_hasReceiver {kind : Kind} (hk : kind.hasReceiver) :
    split kind body = .ok ((ofBody? kind body).map fun f => (f.leading, f.params)) := by
  have hw : Checked.pred kind.fieldCount = .ok 2 := by rw [Kind.fieldCount, hk]; rfl
  rw [split, hw, Checked.ok_bind, if_pos Nat.two_pos, ofBody?]
  cases hc : cutComma? body with
  | none =>
    rw [readCommas_of_cutComma?_eq_none hc]
    rfl
  | some x =>
    obtain ⟨u, v⟩ := x
    obtain ⟨hb, hu⟩ := cutComma?_eq_some_iff.mp hc
    have hr : readCommas body 2 .start 0 0 [] (utf8 body) =
        readCommas body 2 .start (size (u ++ [','])) (size (u ++ [','])) [u] (utf8 v) := by
      rw [hb]
      exact readCommas_of_freeOf (s := []) rfl hu
    rw [hr]
    cases hc' : cutComma? v with
    | none =>
      rw [readCommas_of_cutComma?_eq_none hc']
      simp [hk, hc', Checked.ok_bind]
    | some y =>
      obtain ⟨u', v'⟩ := y
      obtain ⟨rfl, hu'⟩ := cutComma?_eq_some_iff.mp hc'
      have hb : body = u ++ [','] ++ (u' ++ ',' :: v') := by simp [hb]
      have hr : readCommas body 2 .start (size (u ++ [','])) (size (u ++ [','])) [u]
          (utf8 (u' ++ ',' :: v')) = .ok ([u, u'], size (u ++ [','] ++ (u' ++ [',']))) :=
        readCommas_of_freeOf hb hu'
      have hs := readSlash_append (show body = u ++ [','] ++ (u' ++ [',']) ++ v' by simp [hb])
      rw [hr, Checked.ok_bind]
      simp only [List.length_cons, List.length_nil, Nat.zero_add, Nat.reduceAdd, Nat.lt_irrefl,
        if_false, if_true, hs, Checked.ok_bind, hk, hc', Option.bind_eq_bind, Option.bind_some,
        finish?, Option.map_map]
      rfl

theorem read_eq (kind : Kind) (body : Text) : read kind body = .ok (ofBody? kind body) := by
  have hs : split kind body = .ok ((ofBody? kind body).map fun f => (f.leading, f.params)) := by
    cases hk : kind.hasReceiver with
    | false => exact split_of_not_hasReceiver hk
    | true => exact split_of_hasReceiver hk
  rw [read, hs, Checked.ok_bind]
  cases hf : ofBody? kind body with
  | none => rfl
  | some f =>
    have hr := (partOf_of_ofBody? hf).receiver_isSome
    obtain ⟨owner, receiver, name, params⟩ := f
    cases receiver with
    | none =>
      have hk : kind.hasReceiver = false := hr.symm
      simp [leading, Checked.get, Checked.ok_bind, hk]
    | some r =>
      have hk : kind.hasReceiver = true := hr.symm
      simp [leading, Checked.get, Checked.ok_bind, hk]

end SourceMarkers.Fields
