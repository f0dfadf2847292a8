import SourceMarkers.Proofs.FieldCuts
import SourceMarkers.Proofs.Bytes

/-! # Separators of fields

One walk over a text from its beginning meets commas outside all parentheses
and literals. The first of them separate the first fields of a body, although
the walk begins anew behind each. A body is its fields with what separates
them, and one more character, whatever it is.
-/

namespace SourceMarkers

namespace Nesting

def places (stops : Nesting → Glyph → Bool) (n : Nesting) (gs : List Glyph) : List Nat :=
  (List.range gs.length).filter fun i => gs[i]?.any (stops (n.run (gs.take i)))

variable {stops : Nesting → Glyph → Bool} {n : Nesting} {g : Glyph} {gs hs : List Glyph}

theorem places_append :
    places stops n (gs ++ hs) =
      places stops n gs ++ (places stops (n.run gs) hs).map (gs.length + ·) := by
  have hg : ∀ i ∈ List.range gs.length, (gs ++ hs)[i]?.any (stops (n.run ((gs ++ hs).take i))) =
      gs[i]?.any (stops (n.run (gs.take i))) := by
    intro i hi
    have hi := List.mem_range.mp hi
    rw [List.getElem?_append_left hi, List.take_append_of_le_length (Nat.le_of_lt hi)]
  rw [places, List.length_append, List.range_add, List.filter_append, List.filter_congr hg,
    List.filter_map, places, places]
  congr 3
  funext i
  rw [Function.comp_apply, List.getElem?_append_right (Nat.le_add_right _ _),
    Nat.add_sub_cancel_left, List.take_length_add_append, run_append]

theorem places_cons_of_stops (h : stops n g) :
    places stops n (g :: gs) = 0 :: (places stops (n.step g) gs).map (1 + ·) := by
  have hp : places stops n [g] = [0] := by simp [places, h]
  rw [← List.singleton_append, places_append, hp]
  rfl

theorem places_cons_of_not_stops (h : ¬ stops n g) :
    places stops n (g :: gs) = (places stops (n.step g) gs).map (1 + ·) := by
  have hp : places stops n [g] = [] := by simp [places, h]
  rw [← List.singleton_append, places_append, hp]
  rfl

theorem head?_places : (places stops n gs).head? = walk? stops n gs := by
  induction gs generalizing n with
  | nil => rfl
  | cons g gs ih =>
    by_cases h : stops n g
    · rw [places_cons_of_stops h, walk?_cons_of_stops h, List.head?_cons]
    · rw [places_cons_of_not_stops h, walk?_cons_of_not_stops h, List.head?_map, ih]
      simp only [Nat.add_comm]

end Nesting

namespace Text

open Nesting

variable {t u v : Text}

/-- The byte offsets of the commas outside all parentheses and literals. -/
def separators (t : Text) : List Nat := places separates start (Glyph.ofBytes (utf8 t))

theorem head?_separators :
    (separators t).head? = (comma? (Glyph.ofText t)).map fun k => size (t.take k) := by
  rw [separators, head?_places, walk?_ofBytes (by simp [separates]), comma?]

theorem separators_comma (h : u.FreeOf .comma) :
    separators (u ++ ',' :: v) = size u :: (separators v).map (size u + 1 + ·) := by
  have hu : separators u = [] := by
    rw [← List.head?_eq_none_iff, head?_separators, comma?_eq, h.walk_eq_none, Option.map_none]
  have hg : Glyph.ofBytes (utf8 (',' :: v)) = .comma :: Glyph.ofBytes (utf8 v) := rfl
  have hs : separates (start.run (Glyph.ofText u)) .comma := by
    rw [separates_eq, meets, h.atRest_run]
    rfl
  have hl : (Glyph.ofBytes (utf8 u)).length = size u := by
    rw [Glyph.ofBytes, List.length_map, length_utf8]
  rw [separators] at hu
  rw [separators, utf8_append, Glyph.ofBytes_append, places_append, hu, run_ofBytes, hg,
    places_cons_of_stops hs, step_of_atRest h.atRest_run (.inl rfl), hl, List.nil_append,
    List.map_cons, List.map_map, Nat.add_zero]
  congr 2
  funext i
  simp only [Function.comp_apply]
  omega

example : separators "é(a,b),','".toList = [7] := by decide

theorem exists_behind_iff {c d : Char} :
    (∃ a b, u ++ c :: v = a ++ d :: b ∧ size u < size a) ↔ d ∈ v := by
  constructor
  · rintro ⟨a, b, he, hlt⟩
    rcases List.append_eq_append_iff.mp he with ⟨w, rfl, hw⟩ | ⟨w, rfl, -⟩
    · cases w with
      | nil => simp at hlt
      | cons e w =>
        rw [(List.cons.inj hw).2]
        exact List.mem_append_right w List.mem_cons_self
    · rw [size_append] at hlt
      omega
  · intro h
    obtain ⟨a, b, rfl⟩ := List.append_of_mem h
    have hc := c.utf8Size_pos
    refine ⟨u ++ c :: a, b, by simp, ?_⟩
    rw [size_append, size_cons]
    omega

end Text

theorem Kind.two_le_fieldCount (k : Kind) : 2 ≤ k.fieldCount := by cases k <;> decide

namespace Fields

open Text

variable {body t u v rest : Text} {ts : List Text} {n : Nat} {k : Kind} {f : Fields}
  {tail : Option Char}

/-- The first fields of a text, each of them up to a comma, and what follows them. -/
def cutCommas? : Nat → Text → Option (List Text × Text)
  | 0, t => some ([], t)
  | n + 1, t => (cutComma? t).bind fun (u, v) =>
    (cutCommas? n v).map fun (ts, rest) => (u :: ts, rest)

/-- The texts stand at the beginning of the whole one, and the commas behind them are the first
separators. -/
structure Separated (t : Text) (ts : List Text) (rest : Text) : Prop where
  eq_append : t = ts.flatMap (· ++ [',']) ++ rest
  separators : ∀ j < ts.length,
    t.separators[j]? = some (size ([','].intercalate (ts.take (j + 1))))

theorem Separated.eq_intercalate_append (h : Separated t ts rest) (hn : ts ≠ []) :
    t = [','].intercalate ts ++ ',' :: rest := by
  rw [h.eq_append, ← intercalate_append_singleton hn, List.append_assoc]
  rfl

theorem Separated.last_separator (h : Separated t ts rest) (hn : ts ≠ []) :
    t.separators[ts.length - 1]? = some (size ([','].intercalate ts)) := by
  have hl := List.length_pos_iff.mpr hn
  rw [h.separators (ts.length - 1) (by omega), Nat.sub_add_cancel hl, List.take_length]

theorem separators_of_cutComma? (h : cutComma? t = some (u, v)) :
    t.separators = size u :: (Text.separators v).map (size u + 1 + ·) := by
  obtain ⟨rfl, hu⟩ := cutComma?_eq_some_iff.mp h
  exact separators_comma hu

theorem separators_of_cutComma?_eq_none (h : cutComma? t = none) : t.separators = [] := by
  rw [cutComma?, Option.map_eq_none_iff] at h
  rw [← List.head?_eq_none_iff, head?_separators, h, Option.map_none]

theorem cutComma?_of_head? (h : (u ++ ',' :: v).separators.head? = some (size u)) :
    cutComma? (u ++ ',' :: v) = some (u, v) := by
  cases hc : cutComma? (u ++ ',' :: v) with
  | none =>
    rw [separators_of_cutComma?_eq_none hc] at h
    cases h
  | some p =>
    obtain ⟨u', v'⟩ := p
    have ht := eq_of_cutComma? hc
    rw [separators_of_cutComma? hc, List.head?_cons] at h
    obtain rfl := eq_of_append_eq_of_size_eq ht (Option.some.inj h).symm
    obtain rfl := (List.cons.inj (List.append_cancel_left ht)).2
    rfl

theorem size_intercalate_take_cons {j : Nat} (hj : j < ts.length) :
    size ([','].intercalate ((u :: ts).take (j + 2))) =
      size u + 1 + size ([','].intercalate (ts.take (j + 1))) := by
  have hn : ts.take (j + 1) ≠ [] := List.ne_nil_of_length_pos (by simp; omega)
  rw [List.take_succ_cons, List.intercalate_cons_of_ne_nil hn]
  simp only [size_append]
  rfl

theorem separated_nil : Separated t [] rest ↔ t = rest :=
  ⟨fun h => h.eq_append, fun h => ⟨h, nofun⟩⟩

theorem separated_cons :
    Separated t (u :: ts) rest ↔ ∃ v, cutComma? t = some (u, v) ∧ Separated v ts rest := by
  constructor
  · rintro ⟨rfl, hs⟩
    have he : (u :: ts).flatMap (· ++ [',']) ++ rest =
        u ++ ',' :: (ts.flatMap (· ++ [',']) ++ rest) := by simp
    rw [he] at hs ⊢
    have hz := hs 0 (Nat.succ_pos _)
    rw [List.take_succ_cons, List.take_zero, List.intercalate_singleton,
      ← List.head?_eq_getElem?] at hz
    have hc := cutComma?_of_head? hz
    refine ⟨_, hc, rfl, fun j hj => ?_⟩
    have hj' := hs (j + 1) (Nat.succ_lt_succ hj)
    rw [size_intercalate_take_cons hj, separators_of_cutComma? hc] at hj'
    simpa using hj'
  · rintro ⟨v, hc, rfl, hs⟩
    refine ⟨?_, fun j hj => ?_⟩
    · rw [eq_of_cutComma? hc, List.flatMap_cons]
      simp
    · rw [separators_of_cutComma? hc]
      cases j with
      | zero => simp
      | succ j =>
        have hj := Nat.lt_of_succ_lt_succ hj
        rw [size_intercalate_take_cons hj, List.getElem?_cons_succ, List.getElem?_map, hs j hj]
        rfl

/-- As many texts as are asked for are cut off at the first separators, and no others can be. -/
theorem cutCommas?_eq_some_iff :
    cutCommas? n t = some (ts, rest) ↔ ts.length = n ∧ Separated t ts rest := by
  induction n generalizing t ts with
  | zero =>
    rw [cutCommas?, List.length_eq_zero_iff]
    constructor
    · rintro ⟨⟩
      exact ⟨rfl, separated_nil.mpr rfl⟩
    · rintro ⟨rfl, hs⟩
      rw [separated_nil.mp hs]
  | succ n ih =>
    simp only [cutCommas?, Option.bind_eq_some_iff, Option.map_eq_some_iff, Prod.exists,
      Prod.mk.injEq]
    constructor
    · rintro ⟨u, v, hc, ts, rest, hts, rfl, rfl⟩
      obtain ⟨hl, hs⟩ := ih.mp hts
      exact ⟨congrArg (· + 1) hl, separated_cons.mpr ⟨v, hc, hs⟩⟩
    · rintro ⟨hl, hs⟩
      obtain ⟨u, ts, rfl⟩ := List.exists_cons_of_length_eq_add_one hl
      obtain ⟨v, hc, hs⟩ := separated_cons.mp hs
      exact ⟨u, v, hc, ts, rest, ih.mpr ⟨Nat.succ.inj hl, hs⟩, rfl, rfl⟩

theorem isSome_cutCommas? : (cutCommas? n t).isSome ↔ n ≤ t.separators.length := by
  induction n generalizing t with
  | zero => simp [cutCommas?]
  | succ n ih =>
    rw [cutCommas?]
    cases hc : cutComma? t with
    | none => simp [separators_of_cutComma?_eq_none hc]
    | some p =>
      rw [separators_of_cutComma? hc, Option.bind_some, Option.isSome_map, ih]
      simp

theorem isSome_cutSlash? : (cutSlash? t).isSome ↔ '/' ∈ t := by
  rw [Option.isSome_iff_exists]
  constructor
  · rintro ⟨⟨u, v⟩, h⟩
    rw [(eq_of_cutSlash? h).1]
    exact List.mem_append_right u List.mem_cons_self
  · intro h
    obtain ⟨u, v, rfl, hu⟩ := List.eq_append_cons_of_mem h
    exact ⟨(u, v), cutSlash?_eq_some_iff.mpr ⟨rfl, hu⟩⟩

/-- A kind decides only how many fields are cut off. -/
theorem map_ofBody? :
    (ofBody? k body).map (fun f => (f.leading, f.params)) =
      (cutCommas? (k.fieldCount - 1) body).bind fun (ts, rest) =>
        (cutSlash? rest).map fun (name, params) => (ts ++ [name], params.dropLast) := by
  unfold ofBody? finish? Kind.fieldCount
  cases k.hasReceiver with
  | false =>
    cases hc : cutComma? body with
    | none => simp [cutCommas?, hc]
    | some p => simp [cutCommas?, hc, Function.comp_def, leading]
  | true =>
    cases hc : cutComma? body with
    | none => simp [cutCommas?, hc]
    | some p =>
      cases hr : cutComma? p.2 with
      | none => simp [cutCommas?, hc, hr]
      | some q => simp [cutCommas?, hc, hr, Function.comp_def, leading]

theorem eq_of_leading_eq {f' : Fields} (hl : f.leading = f'.leading) (hp : f.params = f'.params) :
    f = f' := by
  obtain ⟨owner, receiver, name, params⟩ := f
  obtain ⟨owner', receiver', name', params'⟩ := f'
  obtain ⟨hf, hn⟩ := List.append_inj' hl rfl
  obtain ⟨rfl, hr⟩ := List.cons.inj hf
  obtain ⟨rfl, -⟩ := List.cons.inj hn
  have hr := congrArg List.head? hr
  rw [Option.head?_toList, Option.head?_toList] at hr
  obtain rfl : receiver = receiver' := hr
  obtain rfl : params = params' := hp
  rfl

theorem ofBody?_eq_some_iff :
    ofBody? k body = some f ↔ ∃ ts rest params,
      cutCommas? (k.fieldCount - 1) body = some (ts, rest) ∧
        cutSlash? rest = some (f.name, params) ∧
          f.leading = ts ++ [f.name] ∧ f.params = params.dropLast := by
  have hm : ofBody? k body = some f ↔
      (ofBody? k body).map (fun f => (f.leading, f.params)) = some (f.leading, f.params) := by
    constructor
    · intro h
      rw [h, Option.map_some]
    · intro h
      obtain ⟨f', hf, he⟩ := Option.map_eq_some_iff.mp h
      obtain ⟨hl, hp⟩ := Prod.mk.inj he
      rw [hf, eq_of_leading_eq hl hp]
  rw [hm, map_ofBody?]
  simp only [Option.bind_eq_some_iff, Option.map_eq_some_iff, Prod.exists, Prod.mk.injEq]
  constructor
  · rintro ⟨ts, rest, hc, name, params, hs, hl, hp⟩
    obtain rfl : name = f.name := (List.cons.inj (List.append_inj' hl rfl).2).1
    exact ⟨ts, rest, params, hc, hs, hl.symm, hp.symm⟩
  · rintro ⟨ts, rest, params, hc, hs, hl, hp⟩
    exact ⟨ts, rest, hc, f.name, params, hs, hl.symm, hp.symm⟩

/-- The fields stand in the body with a comma or a slash behind each, and the commas are the first
separators of the body. One character at most is left. -/
structure Covers (k : Kind) (body : Text) (f : Fields) (tail : Option Char) : Prop where
  length_leading : f.leading.length = k.fieldCount
  body_eq : body = [','].intercalate f.leading ++ '/' :: (f.params ++ tail.toList)
  separators : ∀ j < k.fieldCount - 1,
    body.separators[j]? = some (size ([','].intercalate (f.leading.take (j + 1))))
  slash_not_mem_name : '/' ∉ f.name
  getLast?_body : ∀ c ∈ tail, body.getLast? = some c
  tail_eq_none : tail = none ↔ body = [','].intercalate f.leading ++ ['/']
  params_eq_nil : tail = none → f.params = []

theorem covers_of_ofBody? (h : ofBody? k body = some f) : ∃ tail, Covers k body f tail := by
  obtain ⟨ts, rest, params, hc, hs, hl, hp⟩ := ofBody?_eq_some_iff.mp h
  obtain ⟨hn, ht⟩ := cutCommas?_eq_some_iff.mp hc
  obtain ⟨rfl, hname⟩ := eq_of_cutSlash? hs
  have hk := k.two_le_fieldCount
  have hb : body = [','].intercalate f.leading ++ '/' :: params := by
    rw [hl, intercalate_concat, List.append_assoc]
    exact ht.eq_append
  refine ⟨params.getLast?, ?_, ?_, ?_, hname, ?_, ?_, ?_⟩
  · rw [hl, List.length_append, hn, List.length_singleton]
    omega
  · rw [hp, hb]
    congr 2
    rcases List.eq_nil_or_concat params with rfl | ⟨params, c, rfl⟩ <;> simp
  · intro j hj
    rw [hl, List.take_append_of_le_length (by omega)]
    exact ht.separators j (hn ▸ hj)
  · intro c hc
    obtain ⟨params, rfl⟩ := List.getLast?_eq_some_iff.mp hc
    rw [hb, ← List.cons_append, ← List.append_assoc]
    exact List.getLast?_concat
  · rw [hb, List.getLast?_eq_none_iff]
    simp
  · intro he
    rw [hp, List.getLast?_eq_none_iff.mp he]
    rfl

theorem ofBody?_of_covers (h : Covers k body f tail) : ofBody? k body = some f := by
  have hl : f.leading = (f.owner :: f.receiver.toList) ++ [f.name] := rfl
  have hn : (f.owner :: f.receiver.toList).length = k.fieldCount - 1 := by
    rw [← h.length_leading, hl, List.length_append, List.length_singleton, Nat.add_sub_cancel]
  have hs : Separated body (f.owner :: f.receiver.toList)
      (f.name ++ '/' :: (f.params ++ tail.toList)) := by
    refine ⟨?_, fun j hj => ?_⟩
    · rw [← List.append_assoc, ← intercalate_concat]
      exact h.body_eq
    · rw [h.separators j (hn ▸ hj), hl, List.take_append_of_le_length hj]
  have hp : f.params = (f.params ++ tail.toList).dropLast := by
    cases ht : tail with
    | none => simp [h.params_eq_nil ht]
    | some c => simp
  exact ofBody?_eq_some_iff.mpr ⟨_, _, _, cutCommas?_eq_some_iff.mpr ⟨hn, hs⟩,
    cutSlash?_eq_some_iff.mpr ⟨rfl, h.slash_not_mem_name⟩, hl, hp⟩

theorem isSome_ofBody? :
    (ofBody? k body).isSome ↔
      ∃ ts rest, cutCommas? (k.fieldCount - 1) body = some (ts, rest) ∧ '/' ∈ rest := by
  have hm : ((ofBody? k body).map fun f => (f.leading, f.params)).isSome =
      (ofBody? k body).isSome := Option.isSome_map
  rw [← hm, map_ofBody?]
  cases cutCommas? (k.fieldCount - 1) body with
  | none => simp
  | some p =>
    rw [Option.bind_some, Option.isSome_map, isSome_cutSlash?]
    constructor
    · intro h
      exact ⟨_, _, rfl, h⟩
    · rintro ⟨ts, rest, ⟨⟩, h⟩
      exact h

/-- A body has fields if and only if it has enough separators, with a slash behind them. The fields
cover the body, and no others do. -/
theorem body_covered (k : Kind) (body : Text) :
    ((ofBody? k body).isSome ↔
      ∃ i, body.separators[k.fieldCount - 2]? = some i ∧
        ∃ u v, body = u ++ '/' :: v ∧ i < size u) ∧
      ∀ f, ofBody? k body = some f ↔ ∃ tail, Covers k body f tail := by
  refine ⟨?_, fun f => ⟨covers_of_ofBody?, fun ⟨_, h⟩ => ofBody?_of_covers h⟩⟩
  have hk := k.two_le_fieldCount
  have hc : ∀ ts rest, cutCommas? (k.fieldCount - 1) body = some (ts, rest) →
      body.separators[k.fieldCount - 2]? = some (size ([','].intercalate ts)) ∧
        body = [','].intercalate ts ++ ',' :: rest := by
    intro ts rest hc
    obtain ⟨hl, ht⟩ := cutCommas?_eq_some_iff.mp hc
    have hn : ts ≠ [] := List.ne_nil_of_length_pos (by omega)
    have hi := ht.last_separator hn
    rw [hl] at hi
    exact ⟨hi, ht.eq_intercalate_append hn⟩
  rw [isSome_ofBody?]
  constructor
  · rintro ⟨ts, rest, hts, hs⟩
    obtain ⟨hi, hb⟩ := hc ts rest hts
    refine ⟨_, hi, ?_⟩
    rw [hb]
    exact exists_behind_iff.mpr hs
  · rintro ⟨i, hi, hs⟩
    obtain ⟨hlt, -⟩ := List.getElem?_eq_some_iff.mp hi
    have hle : k.fieldCount - 1 ≤ body.separators.length := by omega
    obtain ⟨⟨ts, rest⟩, hts⟩ := Option.isSome_iff_exists.mp (isSome_cutCommas?.mpr hle)
    obtain ⟨hi', hb⟩ := hc ts rest hts
    rw [hi] at hi'
    obtain rfl := Option.some.inj hi'
    rw [hb] at hs
    exact ⟨ts, rest, hts, exists_behind_iff.mp hs⟩

end Fields

end SourceMarkers
