import Mathlib.Data.List.Find
import SourceMarkers.Proofs.Keywords

/-! # Checked offsets

A search over byte offsets may go wrong: it may ask for a part of a text that
begins behind its end or cuts a character, or begin behind the end of the text.
Each of these steps is checked here. Words of ASCII characters are found where
they stand in the text, and only there.
-/

namespace SourceMarkers

/-- What may go wrong in a search over byte offsets. -/
inductive Fault where
  /-- The part of a text between two offsets begins behind its end, ends behind the end of the text
  or begins or ends inside a character. -/
  | badSlice (start stop : Nat)
  /-- A search begins behind the end of the text. -/
  | pastEnd (cursor : Nat)
  /-- A search does not go on behind the offset from which it began. -/
  | stuck (cursor next : Nat)
  /-- One is taken from zero. -/
  | underflow
  /-- What stands before a parenthesis that has been found is no keyword. -/
  | noKeyword (word : Text)
  /-- A field is used that has not been read. -/
  | missingField (index : Nat)
deriving DecidableEq, Repr

abbrev Checked := Except Fault

namespace Checked

variable {α β : Type} {a : α} {f : α → Checked β}

theorem ok_bind : (Except.ok a >>= f) = f a := rfl

def pred : Nat → Checked Nat
  | 0 => .error .underflow
  | n + 1 => .ok n

def get (l : List α) (i : Nat) : Checked α :=
  match l[i]? with
  | some a => .ok a
  | none => .error (.missingField i)

end Checked

namespace Text

/-- The byte offset lies between two characters of the text or at one of its ends. -/
def isBoundary (n : Nat) : Text → Bool
  | [] => n = 0
  | c :: t => n = 0 || c.utf8Size ≤ n && isBoundary (n - c.utf8Size) t

def checkedSlice (t : Text) (i j : Nat) : Checked Text :=
  if i ≤ j ∧ isBoundary i t ∧ isBoundary j t then .ok (t.slice i j) else .error (.badSlice i j)

/-- An offset and a size, with the offset counted from a place that lies further ahead. -/
def advance (m : Nat) (x : Nat × Nat) : Nat × Nat := (m + x.1, x.2)

/-- The first offset at which a word begins in some bytes, with the size of the word. Of the words
that begin there, the first one is taken. -/
def occurrence? (words : List Text) : List UInt8 → Option (Nat × Nat)
  | [] => none
  | b :: bs =>
    match words.find? fun w => (utf8 w).isPrefixOf (b :: bs) with
    | some w => some (0, size w)
    | none => (occurrence? words bs).map (advance 1)

/-- The offsets between which a word stands first, from a byte offset on. -/
def findFrom (words : List Text) (t : Text) (i : Nat) : Checked (Option (Nat × Nat)) :=
  if i ≤ size t then
    .ok ((occurrence? words ((utf8 t).drop i)).map fun (k, n) => (i + k, i + k + n))
  else .error (.pastEnd i)

variable {s t u v w : Text} {c : Char} {i j n : Nat} {words : List Text}

theorem advance_zero : advance 0 = id := by
  funext x
  rw [advance, Nat.zero_add]
  rfl

theorem map_advance_map_advance {o : Option (Nat × Nat)} :
    (o.map (advance j)).map (advance i) = o.map (advance (i + j)) := by
  rw [Option.map_map]
  congr 1
  funext x
  simp [advance, Nat.add_assoc]

theorem isBoundary_iff : isBoundary n t ↔ ∃ s u, t = s ++ u ∧ size s = n := by
  constructor
  · intro h
    induction t generalizing n with
    | nil =>
      refine ⟨[], [], rfl, ?_⟩
      simpa [isBoundary, eq_comm] using h
    | cons c t ih =>
      rw [isBoundary, Bool.or_eq_true, decide_eq_true_eq, Bool.and_eq_true, decide_eq_true_eq] at h
      rcases h with rfl | ⟨hc, h⟩
      · exact ⟨[], c :: t, rfl, rfl⟩
      · obtain ⟨s, u, rfl, hs⟩ := ih h
        refine ⟨c :: s, u, rfl, ?_⟩
        rw [size_cons]
        omega
  · rintro ⟨s, u, rfl, rfl⟩
    induction s with
    | nil => cases u <;> rfl
    | cons c s ih => simp [isBoundary, ih]

theorem exists_append_of_size_le (h : s ++ t = u ++ v) (hs : size s ≤ size u) :
    ∃ w, u = s ++ w ∧ t = w ++ v := by
  rcases List.append_eq_append_iff.mp h with h | ⟨w, rfl, rfl⟩
  · exact h
  · cases w with
    | nil => exact ⟨[], by simp, by simp⟩
    | cons c w =>
      have hw : 0 < size (c :: w) := size_pos (List.cons_ne_nil c w)
      rw [size_append] at hs
      omega

theorem checkedSlice_eq_ok_iff :
    checkedSlice t i j = .ok u ↔ ∃ s v, t = s ++ (u ++ v) ∧ size s = i ∧ size (s ++ u) = j := by
  unfold checkedSlice
  constructor
  · intro h
    split at h
    · next hb =>
      obtain ⟨hij, hi, hj⟩ := hb
      obtain ⟨s, x, rfl, rfl⟩ := isBoundary_iff.mp hi
      obtain ⟨y, v, hy, rfl⟩ := isBoundary_iff.mp hj
      obtain ⟨w, rfl, rfl⟩ := exists_append_of_size_le hy hij
      rw [slice_append] at h
      cases h
      exact ⟨s, v, rfl, rfl, rfl⟩
    · cases h
  · rintro ⟨s, v, rfl, rfl, rfl⟩
    rw [if_pos, slice_append]
    exact ⟨size_le_size_append s u, isBoundary_iff.mpr ⟨s, u ++ v, rfl, rfl⟩,
      isBoundary_iff.mpr ⟨s ++ u, v, by simp, rfl⟩⟩

theorem slice_eq_of_checkedSlice (h : checkedSlice t i j = .ok u) : slice t i j = u := by
  obtain ⟨s, v, rfl, rfl, rfl⟩ := checkedSlice_eq_ok_iff.mp h
  exact slice_append

def isAscii (t : Text) : Bool := t.all fun c => c.toNat < 0x80

theorem isAscii_cons : isAscii (c :: t) ↔ c.toNat < 0x80 ∧ isAscii t := by simp [isAscii]

theorem exists_utf8EncodeChar_eq (c : Char) :
    ∃ b bs, String.utf8EncodeChar c = b :: bs ∧ (∀ x ∈ bs, 0x80 ≤ x.toNat) ∧
      ∀ a : Char, a.toNat < 0x80 → (UInt8.ofNat a.toNat = b ↔ a = c) ∧ (a = c → bs = []) := by
  by_cases hc : c.toNat < 0x80
  · refine ⟨_, _, utf8EncodeChar_of_lt hc, by simp, fun a ha => ⟨?_, fun _ => rfl⟩⟩
    rw [← UInt8.toNat_inj, ← Char.toNat_inj, UInt8.toNat_ofNat', UInt8.toNat_ofNat']
    omega
  · have hb : ∀ b ∈ String.utf8EncodeChar c, 0x80 ≤ b.toNat :=
      fun b => le_of_mem_utf8EncodeChar (Nat.not_lt.mp hc)
    cases he : String.utf8EncodeChar c with
    | nil => exact absurd (congrArg List.length he) (by simp [Nat.ne_of_gt c.utf8Size_pos])
    | cons b bs =>
      rw [he] at hb
      refine ⟨b, bs, rfl, fun x hx => hb x (List.mem_cons_of_mem b hx), fun a ha => ?_⟩
      have hac : a ≠ c := by
        rintro rfl
        exact hc ha
      refine ⟨iff_of_false ?_ hac, fun h => absurd h hac⟩
      rintro rfl
      have hl := hb _ List.mem_cons_self
      rw [UInt8.toNat_ofNat'] at hl
      omega

theorem isPrefixOf_utf8 (h : isAscii w) : (utf8 w).isPrefixOf (utf8 t) = w.isPrefixOf t := by
  induction w generalizing t with
  | nil => rfl
  | cons a w ih =>
    obtain ⟨ha, h⟩ := isAscii_cons.mp h
    rw [utf8_cons, utf8EncodeChar_of_lt ha, List.singleton_append]
    cases t with
    | nil => rfl
    | cons c t =>
      obtain ⟨b, bs, hb, -, hac⟩ := exists_utf8EncodeChar_eq c
      obtain ⟨hac, hbs⟩ := hac a ha
      rw [utf8_cons, hb, List.cons_append, List.isPrefixOf_cons_cons, List.isPrefixOf_cons_cons]
      by_cases he : a = c
      · rw [hac.mpr he, hbs he, List.nil_append, ih h, he, beq_self_eq_true, beq_self_eq_true]
      · rw [beq_eq_false_iff_ne.mpr he, beq_eq_false_iff_ne.mpr (mt hac.mp he), Bool.false_and,
          Bool.false_and]

def Searchable (words : List Text) : Prop := ∀ w ∈ words, w ≠ [] ∧ isAscii w

theorem occurrence?_append {bs bytes : List UInt8} (hw : Searchable words)
    (h : ∀ b ∈ bs, 0x80 ≤ b.toNat) :
    occurrence? words (bs ++ bytes) =
      (occurrence? words bytes).map (advance bs.length) := by
  induction bs with
  | nil => simp [advance_zero]
  | cons b bs ih =>
    have hb := h b List.mem_cons_self
    have hf : (words.find? fun w => (utf8 w).isPrefixOf (b :: (bs ++ bytes))) = none := by
      rw [List.find?_eq_none]
      intro w hm
      obtain ⟨hn, ha⟩ := hw w hm
      obtain ⟨a, w, rfl⟩ := List.exists_cons_of_ne_nil hn
      have ha : a.toNat < 0x80 := (isAscii_cons.mp ha).1
      rw [utf8_cons, utf8EncodeChar_of_lt ha, List.singleton_append, List.isPrefixOf_cons_cons,
        beq_eq_false_iff_ne.mpr]
      · simp
      · rintro rfl
        rw [UInt8.toNat_ofNat'] at hb
        omega
    rw [List.cons_append, occurrence?, hf, ih fun x hx => h x (List.mem_cons_of_mem b hx)]
    simp only [map_advance_map_advance, List.length_cons, Nat.add_comm]

theorem occurrence?_utf8_cons (hw : Searchable words) :
    occurrence? words (utf8 (c :: t)) =
      match words.find? fun w => w.isPrefixOf (c :: t) with
      | some w => some (0, size w)
      | none => (occurrence? words (utf8 t)).map (advance c.utf8Size) := by
  obtain ⟨b, bs, hb, hbs, -⟩ := exists_utf8EncodeChar_eq c
  have hf : (words.find? fun w => (utf8 w).isPrefixOf (b :: (bs ++ utf8 t))) =
      words.find? fun w => w.isPrefixOf (c :: t) := by
    rw [← List.cons_append, ← hb, ← utf8_cons]
    exact List.find?_congr fun w hm => isPrefixOf_utf8 (hw w hm).2
  rw [utf8_cons, hb, List.cons_append, occurrence?, hf]
  cases words.find? fun w => w.isPrefixOf (c :: t) with
  | some w => rfl
  | none =>
    have hl : c.utf8Size = bs.length + 1 := by
      rw [← String.length_utf8EncodeChar, hb, List.length_cons]
    simp only [occurrence?_append hw hbs, map_advance_map_advance, hl, Nat.add_comm]

theorem occurrence?_singleton (hn : w ≠ []) (ha : isAscii w) :
    occurrence? [w] (utf8 t) = (before? w t).map fun u => (size u, size w) := by
  have hw : Searchable [w] := fun x hx => List.mem_singleton.mp hx ▸ ⟨hn, ha⟩
  induction t with
  | nil =>
    rw [before?, if_neg (by simpa using hn)]
    rfl
  | cons c t ih =>
    rw [occurrence?_utf8_cons hw, before?, List.find?_singleton]
    cases w.isPrefixOf (c :: t) with
    | true => rfl
    | false =>
      simp only [Bool.false_eq_true, if_false, ih, Option.map_map]
      rfl

theorem le_size_of_findFrom {o : Option (Nat × Nat)} (h : findFrom words t i = .ok o) :
    i ≤ size t := by
  unfold findFrom at h
  split at h
  · assumption
  · cases h

theorem findFrom_append :
    findFrom words (s ++ t) (size s) =
      .ok ((occurrence? words (utf8 t)).map fun (k, n) => (size s + k, size s + k + n)) := by
  rw [findFrom, if_pos (size_le_size_append s t), utf8_append, List.drop_left' length_utf8]

theorem findFrom_singleton (hn : w ≠ []) (ha : isAscii w) :
    findFrom [w] t 0 = .ok ((before? w t).map fun u => (size u, size (u ++ w))) := by
  have hf : findFrom [w] t 0 = _ := findFrom_append (s := [])
  rw [hf, occurrence?_singleton hn ha, Option.map_map]
  congr 2
  funext u
  simp

theorem findFrom_append_cons (hw : Searchable words) (h : ∀ w ∈ words, ¬ w <+: c :: t) :
    findFrom words (s ++ c :: t) (size s) = findFrom words (s ++ c :: t) (size (s ++ [c])) := by
  have hf : (words.find? fun w => w.isPrefixOf (c :: t)) = none := by
    rw [List.find?_eq_none]
    intro w hm
    rw [List.isPrefixOf_iff_prefix]
    exact h w hm
  rw [findFrom_append, List.append_cons, findFrom_append, occurrence?_utf8_cons hw, hf]
  simp [Option.map_map, Function.comp_def, advance, Nat.add_assoc]

end Text

end SourceMarkers
