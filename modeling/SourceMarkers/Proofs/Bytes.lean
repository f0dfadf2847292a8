import SourceMarkers.Document
import SourceMarkers.Proofs.Findings

/-! # Bytes and characters

A byte offset that lies between two characters of a text cuts its UTF-8 form as
it cuts the text. All bytes of a character beyond ASCII are read as plain ones,
so that parentheses and line breaks are the same in both.
-/

namespace SourceMarkers

open Nesting

namespace Glyph

variable {b : UInt8} {c : Char} {t : Text}

theorem ofChar_eq_plain (h : 0x80 ≤ c.toNat) : ofChar c = .plain := by
  have hn : ∀ d : Char, d.toNat < 0x80 → c ≠ d := by
    rintro d hd rfl
    omega
  simp only [ofChar, hn '\\' (by decide), hn '\x22' (by decide), hn '\x27' (by decide),
    hn '(' (by decide), hn ')' (by decide), hn ',' (by decide), if_false]

theorem toNat_ofUInt8 : (Char.ofUInt8 b).toNat = b.toNat := UInt8.toNat_toUInt32 b

theorem ofByte_eq_plain (h : 0x80 ≤ b.toNat) : ofByte b = .plain :=
  ofChar_eq_plain (toNat_ofUInt8 ▸ h)

theorem ofByte_ofNat (h : c.toNat < 0x80) : ofByte (UInt8.ofNat c.toNat) = ofChar c := by
  have hc : Char.ofUInt8 (UInt8.ofNat c.toNat) = c := by
    rw [← Char.toNat_inj, toNat_ofUInt8, UInt8.toNat_ofNat']
    omega
  rw [ofByte, hc]

@[simp] theorem ofBytes_cons {bs : List UInt8} : ofBytes (b :: bs) = ofByte b :: ofBytes bs := rfl

@[simp] theorem ofBytes_append {bs bs' : List UInt8} :
    ofBytes (bs ++ bs') = ofBytes bs ++ ofBytes bs' := List.map_append

end Glyph

theorem utf8EncodeChar_of_lt {c : Char} (h : c.toNat < 0x80) :
    String.utf8EncodeChar c = [UInt8.ofNat c.toNat] := by
  rw [String.utf8EncodeChar]
  exact if_pos (Nat.le_of_lt_succ h)

theorem le_of_mem_utf8EncodeChar {c : Char} {b : UInt8} (h : 0x80 ≤ c.toNat)
    (hb : b ∈ String.utf8EncodeChar c) : 0x80 ≤ b.toNat := by
  have hc : ¬ c.val.toNat ≤ 0x7f := Nat.not_le.mpr h
  simp only [String.utf8EncodeChar, if_neg hc] at hb
  split at hb
  · simp only [List.mem_cons, List.not_mem_nil, or_false] at hb
    rcases hb with rfl | rfl <;> simp only [UInt8.toNat_ofNat'] <;> omega
  · split at hb
    · simp only [List.mem_cons, List.not_mem_nil, or_false] at hb
      rcases hb with rfl | rfl | rfl <;> simp only [UInt8.toNat_ofNat'] <;> omega
    · simp only [List.mem_cons, List.not_mem_nil, or_false] at hb
      rcases hb with rfl | rfl | rfl | rfl <;> simp only [UInt8.toNat_ofNat'] <;> omega

theorem Glyph.ofBytes_utf8EncodeChar (c : Char) :
    ofBytes (String.utf8EncodeChar c) = ofChar c :: List.replicate (c.utf8Size - 1) .plain := by
  by_cases h : c.toNat < 0x80
  · have hc : c.utf8Size = 1 := if_pos (Nat.le_of_lt_succ h)
    rw [utf8EncodeChar_of_lt h, hc, ofBytes_cons, ofByte_ofNat h]
    rfl
  · have hp : ∀ g ∈ ofBytes (String.utf8EncodeChar c), g = .plain := by
      intro g hg
      obtain ⟨b, hb, rfl⟩ := List.mem_map.mp hg
      exact ofByte_eq_plain (le_of_mem_utf8EncodeChar (Nat.not_lt.mp h) hb)
    have hl : (ofBytes (String.utf8EncodeChar c)).length = c.utf8Size := by
      rw [ofBytes, List.length_map, String.length_utf8EncodeChar]
    have hs := c.utf8Size_pos
    rw [ofChar_eq_plain (Nat.not_lt.mp h), ← List.replicate_succ, Nat.sub_add_cancel hs, ← hl]
    exact List.eq_replicate_of_mem hp

namespace Nesting

variable {stops : Nesting → Glyph → Bool} {n : Nesting} {gs : List Glyph}

theorem step_plain_step_plain : (n.step .plain).step .plain = n.step .plain := by
  obtain ⟨⟨q, b⟩, d⟩ := n
  cases q <;> rfl

theorem walk?_replicate_append (hs : ∀ n, ¬ stops n .plain) (hn : n.step .plain = n) (k : Nat) :
    walk? stops n (List.replicate k .plain ++ gs) = (walk? stops n gs).map (k + ·) := by
  induction k with
  | zero => simp
  | succ k ih =>
    rw [List.replicate_succ, List.cons_append, walk?_cons_of_not_stops (hs n), hn, ih,
      Option.map_map]
    congr 1
    funext j
    simp only [Function.comp_apply]
    omega

/-- A walk over the bytes of a text stops where one over its characters does. -/
theorem walk?_ofBytes (hs : ∀ n, ¬ stops n .plain) (t : Text) :
    walk? stops n (Glyph.ofBytes (Text.utf8 t)) =
      (walk? stops n (Glyph.ofText t)).map fun k => Text.size (t.take k) := by
  induction t generalizing n with
  | nil => rfl
  | cons c t ih =>
    rw [Text.utf8_cons, Glyph.ofBytes_append, Glyph.ofBytes_utf8EncodeChar, Glyph.ofText_cons,
      List.cons_append]
    by_cases hc : stops n (Glyph.ofChar c)
    · rw [walk?_cons_of_stops hc, walk?_cons_of_stops hc]
      rfl
    · have hr : walk? stops (n.step (Glyph.ofChar c))
          (List.replicate (c.utf8Size - 1) .plain ++ Glyph.ofBytes (Text.utf8 t)) =
          (walk? stops (n.step (Glyph.ofChar c)) (Glyph.ofBytes (Text.utf8 t))).map
            (c.utf8Size - 1 + ·) := by
        by_cases h : c.toNat < 0x80
        · have hc : c.utf8Size = 1 := if_pos (Nat.le_of_lt_succ h)
          simp [hc]
        · rw [Glyph.ofChar_eq_plain (Nat.not_lt.mp h)]
          exact walk?_replicate_append hs step_plain_step_plain _
      rw [walk?_cons_of_not_stops hc, walk?_cons_of_not_stops hc, hr, ih, Option.map_map,
        Option.map_map, Option.map_map]
      congr 1
      funext k
      have hpos := c.utf8Size_pos
      simp only [Function.comp_apply, List.take_succ_cons, Text.size_cons]
      omega

theorem run_replicate_plain (h : n.step .plain = n) (k : Nat) :
    n.run (List.replicate k .plain) = n := by
  induction k with
  | zero => rfl
  | succ k ih => rw [List.replicate_succ, run_cons, h, ih]

theorem run_ofBytes (t : Text) : n.run (Glyph.ofBytes (Text.utf8 t)) = n.run (Glyph.ofText t) := by
  induction t generalizing n with
  | nil => rfl
  | cons c t ih =>
    have hc : (n.step (.ofChar c)).run (List.replicate (c.utf8Size - 1) .plain) =
        n.step (.ofChar c) := by
      by_cases h : c.toNat < 0x80
      · have hs : c.utf8Size = 1 := if_pos (Nat.le_of_lt_succ h)
        rw [hs]
        rfl
      · rw [Glyph.ofChar_eq_plain (Nat.not_lt.mp h)]
        exact run_replicate_plain step_plain_step_plain _
    rw [Text.utf8_cons, Glyph.ofBytes_append, Glyph.ofBytes_utf8EncodeChar, run_append, run_cons,
      hc, ih]
    rfl

end Nesting

namespace Text

variable {s t : Text}

theorem closingOffset?_append :
    closingOffset? (s ++ t) (size s) =
      (closing? (Glyph.ofText t)).map fun k => size s + size (t.take k) := by
  have hs : ∀ n, ¬ closes n .plain := by simp [closes]
  rw [closingOffset?, utf8_append, List.drop_left' length_utf8, closing?, walk?_ofBytes hs,
    Option.map_map]
  rfl

theorem closingOffset?_parenthesis :
    closingOffset? (s ++ '(' :: t) (size s) =
      (walk? (meets .closing) start (Glyph.ofText t)).map
        fun j => size (s ++ '(' :: t.take j) := by
  have ho : Glyph.ofChar '(' = .opening := by decide
  rw [closingOffset?_append, Glyph.ofText_cons, ho, closing?_opening_cons, Option.map_map]
  congr 1
  funext j
  simp

theorem count_newline_utf8EncodeChar (c : Char) :
    (String.utf8EncodeChar c).count 0x0a = breaks [c] := by
  by_cases h : c.toNat < 0x80
  · have hc : UInt8.ofNat c.toNat = 0x0a ↔ c = '\n' := by
      rw [← UInt8.toNat_inj, ← Char.toNat_inj, UInt8.toNat_ofNat',
        Nat.mod_eq_of_lt (Nat.lt_trans h (by decide))]
      rfl
    rw [utf8EncodeChar_of_lt h, breaks, List.count_singleton, List.count_singleton]
    simp only [beq_iff_eq, hc]
  · have hb : (0x0a : UInt8) ∉ String.utf8EncodeChar c := by
      intro hb
      exact absurd (le_of_mem_utf8EncodeChar (Nat.not_lt.mp h) hb) (by decide)
    have hc : '\n' ∉ [c] := by
      simp only [List.mem_singleton]
      rintro rfl
      exact h (by decide)
    rw [breaks, List.count_eq_zero.mpr hb, List.count_eq_zero.mpr hc]

theorem count_newline_utf8 : (utf8 t).count 0x0a = breaks t := by
  induction t with
  | nil => rfl
  | cons c t ih =>
    rw [utf8_cons, List.count_append, count_newline_utf8EncodeChar, ih, ← breaks_append]
    rfl

def dropSize : Nat → Text → Text
  | _, [] => []
  | n, c :: t => if n = 0 then c :: t else dropSize (n - c.utf8Size) t

def takeSize : Nat → Text → Text
  | _, [] => []
  | n, c :: t => if n = 0 then [] else c :: takeSize (n - c.utf8Size) t

/-- The part of a text between two byte offsets. -/
def slice (t : Text) (i j : Nat) : Text := takeSize (j - i) (dropSize i t)

theorem dropSize_size_append : dropSize (size s) (s ++ t) = t := by
  induction s with
  | nil => cases t <;> rfl
  | cons c s ih =>
    have hc : size (c :: s) ≠ 0 := Nat.ne_of_gt (size_pos (List.cons_ne_nil c s))
    rw [List.cons_append, dropSize, if_neg hc, size_cons, Nat.add_sub_cancel_left, ih]

theorem takeSize_size_append : takeSize (size s) (s ++ t) = s := by
  induction s with
  | nil => cases t <;> rfl
  | cons c s ih =>
    have hc : size (c :: s) ≠ 0 := Nat.ne_of_gt (size_pos (List.cons_ne_nil c s))
    rw [List.cons_append, takeSize, if_neg hc, size_cons, Nat.add_sub_cancel_left, ih]

theorem slice_append {u : Text} : slice (s ++ (u ++ t)) (size s) (size (s ++ u)) = u := by
  rw [slice, dropSize_size_append, size_append, Nat.add_sub_cancel_left, takeSize_size_append]

theorem eq_of_append_eq_of_size_eq {s' t' : Text} (h : s ++ t = s' ++ t')
    (hs : size s = size s') : s = s' := by
  rw [← takeSize_size_append (s := s) (t := t), h, hs, takeSize_size_append]

end Text

theorem Document.lineAt_append {d : Document} {s t : Text} (h : d.text = s ++ t) :
    d.lineAt (Text.size s) = Text.breaks s + 1 := by
  rw [lineAt, h, Text.utf8_append, List.take_left' Text.length_utf8, Text.count_newline_utf8]

end SourceMarkers
