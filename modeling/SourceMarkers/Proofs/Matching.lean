import SourceMarkers.Proofs.Collapsing
import SourceMarkers.Proofs.Parentheses

/-! # Matching parentheses

Parentheses in the literals of a text do not count. The parenthesis that closes
the one at an offset is the first one up to which the others are matched, as the
literals are read from that offset on. What stands behind it is not looked at.
-/

namespace SourceMarkers

open Nesting Parenthesis

theorem Nesting.walk?_take_of_eq_some {stops : Nesting → Glyph → Bool} {n : Nesting}
    {gs : List Glyph} {k : Nat} (h : walk? stops n gs = some k) :
    walk? stops n (gs.take (k + 1)) = some k := by
  induction gs generalizing n k with
  | nil => cases h
  | cons g gs ih =>
    rw [List.take_succ_cons]
    by_cases hg : stops n g
    · rwa [walk?_cons_of_stops hg] at h ⊢
    · rw [walk?_cons_of_not_stops hg, Option.map_eq_some_iff] at h
      obtain ⟨k, hk, rfl⟩ := h
      rw [walk?_cons_of_not_stops hg, ih hk, Option.map_some]

namespace Passages

open Text

/-- The parentheses in the passages outside literals, each at its place. -/
def active : Passages → List (Option Parenthesis)
  | loose t => (Glyph.ofText t).map Glyph.parenthesis?
  | unclosed s _ b => (Glyph.ofText s).map Glyph.parenthesis? ++ List.replicate (b.length + 1) none
  | closed s _ b rest => (Glyph.ofText s).map Glyph.parenthesis? ++
      (List.replicate (b.length + 2) none ++ rest.active)

variable {p : Passages} {s b u : Text} {q : Char}

theorem active_readingAfter_of_outside (h : (readingAfter u).outside) (hs : Lacks IsQuote u s) :
    (readingAfter u).active (Glyph.ofText s) = (Glyph.ofText s).map Glyph.parenthesis? := by
  induction s generalizing u with
  | nil => rfl
  | cons c s ih =>
    obtain ⟨hc, hs⟩ := lacks_cons_iff.mp hs
    rw [Glyph.ofText_cons, Reading.active, ← readingAfter_concat, ih (outside_concat h hc) hs,
      Reading.active?, if_pos h, List.map_cons]

theorem active_readingAfter_of_inside (h : Inside u q) (hb : Lacks (· = q) u b) :
    (readingAfter u).active (Glyph.ofText b) = List.replicate b.length none := by
  induction b generalizing u with
  | nil => rfl
  | cons c b ih =>
    obtain ⟨hc, hb⟩ := lacks_cons_iff.mp hb
    rw [Glyph.ofText_cons, Reading.active, ← readingAfter_concat, ih (h.concat hc) hb,
      Reading.active?, if_neg h.not_outside]
    rfl

theorem active_quote_cons {r : Reading} {gs : List Glyph} (hq : IsQuote q) :
    r.active (.ofChar q :: gs) = none :: (r.step (.ofChar q)).active gs := by
  obtain ⟨k, hk⟩ := isQuote_iff.mp hq
  have ha : r.active? (.ofChar q) = none := by
    rw [hk, Reading.active?]
    exact ite_self none
  rw [Reading.active, ha]

theorem active_readingAfter_append {t : Text} :
    (readingAfter u).active (Glyph.ofText (s ++ t)) =
      (readingAfter u).active (Glyph.ofText s) ++
        (readingAfter (u ++ s)).active (Glyph.ofText t) := by
  rw [Glyph.ofText_append, Reading.active_append, readingAfter, readingAfter, Glyph.ofText_append,
    Reading.run_append]

theorem ReadAfter.active_source (h : p.ReadAfter u) (ho : (readingAfter u).outside) :
    (readingAfter u).active (Glyph.ofText p.source) = p.active := by
  induction p generalizing u with
  | loose t => exact active_readingAfter_of_outside ho h
  | unclosed s q b =>
    obtain ⟨hq, hb⟩ := h
    have hi := inside_concat_self (outside_append ho hq.lacks) hq.holds hq.evenEnd
    rw [source, active_readingAfter_append, active_readingAfter_of_outside ho hq.lacks,
      Glyph.ofText_cons, active_quote_cons hq.holds, ← readingAfter_concat,
      active_readingAfter_of_inside hi hb]
    rfl
  | closed s q b rest ih =>
    obtain ⟨hq, hb, hr⟩ := h
    have hi := inside_concat_self (outside_append ho hq.lacks) hq.holds hq.evenEnd
    have ho' := (hi.append hb.lacks).outside_concat hb.evenEnd
    rw [source, active_readingAfter_append, active_readingAfter_of_outside ho hq.lacks,
      Glyph.ofText_cons, active_quote_cons hq.holds, ← readingAfter_concat,
      active_readingAfter_append, active_readingAfter_of_inside hi hb.lacks,
      Glyph.ofText_cons, active_quote_cons hq.holds, ← readingAfter_concat, ih hr ho', active,
      List.replicate_succ', List.replicate_succ]
    simp

end Passages

namespace Text

def ofCodes (bytes : List UInt8) : Text := bytes.map Char.ofUInt8

theorem ofBytes_eq_ofText (bytes : List UInt8) :
    Glyph.ofBytes bytes = Glyph.ofText (ofCodes bytes) :=
  List.map_map.symm

variable {t t' : Text} {o c : Nat}

theorem exists_ofBytes_drop_eq (h : (utf8 t)[o]? = some 0x28) :
    ∃ gs, Glyph.ofBytes ((utf8 t).drop o) = .opening :: gs := by
  obtain ⟨hlt, ho⟩ := List.getElem?_eq_some_iff.mp h
  rw [List.drop_eq_getElem_cons hlt, ho, Glyph.ofBytes_cons]
  exact ⟨_, rfl⟩

theorem closingOffset?_congr (h : t.closingOffset? o = some c)
    (ht : ((utf8 t').take (c + 1)).drop o = ((utf8 t).take (c + 1)).drop o) :
    t'.closingOffset? o = some c := by
  obtain ⟨k, hk, rfl⟩ := Option.map_eq_some_iff.mp h
  have hw := Nesting.walk?_take_of_eq_some hk
  have hl : o + k + 1 - o = k + 1 := by omega
  rw [List.drop_take, List.drop_take, hl] at ht
  rw [Glyph.ofBytes, ← List.map_take, ← ht] at hw
  have ha : closing? (Glyph.ofBytes ((utf8 t').drop o)) = some k := by
    rw [← List.take_append_drop (k + 1) ((utf8 t').drop o), Glyph.ofBytes_append]
    exact walk?_append_of_eq_some hw
  rw [closingOffset?, ha, Option.map_some]

/-- The parenthesis at an offset is closed at the first place up to which the parentheses outside
literals are matched, and is not closed if there is no such place. -/
theorem closing_parenthesis_matches (t : Text) (o : Nat) (h : (utf8 t)[o]? = some 0x28) :
    ∃ p : Passages, (∀ p' : Passages, p'.Reads (ofCodes ((utf8 t).drop o)) ↔ p' = p) ∧
      (∀ c, t.closingOffset? o = some c ↔ ∃ k, c = o + k ∧ FirstClosing Matched p.active k) ∧
      (∀ k, FirstClosing Matched p.active k →
        0 < k ∧ ∀ j, FirstClosing Matched p.active j → j = k) ∧
      (t.closingOffset? o = none ↔ ∀ k, ¬ FirstClosing Matched p.active k) ∧
      ∀ c, t.closingOffset? o = some c → ∀ t' : Text,
        ((utf8 t').take (c + 1)).drop o = ((utf8 t).take (c + 1)).drop o →
          t'.closingOffset? o = some c := by
  obtain ⟨gs, hgs⟩ := exists_ofBytes_drop_eq h
  obtain ⟨p, hp⟩ := Passages.exists_reads_iff (ofCodes ((utf8 t).drop o))
  obtain ⟨hs, hr⟩ := (hp p).mpr rfl
  have ha : Reading.start.active (.opening :: gs) = p.active := by
    have ho : (readingAfter []).outside := rfl
    rw [← hgs, ofBytes_eq_ofText, ← hs]
    exact hr.active_source ho
  have hk : ∀ k, closing? (Glyph.ofBytes ((utf8 t).drop o)) = some k ↔
      FirstClosing Matched p.active k := by
    intro k
    rw [hgs, closing?_eq_some_iff, ha]
  refine ⟨p, hp, ?_, ?_, ?_, ?_⟩
  · intro c
    rw [closingOffset?, Option.map_eq_some_iff]
    refine exists_congr fun k => ?_
    rw [hk, and_comm, eq_comm]
  · intro k hc
    refine ⟨Nat.pos_of_ne_zero ?_, fun j hj => hj.unique hc⟩
    rintro rfl
    have hz := hc.closing
    rw [← ha] at hz
    cases hz
  · rw [closingOffset?, Option.map_eq_none_iff, Option.eq_none_iff_forall_ne_some]
    exact forall_congr' fun k => not_congr (hk k)
  · intro c hc t' ht
    exact closingOffset?_congr hc ht

theorem closing_parenthesis_matches_call :
    let t : Text := "é(')', \"(\", (x))!".toList
    (utf8 t)[2]? = some 0x28 ∧ t.closingOffset? 2 = some 16 ∧
      ∃ p : Passages, p.Reads (ofCodes ((utf8 t).drop 2)) ∧ FirstClosing Matched p.active 14 := by
  intro t
  have h : (utf8 t)[2]? = some 0x28 := by decide
  have hc : t.closingOffset? 2 = some 16 := by decide
  obtain ⟨p, hp, hk, -⟩ := closing_parenthesis_matches t 2 h
  obtain ⟨k, hk, hf⟩ := (hk 16).mp hc
  obtain rfl : k = 14 := by omega
  exact ⟨h, hc, p, (hp p).mpr rfl, hf⟩

end Text

end SourceMarkers
