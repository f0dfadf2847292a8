import Mathlib.Algebra.GroupWithZero.Nat
import SourceMarkers.Proofs.ReportEndings

/-! # Lines and byte offsets

The lines of a document, ended by line breaks, fill its text. So a byte offset
lies on one line only, at the end of the line if a line break stands there, and
the line breaks before the offset tell which line it is.
-/

namespace SourceMarkers

namespace Text

variable {l t : Text} {ls : List Text} {o k c : Nat}

theorem newline_not_mem_utf8 (h : '\n' ∉ t) : 0x0a ∉ utf8 t := by
  rw [← List.count_eq_zero, count_newline_utf8]
  exact List.count_eq_zero.mpr h

theorem size_ofClosed : size (ofClosed ls) = (ls.map fun l => size l + 1).sum := by
  induction ls with
  | nil => rfl
  | cons l ls ih =>
    have hn : size ['\n'] = 1 := rfl
    rw [ofClosed_cons, size_append, size_append, ih, hn, List.map_cons, List.sum_cons]

theorem utf8_ofClosed_cons :
    utf8 (ofClosed (l :: ls)) = utf8 l ++ 0x0a :: utf8 (ofClosed ls) := by
  rw [ofClosed_cons, utf8_append, utf8_append, List.append_assoc]
  rfl

theorem size_ofClosed_take_cons :
    size (ofClosed ((l :: ls).take (k + 1))) = size l + 1 + size (ofClosed (ls.take k)) := by
  rw [List.take_succ_cons, ofClosed_cons, size_append, size_append]
  rfl

/-- So many line breaks stand before an offset as there are lines before the one it lies on. -/
theorem count_take_ofClosed_iff (hn : ∀ l ∈ ls, '\n' ∉ l) (ho : o < size (ofClosed ls)) :
    ((utf8 (ofClosed ls)).take o).count 0x0a = k ↔
      ∃ l, ls[k]? = some l ∧ size (ofClosed (ls.take k)) ≤ o ∧
        o ≤ size (ofClosed (ls.take k)) + size l := by
  induction ls generalizing o k with
  | nil => exact absurd ho (Nat.not_lt_zero o)
  | cons l ls ih =>
    obtain ⟨hl, hls⟩ := List.forall_mem_cons.mp hn
    have hb : (utf8 l).length = size l := length_utf8
    rw [utf8_ofClosed_cons]
    rcases Nat.lt_or_ge (size l) o with hlt | hle
    · -- Behind the first line its line break counts, and the offset is moved to the other lines.
      obtain ⟨j, rfl⟩ := Nat.exists_eq_add_of_le (Nat.succ_le_of_lt hlt)
      have hj : j < size (ofClosed ls) := by
        rw [ofClosed_cons, size_append, size_append] at ho
        exact Nat.lt_of_add_lt_add_left ho
      have hc : ((utf8 l ++ 0x0a :: utf8 (ofClosed ls)).take (size l + 1 + j)).count 0x0a =
          ((utf8 (ofClosed ls)).take j).count 0x0a + 1 := by
        rw [Nat.add_assoc, Nat.add_comm 1 j, ← hb, List.take_length_add_append, List.take_succ_cons,
          List.count_append, List.count_eq_zero.mpr (newline_not_mem_utf8 hl), List.count_cons_self,
          Nat.zero_add]
      rw [hc]
      cases k with
      | zero =>
        refine iff_of_false (Nat.succ_ne_zero _) ?_
        rintro ⟨x, hx, -, hle⟩
        obtain rfl : l = x := Option.some.inj hx
        rw [List.take_zero, ofClosed_nil, size_nil] at hle
        omega
      | succ k =>
        rw [Nat.add_right_cancel_iff, ih hls hj, List.getElem?_cons_succ, size_ofClosed_take_cons]
        refine exists_congr fun x => and_congr_right fun _ => ?_
        omega
    · have hc : ((utf8 l ++ 0x0a :: utf8 (ofClosed ls)).take o).count 0x0a = 0 := by
        rw [List.take_append_of_le_length (hb ▸ hle), List.count_eq_zero]
        exact fun hm => newline_not_mem_utf8 hl (List.mem_of_mem_take hm)
      rw [hc]
      cases k with
      | zero =>
        refine iff_of_true rfl ⟨l, rfl, Nat.zero_le o, ?_⟩
        rwa [List.take_zero, ofClosed_nil, size_nil, Nat.zero_add]
      | succ k =>
        refine iff_of_false (Nat.succ_ne_zero k).symm ?_
        rintro ⟨x, -, hge, -⟩
        rw [size_ofClosed_take_cons] at hge
        omega

theorem getElem?_ofClosed (hl : ls[k]? = some l) (hc : c ≤ size l) :
    (utf8 (ofClosed ls))[size (ofClosed (ls.take k)) + c]? =
      if c < size l then (utf8 l)[c]? else some 0x0a := by
  obtain ⟨hk, rfl⟩ := List.getElem?_eq_some_iff.mp hl
  have hs : ofClosed ls = ofClosed (ls.take k) ++ ofClosed (ls[k] :: ls.drop (k + 1)) := by
    rw [List.getElem_cons_drop, ofClosed, ofClosed, ofClosed, ← List.flatMap_append,
      List.take_append_drop]
  have hb : (utf8 ls[k]).length = size ls[k] := length_utf8
  rw [hs, utf8_append, ← length_utf8, List.getElem?_append_right (Nat.le_add_right _ _),
    Nat.add_sub_cancel_left, utf8_ofClosed_cons]
  split
  · next hlt => exact List.getElem?_append_left (hb ▸ hlt)
  · next hge =>
    obtain rfl : c = size ls[k] := Nat.le_antisymm hc (Nat.not_lt.mp hge)
    rw [List.getElem?_append_right (Nat.le_of_eq hb), hb, Nat.sub_self, List.getElem?_cons_zero]

end Text

namespace Document

open Text

/-- The byte offset at which a line begins, behind the lines before it and their line breaks. -/
def lineStart (d : Document) (n : Nat) : Nat :=
  ((d.lines.take (n - 1)).map fun l => size l + 1).sum

/-- The byte offset lies on the line, so many bytes behind its beginning. -/
structure LiesOn (d : Document) (o n : Nat) (l : Text) (c : Nat) : Prop where
  line : d.line? n = some l
  offset : o = d.lineStart n + c
  le_size : c ≤ size l

variable {d : Document} {l : Text} {ls : List Text} {o n c : Nat}

theorem ofClosed_lines (d : Document) : ofClosed d.lines = d.text ++ ['\n'] := ofClosed_splitOn

theorem lineStart_succ (d : Document) (k : Nat) :
    d.lineStart (k + 1) = size (ofClosed (d.lines.take k)) := size_ofClosed.symm

theorem isSome_line?_iff : (d.line? n).isSome ↔ 1 ≤ n ∧ n ≤ d.lineCount := by
  cases n with
  | zero => simp [line?]
  | succ k =>
    rw [line?, isSome_getElem?, length_lines]
    omega

theorem lineCount_eq (d : Document) : d.lineCount = (utf8 d.text).count 0x0a + 1 := by
  rw [count_newline_utf8]
  rfl

theorem take_utf8_text (d : Document) (o : Nat) :
    (utf8 d.text).take o = (utf8 (ofClosed d.lines)).take (min o (size d.text)) := by
  rw [ofClosed_lines, utf8_append, ← length_utf8,
    List.take_append_of_le_length (Nat.min_le_right _ _)]
  rcases Nat.le_total o (utf8 d.text).length with h | h
  · rw [Nat.min_eq_left h]
  · rw [Nat.min_eq_right h, List.take_length, List.take_of_length_le h]

theorem eq_lineAt_iff : n = d.lineAt o ↔ ∃ l c, d.LiesOn (min o (size d.text)) n l c := by
  have ho : min o (size d.text) < size (ofClosed d.lines) := by
    rw [ofClosed_lines, size_append]
    exact Nat.lt_succ_of_le (Nat.min_le_right _ _)
  have hn : ∀ l ∈ d.lines, '\n' ∉ l := fun l hl => newline_not_mem_of_mem_splitOn hl
  rw [lineAt, take_utf8_text]
  cases n with
  | zero =>
    refine iff_of_false (Nat.succ_ne_zero _).symm ?_
    rintro ⟨l, c, ⟨⟩, -⟩
  | succ k =>
    rw [Nat.add_right_cancel_iff, eq_comm, count_take_ofClosed_iff hn ho, ← lineStart_succ]
    refine exists_congr fun l => ⟨?_, ?_⟩
    · rintro ⟨hl, hle, hc⟩
      obtain ⟨c, hc'⟩ := Nat.exists_eq_add_of_le hle
      exact ⟨c, hl, hc', by omega⟩
    · rintro ⟨c, hl, he, hc⟩
      rw [he]
      exact ⟨hl, Nat.le_add_right _ _, Nat.add_le_add_left hc _⟩

theorem lineAt_mono {o' : Nat} (h : o ≤ o') : d.lineAt o ≤ d.lineAt o' := by
  have hp : (utf8 d.text).take o <+: (utf8 d.text).take o' := List.take_prefix_take_left h
  exact Nat.succ_le_succ (hp.sublist.count_le 0x0a)

theorem LiesOn.getElem?_text (h : d.LiesOn o n l c) (ho : o < size d.text) :
    (utf8 d.text)[o]? = if c < size l then (utf8 l)[c]? else some 0x0a := by
  obtain ⟨hl, rfl, hc⟩ := h
  cases n with
  | zero => cases hl
  | succ k =>
    rw [← getElem?_ofClosed hl hc, ← lineStart_succ, ofClosed_lines, utf8_append,
      List.getElem?_append_left (by rwa [length_utf8])]

theorem lines_ofLines (hs : ls ≠ []) (hn : ∀ l ∈ ls, '\n' ∉ l) : (ofLines ls).lines = ls :=
  List.splitOn_intercalate '\n' hn hs

/-- A document is its lines with line breaks between them. Every byte offset lies on one line, at
one of its bytes or at its end, and the lines that a document is made of are those that it has. -/
theorem views_agree (d : Document) :
    ['\n'].intercalate d.lines = d.text ∧
      d.lines.length = d.lineCount ∧ d.lineCount = (utf8 d.text).count 0x0a + 1 ∧
      (∀ n, (d.line? n).isSome ↔ 1 ≤ n ∧ n ≤ d.lineCount) ∧
      (∀ o n, n = d.lineAt o ↔ ∃ l c, d.LiesOn (min o (size d.text)) n l c) ∧
      (∀ o o', o ≤ o' → d.lineAt o ≤ d.lineAt o') ∧
      (∀ o, (d.line? (d.lineAt o)).isSome) ∧
      (∀ o < size d.text, ∀ n l c, d.LiesOn o n l c →
        (utf8 d.text)[o]? = if c < size l then (utf8 l)[c]? else some 0x0a) ∧
      (∀ ls, ls ≠ [] → (∀ l ∈ ls, '\n' ∉ l) → (ofLines ls).lines = ls) ∧
      (ofLines []).lines = [[]] := by
  refine ⟨d.intercalate_lines, d.length_lines, d.lineCount_eq, fun n => isSome_line?_iff,
    fun o n => eq_lineAt_iff, fun o o' => lineAt_mono, ?_, ?_, fun ls => lines_ofLines, ?_⟩
  · intro o
    obtain ⟨l, c, hl⟩ := (eq_lineAt_iff (d := d) (o := o)).mp rfl
    rw [hl.line]
    rfl
  · intro o ho n l c h
    exact h.getElem?_text ho
  · exact List.splitOn_nil '\n'

/-- An offset inside a character, one at a line break and one past the end. -/
theorem views_agree_offsets :
    let d : Document := ⟨"é\n\nab".toList⟩
    d.lineAt 1 = 1 ∧ d.lineAt 2 = 1 ∧ d.lineAt 3 = 2 ∧ d.lineAt 100 = 3 ∧
      (utf8 d.text)[2]? = some 0x0a ∧ (utf8 d.text)[5]? = some 0x62 ∧
      (ofLines [['é'], [], ['a', 'b']]).lines = [['é'], [], ['a', 'b']] := by
  intro d
  obtain ⟨-, -, -, -, hn, -, -, hb, hl, -⟩ := views_agree d
  refine ⟨?_, ?_, ?_, ?_, ?_, ?_, ?_⟩
  · exact ((hn 1 1).mpr ⟨['é'], 1, rfl, by decide, by decide⟩).symm
  · exact ((hn 2 1).mpr ⟨['é'], 2, rfl, by decide, by decide⟩).symm
  · exact ((hn 3 2).mpr ⟨[], 0, rfl, by decide, by decide⟩).symm
  · exact ((hn 100 3).mpr ⟨['a', 'b'], 2, rfl, by decide, by decide⟩).symm
  · exact hb 2 (by decide) 1 ['é'] 2 ⟨rfl, by decide, by decide⟩
  · exact hb 5 (by decide) 3 ['a', 'b'] 1 ⟨rfl, by decide, by decide⟩
  · exact hl _ (List.cons_ne_nil _ _) (by decide)

end Document

end SourceMarkers
