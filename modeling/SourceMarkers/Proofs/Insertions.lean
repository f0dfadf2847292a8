import SourceMarkers.Proofs.Margins

/-! # Insertions of the annotated report

The annotated report is made of pieces, which are the lines of the source and
the annotations that are inserted below them. Each annotation is inserted once.
Without what is inserted, the report is the source, whose last line has been
ended if it was not.
-/

namespace SourceMarkers

namespace Text

variable {t : Text} {ts : List Text}

theorem getLast?_intercalate_concat (h : t.getLast? ≠ some '\n') :
    (['\n'].intercalate (ts ++ [t])).getLast? = some '\n' ↔ t = [] ∧ ts ≠ [] := by
  rw [intercalate_concat, ← ofClosed]
  by_cases ht : t = []
  · rw [ht, List.append_nil]
    by_cases hs : ts = []
    · simp [hs]
    · simp [hs, getLast?_ofClosed]
  · rw [List.getLast?_append_of_ne_nil _ ht]
    simp [h, ht]

end Text

theorem Marker.getLast?_signature (m : Marker) : m.signature.getLast? = some ')' := by
  have hs : [')'] <:+ m.signature := by
    have ha : [')'] <:+ m.arguments := List.suffix_append ('(' :: m.params) [')']
    unfold signature
    split <;> exact ha.trans (List.suffix_append _ _)
  obtain ⟨t, ht⟩ := hs
  rw [← ht, List.getLast?_concat]

namespace Document

variable {d : Document} {l : Text} {ls : List Text}

theorem exists_lines_eq (d : Document) : ∃ ls l, d.lines = ls ++ [l] := by
  obtain ⟨ls, l, hl⟩ := (List.eq_nil_or_concat d.lines).resolve_left (List.splitOn_ne_nil _ _)
  exact ⟨ls, l, by rw [hl, List.concat_eq_append]⟩

theorem newline_not_mem_of_mem_lines (h : l ∈ d.lines) : '\n' ∉ l :=
  Text.newline_not_mem_of_mem_splitOn h

theorem getLast?_text_iff (h : d.lines = ls ++ [l]) :
    d.text.getLast? = some '\n' ↔ l = [] ∧ ls ≠ [] := by
  have hl : '\n' ∉ l := newline_not_mem_of_mem_lines (h ▸ List.mem_concat_self)
  rw [← d.intercalate_lines, h]
  exact Text.getLast?_intercalate_concat fun he => hl (List.mem_of_getLast? he)

theorem line?_last (h : d.lines = ls ++ [l]) : d.line? (ls.length + 1) = some l := by
  rw [line?, h, List.getElem?_concat_length]

end Document

namespace Report

open Text Document

inductive Piece where
  /-- A line of the source. -/
  | line (l : Text)
  /-- An annotation that is inserted below a line. -/
  | inserted (l : Text) (a : Annotation)

namespace Piece

/-- A piece without the line break at its end. An annotation ends in a carriage return if the line
does. -/
def content : Piece → Text
  | line l => l
  | inserted l a => a.indent ++ a.text ++ if l.getLast? = some '\r' then ['\r'] else []

def text (p : Piece) : Text := p.content ++ ['\n']

def isLine : Piece → Bool
  | line _ => true
  | inserted .. => false

def annotation? : Piece → Option Annotation
  | line _ => none
  | inserted _ a => some a

end Piece

/-- A line and the annotations that are inserted below it. -/
def linePieces (as : List Annotation) (l : Text) (n : Nat) : List Piece :=
  .line l :: (as.filter fun a => a.line = n).map (.inserted l)

def pieces (d : Document) (as : List Annotation) : List Piece :=
  (d.lines.zipIdx 1).flatMap fun x => linePieces as x.1 x.2

variable {d : Document} {ms : List Marker} {as : List Annotation} {l : Text} {ls : List Text}
  {n : Nat} {a : Annotation} {p : Piece} {ps : List Piece}

theorem annotated_eq :
    annotated d as = closeLine (['\n'].intercalate ((pieces d as).map Piece.content)) := by
  unfold annotated pieces
  rw [List.map_flatMap]
  congr 3
  funext ⟨l, n⟩
  rw [linePieces, List.map_cons, List.map_map]
  rfl

theorem flatMap_text_eq : ps.flatMap Piece.text = ofClosed (ps.map Piece.content) := by
  rw [ofClosed, List.flatMap_map]
  rfl

theorem getLast?_content_inserted {m : Marker} {a : Annotation} (h : a.text = m.signature) :
    (Piece.inserted l a).content.getLast? = some ')' ∨
      (Piece.inserted l a).content.getLast? = some '\r' := by
  rw [Piece.content, h]
  split
  · exact .inr List.getLast?_concat
  · left
    rw [List.append_nil, List.getLast?_append, m.getLast?_signature, Option.some_or]

theorem getLast?_content_of_mem (h : p ∈ linePieces (d.annotations ms) l n) (hl : '\n' ∉ l)
    (hn : l ≠ []) : ∃ c, p.content.getLast? = some c ∧ c ≠ '\n' := by
  rcases List.mem_cons.mp h with rfl | h
  · refine ⟨l.getLast hn, List.getLast?_eq_some_getLast hn, ?_⟩
    intro he
    exact hl (he ▸ List.getLast_mem hn)
  · obtain ⟨a, ha, rfl⟩ := List.mem_map.mp h
    obtain ⟨q, hq, ha⟩ := List.mem_filterMap.mp (List.mem_of_mem_filter ha)
    obtain ⟨m, -, rfl⟩ := List.mem_map.mp hq
    rcases getLast?_content_inserted (l := l) (Document.annotatedBy_of_shown? ha).2.1 with h | h
    · exact ⟨_, h, by decide⟩
    · exact ⟨_, h, by decide⟩

theorem linePieces_nil (h : d.line? n = some []) :
    linePieces (d.annotations ms) [] n = [.line []] := by
  have hf : (d.annotations ms).filter (fun a => a.line = n) = [] := by
    rw [List.filter_eq_nil_iff]
    intro a ha hn
    obtain ⟨line, hl, hne⟩ := Document.exists_line_of_mem_annotations ha
    rw [of_decide_eq_true hn, h] at hl
    exact hne (Option.some.inj hl).symm
  rw [linePieces, hf, List.map_nil]

theorem pieces_eq_append (h : d.lines = ls ++ [l]) :
    pieces d as = (ls.zipIdx 1).flatMap (fun x => linePieces as x.1 x.2) ++
      linePieces as l (ls.length + 1) := by
  rw [pieces, h, List.zipIdx_append, List.flatMap_append, Nat.add_comm]
  simp

theorem pieces_ne_nil : pieces d as ≠ [] := by
  obtain ⟨ls, l, hl⟩ := exists_lines_eq d
  rw [pieces_eq_append hl]
  exact List.append_ne_nil_of_right_ne_nil _ (List.cons_ne_nil _ _)

/-- The last piece of a source whose last line is ended is the empty line behind it, of which the
report shows nothing. -/
theorem annotated_of_ended (ms : List Marker) (h : d.text.getLast? = some '\n') :
    ∃ ps, pieces d (d.annotations ms) = ps ++ [.line []] ∧
      annotated d (d.annotations ms) = ps.flatMap Piece.text := by
  obtain ⟨ls, l, hl⟩ := exists_lines_eq d
  obtain ⟨rfl, hs⟩ := (getLast?_text_iff hl).mp h
  have hp : pieces d (d.annotations ms) = _ := pieces_eq_append hl
  rw [linePieces_nil (line?_last hl)] at hp
  refine ⟨_, hp, ?_⟩
  rw [annotated_eq, hp, List.map_append, List.map_singleton, Piece.content, intercalate_concat_nil,
    ← flatMap_text_eq, closeLine, if_pos]
  rw [flatMap_text_eq]
  refine getLast?_ofClosed ?_
  obtain ⟨l, ls, rfl⟩ := List.exists_cons_of_ne_nil hs
  exact List.cons_ne_nil _ _

theorem getLast?_intercalate_pieces (h : d.text.getLast? ≠ some '\n') :
    (['\n'].intercalate ((pieces d (d.annotations ms)).map Piece.content)).getLast? ≠
      some '\n' := by
  obtain ⟨ls, l, hl⟩ := exists_lines_eq d
  rw [Ne, getLast?_text_iff hl] at h
  rw [pieces_eq_append hl]
  by_cases hn : l = []
  · subst hn
    obtain rfl : ls = [] := by simpa using h
    rw [linePieces_nil (line?_last hl)]
    simp [Piece.content]
  · have hm : '\n' ∉ l := newline_not_mem_of_mem_lines (hl ▸ List.mem_concat_self)
    obtain ⟨ps, p, hp⟩ := (List.eq_nil_or_concat
      (linePieces (d.annotations ms) l (ls.length + 1))).resolve_left (List.cons_ne_nil _ _)
    rw [List.concat_eq_append] at hp
    obtain ⟨c, hc, hne⟩ := getLast?_content_of_mem (hp ▸ List.mem_concat_self) hm hn
    rw [hp, ← List.append_assoc, List.map_append, List.map_singleton, intercalate_concat,
      List.getLast?_append, hc, Option.some_or]
    exact fun he => hne (Option.some.inj he)

theorem annotated_of_not_ended (h : d.text.getLast? ≠ some '\n') :
    annotated d (d.annotations ms) = (pieces d (d.annotations ms)).flatMap Piece.text := by
  have hp : (pieces d (d.annotations ms)).map Piece.content ≠ [] := by
    simpa using pieces_ne_nil
  rw [annotated_eq, closeLine, if_neg (getLast?_intercalate_pieces h),
    intercalate_append_singleton hp, ← ofClosed, flatMap_text_eq]

theorem filterMap_annotation?_pieces :
    (pieces d as).filterMap Piece.annotation? =
      (List.range' 1 d.lines.length).flatMap fun n => as.filter fun a => a.line = n := by
  have hl : ∀ l n, (linePieces as l n).filterMap Piece.annotation? =
      as.filter fun a => a.line = n := by
    intro l n
    rw [linePieces, List.filterMap_cons, List.filterMap_map]
    exact List.filterMap_some
  rw [pieces, List.filterMap_flatMap, ← List.zipIdx_map_snd 1 d.lines, List.flatMap_map]
  simp only [hl]

/-- Annotations by their lines are all annotations. -/
theorem perm_flatMap_filter {ns : List Nat} (hn : ns.Nodup) (h : ∀ a ∈ as, a.line ∈ ns) :
    (ns.flatMap fun n => as.filter fun a => a.line = n).Perm as := by
  induction ns generalizing as with
  | nil =>
    rw [List.eq_nil_iff_forall_not_mem.mpr fun a ha => List.not_mem_nil (h a ha)]
    exact List.Perm.nil
  | cons n ns ih =>
    obtain ⟨hm, hn⟩ := List.nodup_cons.mp hn
    have hr : (ns.flatMap fun m => as.filter fun a => a.line = m) =
        ns.flatMap fun m => (as.filter fun a => !(a.line = n)).filter fun a => a.line = m := by
      refine List.flatMap_congr fun m hm' => ?_
      rw [List.filter_filter]
      refine List.filter_congr fun a _ => ?_
      by_cases ha : a.line = m
      · have hne : m ≠ n := fun he => hm (he ▸ hm')
        simp [ha, hne]
      · simp [ha]
    rw [List.flatMap_cons, hr]
    refine List.Perm.trans (List.Perm.append_left _ (ih hn ?_)) (List.filter_append_perm _ as)
    intro a ha
    obtain ⟨ha, hne⟩ := List.mem_filter.mp ha
    exact (List.mem_cons.mp (h a ha)).resolve_left (by simpa using hne)

theorem filter_isLine_pieces : (pieces d as).filter Piece.isLine = d.lines.map Piece.line := by
  have hl : ∀ l n, (linePieces as l n).filter Piece.isLine = [.line l] := by
    intro l n
    have hi : ((as.filter fun a => a.line = n).map (.inserted l)).filter Piece.isLine = [] := by
      rw [List.filter_eq_nil_iff]
      intro p hp
      obtain ⟨a, -, rfl⟩ := List.mem_map.mp hp
      exact Bool.false_ne_true
    rw [linePieces, List.filter_cons_of_pos rfl, hi]
  rw [pieces, List.filter_flatMap]
  simp only [hl]
  calc
    (d.lines.zipIdx 1).flatMap (fun x => [Piece.line x.1]) =
        (d.lines.zipIdx 1).map (Piece.line ∘ Prod.fst) := List.map_eq_flatMap.symm
    _ = ((d.lines.zipIdx 1).map Prod.fst).map Piece.line := List.map_map.symm
    _ = d.lines.map Piece.line := by rw [List.zipIdx_map_fst]

theorem line_mem_range' (h : a ∈ d.annotations ms) : a.line ∈ List.range' 1 d.lines.length := by
  obtain ⟨line, hl, -⟩ := Document.exists_line_of_mem_annotations h
  rw [List.mem_range'_1]
  cases hn : a.line with
  | zero =>
    rw [hn] at hl
    cases hl
  | succ n =>
    rw [hn, Document.line?] at hl
    obtain ⟨hlt, -⟩ := List.getElem?_eq_some_iff.mp hl
    omega

end Report

open Report in
/-- The annotated report consists of the lines of the source and the annotations below them. Each
annotation is inserted once, and what is left without them is the source with its last line
ended. -/
theorem Document.annotations_inserted (d : Document) (ms : List Marker) (source : Text) :
    let ps := pieces d (d.annotations ms)
    let whole := ps.flatMap Piece.text
    let qs := if d.text.getLast? = some '\n' then ps.dropLast else ps
    let report := Format.annotated.report source d ms
    whole.getLast? = some '\n' ∧
      report = (if d.text.getLast? = some '\n' then whole.dropLast else whole) ∧
      report = qs.flatMap Piece.text ∧
      (qs.filterMap Piece.annotation?).Perm (d.annotations ms) ∧
      (qs.filter Piece.isLine).flatMap Piece.text =
        if d.text.getLast? = some '\n' then d.text else d.text ++ ['\n'] := by
  intro ps whole qs report
  have ha : (ps.filterMap Piece.annotation?).Perm (d.annotations ms) := by
    rw [filterMap_annotation?_pieces]
    exact perm_flatMap_filter List.nodup_range' fun a => line_mem_range'
  have hs : (ps.filter Piece.isLine).flatMap Piece.text = d.text ++ ['\n'] := by
    rw [filter_isLine_pieces, List.flatMap_map]
    exact Text.ofClosed_splitOn
  refine ⟨?_, ?_⟩
  · have hw : whole = Text.ofClosed (ps.map Piece.content) := flatMap_text_eq
    rw [hw]
    exact Text.getLast?_ofClosed (by simpa using pieces_ne_nil)
  by_cases h : d.text.getLast? = some '\n'
  · obtain ⟨rest, hp, hr⟩ := annotated_of_ended ms h
    have hps : ps = rest ++ [.line []] := hp
    have hq : qs = rest := (if_pos h).trans (by rw [hps, List.dropLast_concat])
    have hw : whole = rest.flatMap Piece.text ++ ['\n'] := by
      change ps.flatMap Piece.text = _
      rw [hps, List.flatMap_append]
      rfl
    rw [hps, List.filterMap_append] at ha
    rw [hps, List.filter_append, List.flatMap_append] at hs
    rw [hq, hw, if_pos h, if_pos h, List.dropLast_concat]
    refine ⟨hr, hr, ?_, ?_⟩
    · have he : [Piece.line []].filterMap Piece.annotation? = [] := rfl
      rwa [he, List.append_nil] at ha
    · exact List.append_cancel_right hs
  · have hq : qs = ps := if_neg h
    have hr : report = whole := annotated_of_not_ended h
    rw [hq, if_neg h, if_neg h]
    exact ⟨hr, hr, ha, hs⟩

example :
    let d : Document := ⟨"MTD(A, a /1/)\r".toList⟩
    Format.annotated.report [] d d.markers = "MTD(A, a /1/)\r\nA.a(1)\r\n".toList := by
  decide +kernel

end SourceMarkers
