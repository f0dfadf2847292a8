import SourceMarkers.Proofs.LineEndings
import SourceMarkers.Proofs.Spans
import SourceMarkers.Report

/-! # Line endings of reports

A text that ends in a line break is a sequence of closed lines. The annotated
report of such a source is one as well, and it has a carriage return before each
line feed if the source does.
-/

namespace SourceMarkers

namespace Text

def ofClosed (ls : List Text) : Text := ls.flatMap (· ++ ['\n'])

variable {l t w : Text} {ls : List Text} {c : Char}

@[simp] theorem ofClosed_nil : ofClosed [] = [] := rfl

@[simp] theorem ofClosed_cons : ofClosed (l :: ls) = l ++ ['\n'] ++ ofClosed ls := rfl

theorem intercalate_concat_nil : ['\n'].intercalate (ls ++ [[]]) = ofClosed ls := by
  rw [intercalate_concat, List.append_nil, ofClosed]

theorem getLast?_ofClosed (h : ls ≠ []) : (ofClosed ls).getLast? = some '\n' := by
  obtain ⟨ls, l, rfl⟩ := (List.eq_nil_or_concat ls).resolve_left h
  simp [ofClosed]

theorem ofClosed_splitOn : ofClosed (t.splitOn '\n') = t ++ ['\n'] := by
  have hs : (t ++ ['\n']).splitOn '\n' = t.splitOn '\n' ++ [[]] :=
    List.splitOn_append_cons_self t []
  rw [← intercalate_concat_nil, ← hs, List.intercalate_splitOn]

theorem splitOn_ofClosed (h : ∀ l ∈ ls, '\n' ∉ l) : (ofClosed ls).splitOn '\n' = ls ++ [[]] := by
  rw [← intercalate_concat_nil]
  refine List.splitOn_intercalate '\n' (fun l hl => ?_) (by simp)
  rcases List.mem_append.mp hl with hl | hl
  · exact h l hl
  · rw [List.mem_singleton.mp hl]
    exact List.not_mem_nil

theorem newline_not_mem_of_mem_splitOn (h : l ∈ t.splitOn '\n') : '\n' ∉ l := by
  induction t generalizing l with
  | nil =>
    rw [List.splitOn_nil, List.mem_singleton] at h
    rw [h]
    exact List.not_mem_nil
  | cons c t ih =>
    obtain ⟨x, xs, hx⟩ := List.exists_cons_of_ne_nil (List.splitOn_ne_nil '\n' t)
    rw [List.splitOn_cons_eq_if_modifyHead, hx] at h
    rw [hx] at ih
    split at h
    · rcases List.mem_cons.mp h with rfl | h
      · exact List.not_mem_nil
      · exact ih h
    · next hc =>
      rcases List.mem_cons.mp h with rfl | h
      · have hn : '\n' ≠ c := fun he => hc (beq_iff_eq.mpr he.symm)
        exact List.not_mem_cons_of_ne_of_not_mem hn (ih List.mem_cons_self)
      · exact ih (List.mem_cons_of_mem x h)

theorem exists_eq_ofClosed (h : t.getLast? = some '\n') :
    ∃ ls, ls ≠ [] ∧ (∀ l ∈ ls, '\n' ∉ l) ∧ t = ofClosed ls := by
  obtain ⟨t, rfl⟩ := List.getLast?_eq_some_iff.mp h
  exact ⟨t.splitOn '\n', List.splitOn_ne_nil _ _, fun l hl => newline_not_mem_of_mem_splitOn hl,
    ofClosed_splitOn.symm⟩

theorem crlf_ofClosed : crlf (ofClosed ls) = ofClosed (ls.map (crlf · ++ ['\r'])) := by
  induction ls with
  | nil => rfl
  | cons l ls ih =>
    rw [ofClosed_cons, crlf_append, crlf_append, ih, List.map_cons, ofClosed_cons]
    simp

theorem before?_concat (h : c ∉ w) : before? w (t ++ [c]) = before? w t := by
  have hp : ∀ t : Text, w.isPrefixOf (t ++ [c]) = w.isPrefixOf t := by
    intro t
    rw [Bool.eq_iff_iff, List.isPrefixOf_iff_prefix, List.isPrefixOf_iff_prefix]
    exact ⟨prefix_of_prefix_append_cons h, fun hw => hw.trans (List.prefix_append t [c])⟩
  induction t with
  | nil =>
    have hc : before? w [c] = if w.isPrefixOf ([] ++ [c]) then some [] else
        (before? w []).map (c :: ·) := rfl
    rw [List.nil_append, hc, hp]
    cases w <;> rfl
  | cons d t ih =>
    rw [List.cons_append, before?, before?, ← List.cons_append, hp, ih]

theorem newline_not_mem_indent : '\n' ∉ Placement.indent t := by
  intro hm
  obtain ⟨c, -, hc⟩ := List.mem_map.mp hm
  split at hc <;> exact absurd hc (by decide)

end Text

namespace Annotation

def crlf (a : Annotation) : Annotation :=
  { a with
    indent := Text.crlf a.indent
    text := Text.crlf a.text }

end Annotation

theorem Marker.signature_crlf (m : Marker) : m.crlf.signature = Text.crlf m.signature := by
  obtain ⟨k, owner, receiver, name, params, first, last⟩ := m
  cases k <;> cases receiver <;> simp [signature, crlf, arguments, Text.crlf_cons_of_ne]

namespace Document

variable {d : Document} {m : Marker} {ms : List Marker} {a : Annotation} {ls : List Text}

theorem shown?_ofMarker :
    (Placement.ofMarker d m).shown? = ((d.line? m.lastLine).bind (Text.before? m.kind.opener)).map
      fun before => ⟨m.lastLine, Placement.indent before, m.signature⟩ := by
  unfold Placement.ofMarker
  cases d.line? m.lastLine with
  | none => rfl
  | some line =>
    dsimp only [Option.bind_some]
    cases Text.before? m.kind.opener line <;> rfl

theorem exists_line_of_mem_annotations (h : a ∈ d.annotations ms) :
    ∃ line, d.line? a.line = some line ∧ line ≠ [] := by
  obtain ⟨p, hp, ha⟩ := List.mem_filterMap.mp h
  obtain ⟨m, -, rfl⟩ := List.mem_map.mp hp
  rw [shown?_ofMarker, Option.map_eq_some_iff] at ha
  obtain ⟨before, hb, rfl⟩ := ha
  obtain ⟨line, hl, hb⟩ := Option.bind_eq_some_iff.mp hb
  refine ⟨line, hl, ?_⟩
  rintro rfl
  cases hk : m.kind <;> rw [hk] at hb <;> cases hb

theorem lines_ofClosed (h : ∀ l ∈ ls, '\n' ∉ l) : (mk (Text.ofClosed ls)).lines = ls ++ [[]] :=
  Text.splitOn_ofClosed h

theorem lines_crlf_ofClosed (h : ∀ l ∈ ls, '\n' ∉ l) :
    (mk (Text.ofClosed ls)).crlf.lines = ls.map (· ++ ['\r']) ++ [[]] := by
  have hm : ls.map (Text.crlf · ++ ['\r']) = ls.map (· ++ ['\r']) :=
    List.map_congr_left fun l hl => by rw [Text.crlf_of_not_mem (h l hl)]
  rw [crlf, Text.crlf_ofClosed, hm, lines_ofClosed]
  intro l hl
  obtain ⟨x, hx, rfl⟩ := List.mem_map.mp hl
  simp [h x hx]

theorem map_before?_lines_crlf (h : ∀ l ∈ ls, '\n' ∉ l) (k : Kind) :
    (mk (Text.ofClosed ls)).crlf.lines.map (Text.before? k.opener) =
      (mk (Text.ofClosed ls)).lines.map (Text.before? k.opener) := by
  rw [lines_crlf_ofClosed h, lines_ofClosed h, List.map_append, List.map_append, List.map_map]
  congr 1
  refine List.map_congr_left fun l _ => ?_
  exact Text.before?_concat k.carriageReturn_not_mem_opener

theorem bind_line?_eq {d' : Document} {f : Text → Option Text} (h : d'.lines.map f = d.lines.map f)
    (n : Nat) : (d'.line? n).bind f = (d.line? n).bind f := by
  cases n with
  | zero => rfl
  | succ n =>
    have hb : ∀ o : Option Text, o.bind f = (o.map f).bind id := fun o => by cases o <;> rfl
    rw [hb, hb, line?, line?, ← List.getElem?_map, ← List.getElem?_map, h]

theorem annotations_crlf (h : ∀ l ∈ ls, '\n' ∉ l) :
    (mk (Text.ofClosed ls)).crlf.annotations (ms.map Marker.crlf) =
      ((mk (Text.ofClosed ls)).annotations ms).map Annotation.crlf := by
  unfold annotations
  rw [List.map_map, List.filterMap_map, List.filterMap_map, List.map_filterMap]
  congr 1
  funext m
  rw [Function.comp_apply, Function.comp_apply, Function.comp_apply, shown?_ofMarker,
    shown?_ofMarker, bind_line?_eq (map_before?_lines_crlf h _), Option.map_map]
  congr 1
  funext before
  simp only [Function.comp_apply, Annotation.crlf, Marker.signature_crlf,
    Text.crlf_of_not_mem Text.newline_not_mem_indent]
  rfl

end Document

namespace Report

open Text

variable {as : List Annotation} {d : Document} {ls : List Text} {l : Text} {n : Nat}

theorem carriageReturn_of_not_mem (h : '\r' ∉ l) : carriageReturn l = [] := by
  unfold carriageReturn
  rw [if_neg]
  exact fun hl => h (List.mem_of_getLast? hl)

theorem withAnnotations_crlf (hn : '\n' ∉ l) (hr : '\r' ∉ l) :
    withAnnotations (as.map Annotation.crlf) (l ++ ['\r']) n =
      (withAnnotations as l n).map (crlf · ++ ['\r']) := by
  have hc : carriageReturn (l ++ ['\r']) = ['\r'] := by simp [carriageReturn]
  unfold withAnnotations
  rw [hc, carriageReturn_of_not_mem hr, List.filter_map, List.map_map, List.map_cons,
    crlf_of_not_mem hn, List.map_map]
  congr 1
  refine List.map_congr_left fun a _ => ?_
  rw [Function.comp_apply, Function.comp_apply, List.append_nil, crlf_append]
  rfl

/-- The last line, which is empty, closes the line before it. -/
theorem annotated_eq_ofClosed (hl : d.lines = ls ++ [[]]) (hs : ls ≠ [])
    (ha : ∀ a ∈ as, a.line ≠ ls.length + 1) :
    annotated d as = ofClosed ((ls.zipIdx 1).flatMap fun x => withAnnotations as x.1 x.2) := by
  have hf : as.filter (fun a => a.line = 1 + ls.length) = [] := by
    rw [Nat.add_comm]
    simpa using ha
  have he : withAnnotations as [] (1 + ls.length) = [[]] := by rw [withAnnotations, hf]; rfl
  have hb : (ls.zipIdx 1).flatMap (fun x => withAnnotations as x.1 x.2) ≠ [] := by
    obtain ⟨l, rest, rfl⟩ := List.exists_cons_of_ne_nil hs
    exact List.cons_ne_nil _ _
  have hz : (ls ++ [[]]).zipIdx 1 = ls.zipIdx 1 ++ [([], 1 + ls.length)] := List.zipIdx_append
  unfold annotated
  rw [hl, hz, List.flatMap_append, List.flatMap_singleton]
  dsimp only
  rw [he, intercalate_concat_nil, closeLine, if_pos (getLast?_ofClosed hb)]

end Report

namespace Document

variable {a : Annotation} {ls : List Text} {ms : List Marker}

theorem line_ne_of_mem_annotations (h : ∀ l ∈ ls, '\n' ∉ l)
    (ha : a ∈ (mk (Text.ofClosed ls)).annotations ms) : a.line ≠ ls.length + 1 := by
  obtain ⟨line, hl, hne⟩ := exists_line_of_mem_annotations ha
  intro he
  rw [he, line?, lines_ofClosed h, List.getElem?_concat_length] at hl
  exact hne (Option.some.inj hl).symm

theorem annotated_crlf (hs : ls ≠ []) (hn : ∀ l ∈ ls, '\n' ∉ l) (hr : ∀ l ∈ ls, '\r' ∉ l) :
    Report.annotated (mk (Text.ofClosed ls)).crlf
        ((mk (Text.ofClosed ls)).crlf.annotations (ms.map Marker.crlf)) =
      Text.crlf (Report.annotated (mk (Text.ofClosed ls))
        ((mk (Text.ofClosed ls)).annotations ms)) := by
  have hl : ∀ a ∈ (mk (Text.ofClosed ls)).annotations ms, a.line ≠ ls.length + 1 :=
    fun a => line_ne_of_mem_annotations hn
  have hlc : ∀ a ∈ ((mk (Text.ofClosed ls)).annotations ms).map Annotation.crlf,
      a.line ≠ (ls.map (· ++ ['\r'])).length + 1 := by
    intro a ha
    obtain ⟨b, hb, rfl⟩ := List.mem_map.mp ha
    rw [List.length_map]
    exact hl b hb
  rw [annotations_crlf hn, Report.annotated_eq_ofClosed (lines_ofClosed hn) hs hl,
    Report.annotated_eq_ofClosed (lines_crlf_ofClosed hn) (by simpa using hs) hlc,
    Text.crlf_ofClosed, List.zipIdx_map, List.flatMap_map, List.map_flatMap]
  congr 1
  refine List.flatMap_congr fun x hx => ?_
  have hx := List.fst_mem_of_mem_zipIdx hx
  exact Report.withAnnotations_crlf (hn x.1 hx) (hr x.1 hx)

/-- The markers of a source do not depend on its line endings, but for the line breaks in the
literals of their fields. If the last line is ended as well, every line of the annotated report ends
as those of the source do. -/
theorem line_endings_kept (d : Document) (h : '\r' ∉ d.text) :
    d.crlf.markers = d.markers.map Marker.crlf ∧
      (∀ m ∈ d.markers, ∀ t ∈ m.fields, ∀ u v, t = u ++ '\n' :: v →
        ¬ (Reading.start.run (Glyph.ofText u)).outside) ∧
      (d.text.getLast? = some '\n' → ∀ source,
        Format.annotated.report source d.crlf d.crlf.markers =
            Text.crlf (Format.annotated.report source d d.markers) ∧
          ∀ u v, Format.annotated.report source d.crlf d.crlf.markers = u ++ '\n' :: v →
            ['\r'] <:+ u) := by
  refine ⟨markers_crlf h, ?_, ?_⟩
  · intro m hm t ht u v htu
    obtain ⟨x, hx, rfl⟩ := List.mem_map.mp (map_snd_located d ▸ hm)
    exact ((standsAt_of_mem_located hx).neat t ht).breaks_inside u '\n' v htu (by decide)
  · intro hlast source
    have hreport : Format.annotated.report source d.crlf d.crlf.markers =
        Text.crlf (Format.annotated.report source d d.markers) := by
      obtain ⟨t⟩ := d
      obtain ⟨ls, hs, hn, rfl⟩ := Text.exists_eq_ofClosed hlast
      have hr : ∀ l ∈ ls, '\r' ∉ l := by
        intro l hl hm
        exact h (List.mem_flatMap.mpr ⟨l, hl, List.mem_append_left _ hm⟩)
      rw [markers_crlf h]
      exact annotated_crlf hs hn hr
    refine ⟨hreport, fun u v hu => ?_⟩
    exact Text.crlf_suffix_of_eq (hreport ▸ hu)

theorem line_endings_kept_literal :
    let d := mk "CALL(K, o,\\\n m /\"a\nb\", c /\n); CALL(K, o, n//)\n".toList
    '\r' ∉ d.text ∧
      d.crlf.markers = [⟨.objectCall, ['K'], some ['o'], ['m'], "\"a\r\nb\", c /".toList, 1, 4⟩,
        ⟨.objectCall, ['K'], some ['o'], ['n'], [], 4, 4⟩] ∧
      Format.annotated.report [] d.crlf d.crlf.markers =
        ("CALL(K, o,\\\r\n m /\"a\r\nb\", c /\r\n); CALL(K, o, n//)\r\n".toList ++
          "   (K&)o.m(\"a\r\nb\", c /)\r\n   (K&)o.n()\r\n".toList) := by
  intro d
  have hr : '\r' ∉ d.text := by decide
  obtain ⟨hm, -, hreport⟩ := line_endings_kept d hr
  refine ⟨hr, hm.trans (by decide +kernel), ?_⟩
  exact (hreport (by decide) []).1.trans (by decide +kernel)

end Document

end SourceMarkers
