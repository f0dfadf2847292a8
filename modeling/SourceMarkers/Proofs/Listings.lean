import Mathlib.Algebra.GroupWithZero.Nat
import SourceMarkers.Proofs.ReportEndings

/-! # The lines of the list report

The list report has a line for each marker as long as no literal in a field of a
marker holds a line break. Tidy fields keep the line breaks of their literals, so
that the entry of a marker with such a field takes more than one line.
-/

namespace SourceMarkers

namespace Text

/-- A literal in the text holds a line break. -/
def BreaksLiteral (t : Text) : Prop :=
  ∃ u v, t = u ++ '\n' :: v ∧ ¬ (Reading.start.run (Glyph.ofText u)).outside

variable {t : Text} {ls : List Text} {n : Nat}

theorem Neat.breaksLiteral_iff (h : t.Neat) : t.BreaksLiteral ↔ '\n' ∈ t := by
  constructor
  · rintro ⟨u, v, rfl, -⟩
    exact List.mem_append_right u List.mem_cons_self
  · intro hn
    obtain ⟨u, v, rfl⟩ := List.append_of_mem hn
    exact ⟨u, v, rfl, h.breaks_inside u '\n' v rfl (by decide)⟩

theorem breaks_eq_zero_iff : breaks t = 0 ↔ '\n' ∉ t := List.count_eq_zero

theorem newline_not_mem_decimal : '\n' ∉ decimal n :=
  fun h => absurd (isDigit_of_mem_decimal h) (by decide)

theorem breaks_ofClosed : breaks (ofClosed ls) = ls.length + (ls.map breaks).sum := by
  induction ls with
  | nil => rfl
  | cons l ls ih =>
    have hn : breaks ['\n'] = 1 := rfl
    rw [ofClosed_cons, breaks_append, breaks_append, ih, hn, List.length_cons, List.map_cons,
      List.sum_cons]
    omega

theorem breaks_ofClosed_eq_length_iff :
    breaks (ofClosed ls) = ls.length ↔ ∀ l ∈ ls, '\n' ∉ l := by
  rw [breaks_ofClosed, Nat.add_eq_left, List.sum_eq_zero_iff_forall_eq_nat]
  simp only [List.forall_mem_map, breaks_eq_zero_iff]

theorem splitOn_ofClosed_eq_iff :
    (ofClosed ls).splitOn '\n' = ls ++ [[]] ↔ ∀ l ∈ ls, '\n' ∉ l := by
  constructor
  · intro h l hl
    exact newline_not_mem_of_mem_splitOn (h ▸ List.mem_append_left _ hl)
  · exact splitOn_ofClosed

end Text

theorem Marker.breaks_signature {m : Marker} (h : m.receiver.isSome ↔ m.kind = .objectCall) :
    Text.breaks m.signature = (m.fields.map Text.breaks).sum := by
  obtain ⟨k, owner, receiver, name, params, first, last⟩ := m
  cases k <;> cases receiver <;>
    simp [signature, arguments, fields, Text.breaks] at h ⊢

namespace Report

open Text

/-- The line that the list report has for a marker: the source, the line of the marker or its first
and its last line, and what the marker stands for. -/
def row (source : Text) (m : Marker) : Text :=
  source ++ ":".toList ++
    (if m.firstLine = m.lastLine then decimal m.firstLine
      else decimal m.firstLine ++ "-".toList ++ decimal m.lastLine) ++ ": ".toList ++ m.signature

variable {source : Text} {m : Marker} {ms : List Marker}

theorem listing_eq_ofClosed : listing source ms = ofClosed (ms.map (row source)) := by
  rw [listing, ofClosed, List.flatMap_map]
  apply List.flatMap_congr
  intro m _
  simp [entry, row, lineRange]

theorem breaks_row (h : '\n' ∉ source) : breaks (row source m) = breaks m.signature := by
  have hr : '\n' ∉ source ++ ":".toList ++
      (if m.firstLine = m.lastLine then decimal m.firstLine
        else decimal m.firstLine ++ "-".toList ++ decimal m.lastLine) ++ ": ".toList := by
    split <;> simp [h, newline_not_mem_decimal]
  rw [row, breaks_append, breaks_eq_zero_iff.mpr hr, Nat.zero_add]

end Report

namespace Document

open Report Text

variable {d : Document} {source : Text} {m : Marker}

theorem breaks_row_of_mem_markers (hs : '\n' ∉ source) (hm : m ∈ d.markers) :
    breaks (row source m) = (m.fields.map breaks).sum := by
  obtain ⟨x, hx, rfl⟩ := List.mem_map.mp (map_snd_located d ▸ hm)
  rw [breaks_row hs, Marker.breaks_signature (standsAt_of_mem_located hx).receiver_isSome_iff]

theorem newline_not_mem_row_iff (hs : '\n' ∉ source) (hm : m ∈ d.markers) :
    '\n' ∉ row source m ↔ ∀ t ∈ m.fields, ¬ t.BreaksLiteral := by
  rw [← breaks_eq_zero_iff, breaks_row_of_mem_markers hs hm, List.sum_eq_zero_iff_forall_eq_nat]
  simp only [List.forall_mem_map, breaks_eq_zero_iff]
  obtain ⟨x, hx, rfl⟩ := List.mem_map.mp (map_snd_located d ▸ hm)
  refine forall₂_congr fun t ht => ?_
  rw [((standsAt_of_mem_located hx).neat t ht).breaksLiteral_iff]

/-- The list report has a line break for each marker and those of the fields. It consists of one
line for each marker just if no literal in a field holds a line break. -/
theorem listing_lines_iff (d : Document) (hs : '\n' ∉ source) :
    breaks (Format.listing.report source d d.markers) =
        d.markers.length + (d.markers.map fun m => (m.fields.map breaks).sum).sum ∧
      (breaks (Format.listing.report source d d.markers) = d.markers.length ∧
          (Format.listing.report source d d.markers).splitOn '\n' =
            d.markers.map (row source) ++ [[]] ↔
        ∀ m ∈ d.markers, ∀ t ∈ m.fields, ¬ t.BreaksLiteral) := by
  have hr : Format.listing.report source d d.markers = ofClosed (d.markers.map (row source)) :=
    listing_eq_ofClosed
  have hl : d.markers.length = (d.markers.map (row source)).length := (List.length_map _).symm
  rw [hr]
  constructor
  · rw [breaks_ofClosed, ← hl, List.map_map]
    congr 2
    exact List.map_congr_left fun m hm => breaks_row_of_mem_markers hs hm
  · rw [hl, breaks_ofClosed_eq_length_iff, splitOn_ofClosed_eq_iff, and_self, List.forall_mem_map]
    exact forall₂_congr fun m hm => newline_not_mem_row_iff hs hm

/-- Line breaks between fields and an escaped one in a literal leave each entry on its line. -/
theorem listing_lines_iff_escaped_break :
    let d : Document := ⟨"NSCALL(n,\nf /\"a\\nb\"/)\nMTD(K, m /x,\n y/)".toList⟩
    '\n' ∉ "a.c".toList ∧ (∀ m ∈ d.markers, ∀ t ∈ m.fields, ¬ t.BreaksLiteral) ∧
      (Format.listing.report "a.c".toList d d.markers).splitOn '\n' =
        ["a.c:1-2: n::f(\"a\\nb\")".toList, "a.c:3-4: K.m(x, y)".toList, []] := by
  intro d
  have hs : '\n' ∉ "a.c".toList := by decide
  have hn : ∀ m ∈ d.markers, ∀ t ∈ m.fields, '\n' ∉ t := by decide +kernel
  have hb : ∀ m ∈ d.markers, ∀ t ∈ m.fields, ¬ t.BreaksLiteral := by
    rintro m hm t ht ⟨u, v, rfl, -⟩
    exact hn m hm _ ht (List.mem_append_right u List.mem_cons_self)
  refine ⟨hs, hb, ((listing_lines_iff d hs).2.mpr hb).2.trans ?_⟩
  decide +kernel

/-- A marker with a line break in a literal takes two lines. -/
theorem listing_two_lines :
    let d : Document := ⟨"MTD(K, m /\"a\nb\"/)".toList⟩
    '\n' ∉ "a.c".toList ∧ d.markers.length = 1 ∧
      Format.listing.report "a.c".toList d d.markers = "a.c:1-2: K.m(\"a\nb\")\n".toList ∧
      breaks (Format.listing.report "a.c".toList d d.markers) = 2 := by
  decide +kernel

end Document

end SourceMarkers
