import SourceMarkers.Proofs.FieldCuts
import SourceMarkers.Proofs.Findings

/-! # Written markers

Fields that hold together can be written as a marker. The marker is then found
again, alone and with the fields it was written from, whatever parentheses,
commas, slashes and keywords stand in them.
-/

namespace SourceMarkers

open Segment

namespace Fields

/-- What the parentheses of a marker with the given fields enclose. -/
def body (f : Fields) : Text :=
  f.owner ++ ", ".toList ++ f.receiver.elim [] (· ++ ", ".toList) ++
    f.name ++ " /".toList ++ f.params ++ "/".toList

def written (k : Kind) (f : Fields) : Text := k.keyword ++ "(".toList ++ f.body ++ ")".toList

/-- The fields are tidy and can be told apart when they are written as a marker. -/
structure Writable (k : Kind) (f : Fields) : Prop where
  isSome_receiver : f.receiver.isSome = k.hasReceiver
  balanced : ∀ t ∈ f.leading, t.Balanced
  balanced_params : f.params.Balanced
  comma?_eq_none : ∀ t ∈ f.owner :: f.receiver.toList, Nesting.comma? (Glyph.ofText t) = none
  slash_not_mem : '/' ∉ f.name
  tidy_eq : ∀ t ∈ f.leading, t.tidy = t
  tidyParams_eq : f.params.tidyParams = f.params

variable {f : Fields} {k : Kind} {s t u : Text}

theorem Writable.balanced_owner (h : f.Writable k) : f.owner.Balanced :=
  h.balanced _ List.mem_cons_self

theorem Writable.balanced_name (h : f.Writable k) : f.name.Balanced :=
  h.balanced _ (by simp [leading])

theorem Writable.balanced_receiver (h : f.Writable k) (hr : f.receiver = some u) : u.Balanced :=
  h.balanced _ (by simp [leading, hr])

theorem balanced_append_comma (hs : s.Balanced) (ht : t.Balanced) :
    Text.Balanced (s ++ ',' :: ' ' :: t) :=
  hs.append_cons (by decide) (by decide)
    (Text.freeOf_nil.append_cons (by decide) (by decide) ht)

theorem balanced_last (hs : s.Balanced) (ht : t.Balanced) :
    Text.Balanced (s ++ ' ' :: '/' :: (t ++ ['/'])) := by
  have hl : Text.Balanced (t ++ ['/']) := ht.append_cons (by decide) (by decide) Text.freeOf_nil
  exact hs.append_cons (by decide) (by decide)
    (Text.freeOf_nil.append_cons (by decide) (by decide) hl)

theorem body_of_receiver_eq_none (hr : f.receiver = none) :
    f.body = f.owner ++ ',' :: ' ' :: (f.name ++ ' ' :: '/' :: (f.params ++ ['/'])) := by
  simp [body, hr]

theorem body_of_receiver_eq_some (hr : f.receiver = some u) :
    f.body = f.owner ++ ',' :: ' ' ::
      (u ++ ',' :: ' ' :: (f.name ++ ' ' :: '/' :: (f.params ++ ['/']))) := by
  simp [body, hr]

theorem Writable.balanced_body (h : f.Writable k) : f.body.Balanced := by
  have hl := balanced_last h.balanced_name h.balanced_params
  cases hr : f.receiver with
  | none =>
    rw [body_of_receiver_eq_none hr]
    exact balanced_append_comma h.balanced_owner hl
  | some u =>
    rw [body_of_receiver_eq_some hr]
    exact balanced_append_comma h.balanced_owner
      (balanced_append_comma (h.balanced_receiver hr) hl)

theorem freeOf_comma (h : Nesting.comma? (Glyph.ofText t) = none) (hb : t.Balanced) :
    t.FreeOf .comma :=
  ⟨Nesting.comma?_eq ▸ h, hb.atRest_run⟩

theorem finish?_written {r : Option Text} (hn : '/' ∉ s) :
    finish? t r (' ' :: (s ++ ' ' :: '/' :: (u ++ ['/']))) =
      some ⟨t, r, ' ' :: (s ++ [' ']), u⟩ := by
  have hc : cutSlash? (' ' :: (s ++ ' ' :: '/' :: (u ++ ['/']))) =
      some (' ' :: (s ++ [' ']), u ++ ['/']) :=
    cutSlash?_eq_some_iff.mpr ⟨by simp, by simpa using hn⟩
  rw [finish?, hc, Option.map_some]
  simp only [List.dropLast_concat]

/-- The fields are read as they were written, with spaces around them. -/
theorem Writable.ofBody?_body (h : f.Writable k) :
    ofBody? k f.body =
      some ⟨f.owner, f.receiver.map (' ' :: ·), ' ' :: (f.name ++ [' ']), f.params⟩ := by
  have ho : f.owner.FreeOf .comma :=
    freeOf_comma (h.comma?_eq_none _ List.mem_cons_self) h.balanced_owner
  have hk := h.isSome_receiver
  cases hr : f.receiver with
  | none =>
    rw [hr] at hk
    rw [body_of_receiver_eq_none hr, ofBody?, cutComma?_eq_some_iff.mpr ⟨rfl, ho⟩, ← hk]
    exact finish?_written h.slash_not_mem
  | some u =>
    rw [hr] at hk
    have hu : Text.FreeOf .comma (' ' :: u) := by
      have hc : Nesting.comma? (Glyph.ofText u) = none := h.comma?_eq_none _ (by simp [hr])
      exact Text.freeOf_nil.append_cons (by decide) (by decide)
        (freeOf_comma hc (h.balanced_receiver hr))
    have hc := cutComma?_eq_some_iff.mpr
      ⟨(rfl : _ = (' ' :: u) ++ ',' :: ' ' :: (f.name ++ ' ' :: '/' :: (f.params ++ ['/']))), hu⟩
    rw [body_of_receiver_eq_some hr, ofBody?, cutComma?_eq_some_iff.mpr ⟨rfl, ho⟩, ← hk]
    simp only [Option.bind_eq_bind, Option.bind_some]
    rw [← List.cons_append, hc]
    exact finish?_written h.slash_not_mem

theorem Writable.ofFields_eq (h : f.Writable k) {i j : Nat} :
    Marker.ofFields k ⟨f.owner, f.receiver.map (' ' :: ·), ' ' :: (f.name ++ [' ']), f.params⟩ i j =
      ⟨k, f.owner, f.receiver, f.name, f.params, i, j⟩ := by
  have hr : (f.receiver.map (' ' :: ·)).map Text.tidy = f.receiver := by
    cases hr : f.receiver with
    | none => rfl
    | some u =>
      have hu : u.tidy = u := h.tidy_eq _ (by simp [leading, hr])
      rw [Option.map_some, Option.map_some, Text.tidy_cons_space, hu]
  have ho : f.owner.tidy = f.owner := h.tidy_eq _ List.mem_cons_self
  have hn : f.name.tidy = f.name := h.tidy_eq _ (by simp [leading])
  simp only [Marker.ofFields, hr, ho, Text.tidy_cons_space, Text.tidy_concat_space, hn,
    h.tidyParams_eq]

theorem Writable.ofText_written (h : f.Writable k) :
    Segment.ofText (f.written k) = [.marked k f.body] := by
  have hw : f.written k = k.opener ++ (f.body ++ ')' :: []) := by simp [written, Kind.opener]
  rw [hw, ofText_marked h.balanced_body, ofText_nil]

end Fields

namespace Document

/-- Tidy fields that are written as a marker are found again, and nothing else is. -/
theorem markers_written {k : Kind} {f : Fields} (h : f.Writable k) :
    (Document.mk (f.written k)).markers =
      [⟨k, f.owner, f.receiver, f.name, f.params, 1, 1 + Text.breaks (f.written k)⟩] := by
  have hb : Text.breaks (f.written k) = Text.breaks (k.opener ++ f.body) := by
    have hw : f.written k = k.opener ++ f.body ++ ")".toList := by
      simp [Fields.written, Kind.opener]
    rw [hw, Text.breaks_append]
    rfl
  rw [markers, findings, h.ofText_written, Finding.ofSegments, Finding.ofSegment?_marked,
    h.ofBody?_body, hb]
  simp only [h.ofFields_eq]
  rfl

theorem markers_written_nested :
    (Document.mk (Fields.written .objectCall ⟨"pick(CALL(a, b, c /x/), ')')".toList,
      some "slot[\",)\n(\"]".toList, "put_MTD".toList, "int (*f)(char), s".toList⟩)).markers =
      [⟨.objectCall, "pick(CALL(a, b, c /x/), ')')".toList, some "slot[\",)\n(\"]".toList,
        "put_MTD".toList, "int (*f)(char), s".toList, 1, 2⟩] := by
  refine (markers_written ?_).trans (by decide)
  constructor <;> decide

end Document

end SourceMarkers
