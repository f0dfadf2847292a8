import SourceMarkers.Proofs.Bytes
import SourceMarkers.Proofs.Margins

/-! # Where signatures are placed

Each marker of a list is placed as if it were alone: below the line on which it
ends, under the first keyword of its kind on that line. A marker that is found in
the document and ends on the line on which it begins is shown in any case. It is
shown under its own keyword, unless another one like it precedes it on the line.
-/

namespace SourceMarkers

namespace Text

/-- The word stands in the text behind a part of it, and nowhere earlier. -/
def FirstBehind (w t u : Text) : Prop := u ++ w <+: t ∧ ∀ v, v ++ w <+: t → u.length ≤ v.length

variable {s t u w : Text} {c : Char}

theorem firstBehind_nil_iff : FirstBehind w [] u ↔ w = [] ∧ u = [] := by
  constructor
  · rintro ⟨h, -⟩
    rw [List.prefix_nil, List.append_eq_nil_iff] at h
    exact h.symm
  · rintro ⟨rfl, rfl⟩
    exact ⟨List.prefix_refl [], fun v _ => Nat.zero_le _⟩

theorem firstBehind_iff_eq_nil (h : w <+: t) : FirstBehind w t u ↔ u = [] := by
  constructor
  · intro hu
    exact List.length_eq_zero_iff.mp (Nat.le_zero.mp (hu.2 [] h))
  · rintro rfl
    exact ⟨h, fun v _ => Nat.zero_le _⟩

theorem firstBehind_cons_iff (h : ¬ w <+: c :: t) :
    FirstBehind w (c :: t) u ↔ ∃ v, FirstBehind w t v ∧ u = c :: v := by
  constructor
  · rintro ⟨hu, hmin⟩
    cases u with
    | nil => exact absurd hu h
    | cons d u =>
      rw [List.cons_append, List.cons_prefix_cons] at hu
      obtain ⟨rfl, hu⟩ := hu
      refine ⟨u, ⟨hu, fun v hv => ?_⟩, rfl⟩
      exact Nat.le_of_succ_le_succ (hmin (d :: v) (List.cons_prefix_cons.mpr ⟨rfl, hv⟩))
  · rintro ⟨u, ⟨hu, hmin⟩, rfl⟩
    refine ⟨List.cons_prefix_cons.mpr ⟨rfl, hu⟩, fun v hv => ?_⟩
    cases v with
    | nil => exact absurd hv h
    | cons d v => exact Nat.succ_le_succ (hmin v (List.cons_prefix_cons.mp hv).2)

theorem before?_eq_some_iff : before? w t = some u ↔ FirstBehind w t u := by
  induction t generalizing u with
  | nil =>
    rw [before?, firstBehind_nil_iff]
    cases w <;> simp [eq_comm]
  | cons c t ih =>
    rw [before?]
    split
    · next hw =>
      rw [firstBehind_iff_eq_nil (List.isPrefixOf_iff_prefix.mp hw), Option.some_inj, eq_comm]
    · next hw =>
      rw [firstBehind_cons_iff fun hp => hw (List.isPrefixOf_iff_prefix.mpr hp),
        Option.map_eq_some_iff]
      simp only [ih, eq_comm]

theorem head?_splitOn (t : Text) : (t.splitOn '\n').head? = some (t.takeWhile (· ≠ '\n')) := by
  induction t with
  | nil => rfl
  | cons c t ih =>
    rw [List.splitOn_cons_eq_if_modifyHead, List.takeWhile_cons]
    by_cases hc : c = '\n'
    · simp [hc]
    · simp [hc, List.head?_modifyHead, ih]

theorem getElem?_splitOn (hs : s = [] ∨ ['\n'] <:+ s) :
    ((s ++ t).splitOn '\n')[breaks s]? = some (t.takeWhile (· ≠ '\n')) := by
  rcases hs with rfl | ⟨s, rfl⟩
  · rw [List.nil_append, breaks_nil, ← List.head?_eq_getElem?, head?_splitOn]
  · have hl : breaks (s ++ ['\n']) = (s.splitOn '\n').length := by
      rw [breaks_append]
      exact (Document.length_lines ⟨s⟩).symm
    rw [List.append_assoc, List.singleton_append, List.splitOn_append_cons_self, hl,
      List.getElem?_append_right (Nat.le_refl _), Nat.sub_self, ← List.head?_eq_getElem?,
      head?_splitOn]

theorem exists_append_rtakeWhile (s : Text) :
    ∃ a, s = a ++ s.rtakeWhile (· ≠ '\n') ∧ (a = [] ∨ ['\n'] <:+ a) := by
  refine ⟨s.rdropWhile (· ≠ '\n'), List.rdropWhile_append_rtakeWhile.symm, ?_⟩
  by_cases ha : s.rdropWhile (· ≠ '\n') = []
  · exact .inl ha
  · have hn : (s.rdropWhile (· ≠ '\n')).getLast ha = '\n' := by
      simpa using List.rdropWhile_last_not (· ≠ '\n') s ha
    exact .inr ⟨_, hn ▸ List.dropLast_append_getLast ha⟩

end Text

namespace Document

def lineBefore (d : Document) (offset : Nat) : Text :=
  (Text.takeSize offset d.text).rtakeWhile (· ≠ '\n')

/-- The number of characters before a byte offset on its line. -/
def column (d : Document) (offset : Nat) : Nat := (d.lineBefore offset).length

/-- The white space is as long as the text. A tab stands in it for each tab, and a space for each
other character. -/
def IndentsTo : Text → Text → Prop :=
  List.Forall₂ fun c i => i = if c = '\t' then '\t' else ' '

/-- What is shown of a marker, and what is told of it if nothing is shown. -/
structure Placed (d : Document) (m : Marker) (as : List Annotation) (es : List Log.Event) :
    Prop where
  once : as.length + es.length = 1
  warns_iff : (∃ e ∈ es, e.level = .warn) ↔ m.lastLine = 0 ∨ d.lineCount < m.lastLine
  debugs_iff : (∃ e ∈ es, e.level = .debug) ↔
    ∃ line ∈ d.line? m.lastLine, ¬ m.kind.opener <:+: line
  shows_iff : ∀ a, a ∈ as ↔ ∃ line ∈ d.line? m.lastLine, ∃ before,
    Text.FirstBehind m.kind.opener line before ∧ IndentsTo before a.indent ∧
      a.line = m.lastLine ∧ a.text = m.signature

variable {d : Document} {m : Marker} {ms : List Marker} {x : Span × Marker} {s t : Text} {n : Nat}

theorem indentsTo_indent (t : Text) : IndentsTo t (Placement.indent t) :=
  List.forall₂_map_right_iff.mpr (List.forall₂_same.mpr fun _ _ => rfl)

theorem IndentsTo.eq_indent {i : Text} (h : IndentsTo t i) : i = Placement.indent t := by
  induction h with
  | nil => rfl
  | cons hc _ ih => rw [hc, ih, Placement.indent, Placement.indent, List.map_cons]

theorem line?_eq_none_iff : d.line? n = none ↔ n = 0 ∨ d.lineCount < n := by
  cases n with
  | zero => simp [line?]
  | succ n =>
    rw [line?, List.getElem?_eq_none_iff, length_lines]
    omega

theorem line?_append (h : d.text = s ++ t) :
    d.line? (1 + Text.breaks s) =
      some (s.rtakeWhile (· ≠ '\n') ++ t.takeWhile (· ≠ '\n')) := by
  obtain ⟨a, hs, ha⟩ := Text.exists_append_rtakeWhile s
  have hn : ∀ c ∈ s.rtakeWhile (· ≠ '\n'), c ≠ '\n' := by
    intro c hc
    simpa using List.mem_rtakeWhile_imp hc
  have hb : Text.breaks s = Text.breaks a := by
    have hz : Text.breaks (s.rtakeWhile (· ≠ '\n')) = 0 :=
      List.count_eq_zero.mpr fun hm => hn '\n' hm rfl
    conv_lhs => rw [hs]
    rw [Text.breaks_append, hz, Nat.add_zero]
  have ht : d.text = a ++ (s.rtakeWhile (· ≠ '\n') ++ t) := by
    rw [h, ← List.append_assoc, ← hs]
  rw [Nat.add_comm, line?, lines, ht, hb, Text.getElem?_splitOn ha,
    List.takeWhile_append_of_pos (by simpa using hn)]

theorem lineBefore_append (h : d.text = s ++ t) :
    d.lineBefore (Text.size s) = s.rtakeWhile (· ≠ '\n') := by
  rw [lineBefore, h, Text.takeSize_size_append]

theorem exists_line_of_opener (k : Kind) (h : d.text = s ++ (k.opener ++ t)) :
    ∃ line, d.line? (1 + Text.breaks s) = some line ∧
      d.lineBefore (Text.size s) ++ k.opener <+: line := by
  have hk : ∀ c ∈ k.opener, c ≠ '\n' := by
    rintro c hc rfl
    exact k.newline_not_mem_opener hc
  refine ⟨_, line?_append h, ?_⟩
  rw [lineBefore_append h, List.takeWhile_append_of_pos (by simpa using hk), ← List.append_assoc]
  exact List.prefix_append _ _

theorem annotations_eq_flatMap :
    d.annotations ms = ms.flatMap fun m => (Placement.ofMarker d m).shown?.toList := by
  rw [annotations, List.filterMap_map, List.filterMap_eq_flatMap_toList]
  rfl

theorem placementLog_eq_flatMap :
    d.placementLog ms = ms.flatMap fun m => (Placement.ofMarker d m).event?.toList := by
  rw [placementLog, List.filterMap_map, List.filterMap_eq_flatMap_toList]
  rfl

theorem placed_of_line?_eq_none (hl : d.line? m.lastLine = none) :
    d.Placed m (Placement.ofMarker d m).shown?.toList (Placement.ofMarker d m).event?.toList := by
  have hp : Placement.ofMarker d m = .pastEnd m.kind m.lastLine d.lineCount := by
    rw [Placement.ofMarker, hl]
  have hn := line?_eq_none_iff.mp hl
  rw [hp]
  constructor <;> simp [Placement.shown?, Placement.event?, hn, hl]

theorem not_pastEnd_of_line?_eq_some {line : Text} (hl : d.line? n = some line) :
    ¬ (n = 0 ∨ d.lineCount < n) := by
  rw [← line?_eq_none_iff, hl]
  exact Option.some_ne_none line

theorem placed_of_before?_eq_none {line : Text} (hl : d.line? m.lastLine = some line)
    (hb : Text.before? m.kind.opener line = none) :
    d.Placed m (Placement.ofMarker d m).shown?.toList (Placement.ofMarker d m).event?.toList := by
  have hp : Placement.ofMarker d m = .noKeyword m.kind m.lastLine := by
    simp only [Placement.ofMarker, hl, hb]
  have hn := not_pastEnd_of_line?_eq_some hl
  have hf : ∀ u, ¬ Text.FirstBehind m.kind.opener line u := by
    intro u hu
    rw [← Text.before?_eq_some_iff, hb] at hu
    cases hu
  have hi : ¬ m.kind.opener <:+: line := by
    rw [← Text.before?_isSome_iff, hb]
    exact Bool.false_ne_true
  rw [hp]
  constructor <;> simp [Placement.shown?, Placement.event?, hn, hl, hf, hi]

theorem placed_of_before?_eq_some {line before : Text} (hl : d.line? m.lastLine = some line)
    (hb : Text.before? m.kind.opener line = some before) :
    d.Placed m (Placement.ofMarker d m).shown?.toList (Placement.ofMarker d m).event?.toList := by
  have hp : Placement.ofMarker d m =
      .shown ⟨m.lastLine, Placement.indent before, m.signature⟩ := by
    simp only [Placement.ofMarker, hl, hb]
  have hn := not_pastEnd_of_line?_eq_some hl
  have hf : ∀ u, Text.FirstBehind m.kind.opener line u ↔ before = u := by
    intro u
    rw [← Text.before?_eq_some_iff, hb, Option.some_inj]
  have hi : m.kind.opener <:+: line := by
    rw [← Text.before?_isSome_iff, hb]
    rfl
  rw [hp]
  constructor
  · rfl
  · simp [Placement.event?, hn]
  · simp [Placement.event?, hl, hi]
  · intro a
    obtain ⟨n, i, u⟩ := a
    simp only [Placement.shown?, Option.toList_some, List.mem_singleton, hl,
      Option.mem_some_iff, exists_eq_left', hf, Annotation.mk.injEq]
    constructor
    · rintro ⟨rfl, rfl, rfl⟩
      exact ⟨indentsTo_indent before, rfl, rfl⟩
    · rintro ⟨hi, rfl, rfl⟩
      exact ⟨rfl, hi.eq_indent, rfl⟩

/-- A marker has one outcome, which its last line decides. -/
theorem placed_ofMarker (d : Document) (m : Marker) :
    d.Placed m (Placement.ofMarker d m).shown?.toList (Placement.ofMarker d m).event?.toList := by
  cases hl : d.line? m.lastLine with
  | none => exact placed_of_line?_eq_none hl
  | some line =>
    cases hb : Text.before? m.kind.opener line with
    | none => exact placed_of_before?_eq_none hl hb
    | some before => exact placed_of_before?_eq_some hl hb

theorem not_pastEnd_of_mem_markers (h : m ∈ d.markers) :
    ¬ (m.lastLine = 0 ∨ d.lineCount < m.lastLine) := by
  obtain ⟨span, hs⟩ := exists_standsAt h
  have := hs.one_le_firstLine
  have := hs.firstLine_le_lastLine
  have := hs.lastLine_le_lineCount
  omega

/-- The first keyword of the kind on the line of a marker is its own one or precedes it. -/
theorem exists_shown_of_mem_located (h : x ∈ d.located) (hl : x.2.firstLine = x.2.lastLine) :
    ∃ line ∈ d.line? x.2.lastLine, d.lineBefore x.1.start ++ x.2.kind.opener <+: line ∧
      ∃ before, Text.FirstBehind x.2.kind.opener line before ∧
        (Placement.ofMarker d x.2).shown? =
          some ⟨x.2.lastLine, Placement.indent before, x.2.signature⟩ := by
  obtain ⟨s, k, body, fields, t, ht, -, hspan, hm⟩ := exists_source_of_mem_located h
  have hf : x.2.firstLine = 1 + Text.breaks s := by rw [hm]; rfl
  have hk : x.2.kind = k := by rw [hm]; rfl
  have ht : d.text = s ++ (k.opener ++ (body ++ ([')'] ++ t))) := by
    simpa [Segment.source] using ht
  obtain ⟨line, hline, hp⟩ := exists_line_of_opener k ht
  rw [← hf, hl] at hline
  have hi : k.opener <:+: line := (List.suffix_append _ _).isInfix.trans hp.isInfix
  obtain ⟨before, hb⟩ := Option.isSome_iff_exists.mp (Text.before?_isSome_iff.mpr hi)
  refine ⟨line, hline, ?_, before, ?_, ?_⟩
  · rwa [hspan, hk]
  · rw [hk]
    exact Text.before?_eq_some_iff.mp hb
  · rw [shown?_ofMarker, hline, hk, Option.bind_some, hb, Option.map_some]

/-- Markers are placed one by one. Those that are found in the document have lines in it, and each
that stands on one line is shown, indented as far as its own keyword or as another one like it that
precedes it on the line. -/
theorem markers_placed (d : Document) (ms : List Marker) :
    d.annotations ms = ms.flatMap (fun m => d.annotations [m]) ∧
      d.placementLog ms = ms.flatMap (fun m => d.placementLog [m]) ∧
      (∀ m, d.Placed m (d.annotations [m]) (d.placementLog [m])) ∧
      (ms ⊆ d.markers → ∀ e ∈ d.placementLog ms, e.level ≠ .warn) ∧
      ∀ x ∈ d.located, x.2.firstLine = x.2.lastLine →
        ∃ line a, d.line? x.2.lastLine = some line ∧ d.annotations [x.2] = [a] ∧
          a.indent.length ≤ d.column x.1.start ∧
          (a.indent.length = d.column x.1.start ↔
            ∀ v, v ++ x.2.kind.opener <+: line → d.column x.1.start ≤ v.length) := by
  have ha : ∀ m, d.annotations [m] = (Placement.ofMarker d m).shown?.toList := fun m => by
    rw [annotations_eq_flatMap, List.flatMap_singleton]
  have hlog : ∀ m, d.placementLog [m] = (Placement.ofMarker d m).event?.toList := fun m => by
    rw [placementLog_eq_flatMap, List.flatMap_singleton]
  have hp : ∀ m, d.Placed m (d.annotations [m]) (d.placementLog [m]) := fun m => by
    rw [ha, hlog]
    exact d.placed_ofMarker m
  refine ⟨?_, ?_, hp, ?_, ?_⟩
  · simp only [ha, annotations_eq_flatMap]
  · simp only [hlog, placementLog_eq_flatMap]
  · intro hms e he hw
    rw [placementLog_eq_flatMap] at he
    obtain ⟨m, hm, he⟩ := List.mem_flatMap.mp he
    exact not_pastEnd_of_mem_markers (hms hm) ((hp m).warns_iff.mp ⟨e, hlog m ▸ he, hw⟩)
  · intro x hx hl
    obtain ⟨line, hline, hown, before, hb, hs⟩ := exists_shown_of_mem_located hx hl
    have hi : (Placement.indent before).length = before.length := List.length_map _
    refine ⟨line, ⟨x.2.lastLine, Placement.indent before, x.2.signature⟩, hline, ?_, ?_, ?_⟩
    · rw [ha, hs]
      rfl
    · exact hi.trans_le (hb.2 _ hown)
    · constructor
      · intro he v hv
        exact he ▸ hi.trans_le (hb.2 v hv)
      · intro hf
        exact Nat.le_antisymm (hi.trans_le (hb.2 _ hown)) (hi ▸ hf before hb.1)

/-- The second of two markers on a line is shown under the first one. -/
theorem markers_placed_second :
    let d : Document := ⟨"é\tMTD(A, a /1/) MTD(B, b /2/)".toList⟩
    let x : Span × Marker := (⟨17, 29⟩, ⟨.classMethod, ['B'], none, ['b'], ['2'], 1, 1⟩)
    [x.2] ⊆ d.markers ∧ (∀ e ∈ d.placementLog [x.2], e.level ≠ .warn) ∧ x ∈ d.located ∧
      x.2.firstLine = x.2.lastLine ∧
      ∃ a, d.annotations [x.2] = [a] ∧ a.indent.length < d.column x.1.start := by
  intro d x
  have hx : x ∈ d.located := by decide +kernel
  have hm : [x.2] ⊆ d.markers := by decide +kernel
  obtain ⟨-, -, -, hw, hs⟩ := markers_placed d [x.2]
  obtain ⟨line, a, hl, ha, hle, hiff⟩ := hs x hx rfl
  have hline : d.text = line := Option.some.inj ((by decide +kernel : some d.text = _).trans hl)
  refine ⟨hm, hw hm, hx, rfl, a, ha, Nat.lt_of_le_of_ne hle fun he => ?_⟩
  have hc : d.column x.1.start ≤ 2 := hiff.mp he ['é', '\t'] (hline ▸ by decide +kernel)
  exact absurd hc (by decide +kernel)

end Document

end SourceMarkers
