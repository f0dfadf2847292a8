import Mathlib.Data.List.Sort
import SourceMarkers.Proofs.Bytes

/-! # What becomes of a keyword

A keyword that opens a parenthesis is either found, alone among the keywords
that end there and with the outcome that its own parenthesis decides, or it is
enclosed by a marker that is found. Findings are told from the beginning of a
document to its end.
-/

namespace SourceMarkers

open Segment

namespace Finding

/-- The byte offset lies between the parentheses of the finding. -/
def Encloses (f : Finding) (o : Nat) : Prop := ∃ c ∈ f.close?, f.opening < o ∧ o < c

def last (f : Finding) : Nat := f.close?.getD f.opening

/-- Findings and what is told of them: each one is a marker of the result or the cause of one
event. -/
inductive Told : List Finding → List Marker → List Log.Event → Prop where
  | nil : Told [] [] []
  | marker {span : Span} {m : Marker} {fs : List Finding} {ms : List Marker}
      {es : List Log.Event} : Told fs ms es → Told (.marker span m :: fs) (m :: ms) es
  | malformed {span : Span} {k : Kind} {line : Nat} {fs : List Finding} {ms : List Marker}
      {es : List Log.Event} : Told fs ms es →
      Told (.malformed span k line :: fs) ms
        (⟨.debug, "dropping malformed ".toList ++ k.keyword ++ " marker on line ".toList ++
          Text.decimal line⟩ :: es)
  | unclosed {start : Nat} {k : Kind} {fs : List Finding} {ms : List Marker}
      {es : List Log.Event} : Told fs ms es →
      Told (.unclosed start k :: fs) ms
        (⟨.debug, "unterminated ".toList ++ k.keyword ++ " marker at byte ".toList ++
          Text.decimal start⟩ :: es)

variable {f : Finding} {c : Nat}

theorem told_filterMap (fs : List Finding) : Told fs (fs.filterMap marker?) (fs.filterMap event?) := by
  induction fs with
  | nil => exact .nil
  | cons f fs ih =>
    cases f with
    | marker span m => exact .marker ih
    | malformed span k line => exact .malformed ih
    | unclosed start k => exact .unclosed ih

theorem last_of_mem_close? (h : c ∈ f.close?) : f.last = c := by rw [last, h, Option.getD_some]

theorem opening_le_last (h : ∀ c ∈ f.close?, f.opening < c) : f.opening ≤ f.last := by
  cases hc : f.close? with
  | none => exact Nat.le_of_eq (by rw [last, hc, Option.getD_none])
  | some c => exact last_of_mem_close? hc ▸ Nat.le_of_lt (h c hc)

end Finding

namespace Document

/-- A keyword of the kind ends at the byte offset, where a parenthesis stands. -/
def Opens (d : Document) (k : Kind) (o : Nat) : Prop :=
  ∃ s t, d.text = s ++ '(' :: t ∧ Text.size s = o ∧ k.keyword <:+ s

/-- What the keyword at a byte offset turns out to be if it is looked at alone. -/
def findingAt (d : Document) (start : Nat) (k : Kind) : Finding :=
  let opening := start + Text.size k.keyword
  match d.text.closingOffset? opening with
  | none => .unclosed start k
  | some close =>
    match Fields.ofBody? k (d.text.slice (opening + 1) close) with
    | none => .malformed ⟨start, close⟩ k (d.lineAt start)
    | some fields => .marker ⟨start, close⟩ (.ofFields k fields (d.lineAt start) (d.lineAt close))

/-- The findings tell of every keyword from a byte offset on. -/
structure Classified (d : Document) (i : Nat) (fs : List Finding) : Prop where
  /-- Findings stand in the order of their parentheses, so that none is told twice. -/
  increasing : fs.Pairwise fun f g => f.opening < g.opening
  le_opening : ∀ f ∈ fs, i ≤ f.opening
  /-- A keyword is found unless a marker that is found encloses it. -/
  exists_iff : ∀ o, i ≤ o → ((∃ f ∈ fs, f.opening = o) ↔
    (∃ k, d.Opens k o) ∧ ∀ f ∈ fs, ¬ f.Encloses o)
  opens : ∀ f ∈ fs, d.Opens f.kind f.opening
  /-- Of the keywords that end at the same place the longest is found. -/
  longest : ∀ f ∈ fs, ∀ k, d.Opens k f.opening → k.keyword.length ≤ f.kind.keyword.length
  eq_findingAt : ∀ f ∈ fs, f = d.findingAt f.start f.kind

variable {d : Document} {f : Finding} {fs : List Finding} {i j o : Nat}

@[simp] theorem start_findingAt {k : Kind} : (d.findingAt i k).start = i := by
  simp only [findingAt]
  split
  · rfl
  · split <;> rfl

@[simp] theorem kind_findingAt {k : Kind} : (d.findingAt i k).kind = k := by
  simp only [findingAt]
  split
  · rfl
  · split <;> rfl

theorem close?_findingAt {k : Kind} :
    (d.findingAt i k).close? = d.text.closingOffset? (i + Text.size k.keyword) := by
  simp only [findingAt]
  split
  · next hc => rw [hc]; rfl
  · next hc => rw [hc]; split <;> rfl

theorem not_opens_closing {k : Kind} {s t : Text} (hd : d.text = s ++ ')' :: t) :
    ¬ d.Opens k (Text.size s) := by
  rintro ⟨x, y, hx, ho, -⟩
  rw [hd] at hx
  obtain rfl := Text.eq_of_append_eq_of_size_eq hx ho.symm
  rw [List.append_cancel_left_eq] at hx
  cases hx

theorem Opens.lt_of_closingOffset? {k : Kind} {c : Nat} (h : d.Opens k o)
    (hc : d.text.closingOffset? o = some c) : o < c ∧ ∀ l, ¬ d.Opens l c := by
  obtain ⟨s, t, hd, rfl, -⟩ := h
  rw [hd, Text.closingOffset?_parenthesis, Option.map_eq_some_iff] at hc
  obtain ⟨j, hj, rfl⟩ := hc
  obtain ⟨u, v, rfl, rfl, -⟩ :=
    (Text.walk?_meets_eq_some_iff fun _ => Glyph.ofChar_eq_closing_iff).mp hj
  rw [List.take_left]
  constructor
  · have hu : 0 < Text.size ('(' :: u) := Text.size_pos (List.cons_ne_nil _ _)
    rw [Text.size_append]
    omega
  · exact fun l => not_opens_closing (t := v) (by simp [hd])

theorem Classified.nil (h : ∀ o, i ≤ o → ∀ k, ¬ d.Opens k o) : d.Classified i [] where
  increasing := List.Pairwise.nil
  le_opening := by simp
  exists_iff o ho := by
    constructor
    · simp
    · rintro ⟨⟨k, hk⟩, -⟩
      exact absurd hk (h o ho k)
  opens := by simp
  longest := by simp
  eq_findingAt := by simp

theorem Classified.skip (h : d.Classified j fs) (hij : i ≤ j)
    (hn : ∀ o, i ≤ o → o < j → ∀ k, ¬ d.Opens k o) : d.Classified i fs := by
  refine { h with le_opening := fun f hf => Nat.le_trans hij (h.le_opening f hf), exists_iff := ?_ }
  intro o ho
  by_cases hj : j ≤ o
  · exact h.exists_iff o hj
  · constructor
    · rintro ⟨f, hf, rfl⟩
      exact absurd (h.le_opening f hf) hj
    · rintro ⟨⟨k, hk⟩, -⟩
      exact absurd hk (hn o ho (Nat.not_le.mp hj) k)

theorem Classified.cons (h : d.Classified (f.last + 1) fs) (hi : i ≤ f.opening)
    (hn : ∀ o, i ≤ o → o < f.opening → ∀ k, ¬ d.Opens k o) (ho : d.Opens f.kind f.opening)
    (hl : ∀ k, d.Opens k f.opening → k.keyword.length ≤ f.kind.keyword.length)
    (hf : f = d.findingAt f.start f.kind) : d.Classified i (f :: fs) := by
  have hc : ∀ c ∈ f.close?, f.opening < c ∧ ∀ k, ¬ d.Opens k c := by
    intro c hm
    rw [hf, close?_findingAt] at hm
    exact ho.lt_of_closingOffset? hm
  have hle : f.opening ≤ f.last := Finding.opening_le_last fun c hm => (hc c hm).1
  have hlt : ∀ g ∈ fs, f.last < g.opening := h.le_opening
  refine ⟨?_, ?_, ?_, ?_, ?_, ?_⟩
  · exact List.pairwise_cons.mpr ⟨fun g hg => Nat.lt_of_le_of_lt hle (hlt g hg), h.increasing⟩
  · rw [List.forall_mem_cons]
    exact ⟨hi, fun g hg => by have := hlt g hg; omega⟩
  · intro o hio
    simp only [List.mem_cons, exists_eq_or_imp, forall_eq_or_imp]
    rcases Nat.lt_or_ge f.last o with hj | hj
    · have hne : f.opening ≠ o := by omega
      have he : ¬ f.Encloses o := by
        rintro ⟨c, hm, -, hoc⟩
        have := Finding.last_of_mem_close? hm
        omega
      simp only [hne, he, false_or, not_false_iff, true_and, h.exists_iff o hj]
    · have hg : ∀ g ∈ fs, ¬ g.opening ≤ o := fun g hm => by have := hlt g hm; omega
      constructor
      · rintro (rfl | ⟨g, hm, rfl⟩)
        · refine ⟨⟨f.kind, ho⟩, ?_, ?_⟩
          · rintro ⟨c, -, hoc, -⟩
            exact absurd hoc (Nat.lt_irrefl _)
          · rintro g hm ⟨c, -, hoc, -⟩
            exact hg g hm (Nat.le_of_lt hoc)
        · exact absurd (Nat.le_refl _) (hg g hm)
      · rintro ⟨⟨k, hk⟩, he, -⟩
        rcases Nat.lt_trichotomy o f.opening with ho' | ho' | ho'
        · exact absurd hk (hn o hio ho' k)
        · exact Or.inl ho'.symm
        · -- The offset lies behind the opening of the finding but not behind its end.
          cases hm : f.close? with
          | none =>
            rw [Finding.last, hm, Option.getD_none] at hj
            omega
          | some c =>
            rw [Finding.last_of_mem_close? hm] at hj
            rcases Nat.lt_or_eq_of_le hj with hoc | rfl
            · exact absurd ⟨c, hm, ho', hoc⟩ he
            · exact absurd hk ((hc o hm).2 k)
  · exact List.forall_mem_cons.mpr ⟨ho, h.opens⟩
  · exact List.forall_mem_cons.mpr ⟨hl, h.longest⟩
  · exact List.forall_mem_cons.mpr ⟨hf, h.eq_findingAt⟩

theorem Opens.kind_eq {k l : Kind} (hk : d.Opens k o) (hl : d.Opens l o)
    (h : k.keyword.length = l.keyword.length) : k = l := by
  obtain ⟨s, t, hs, rfl, hk⟩ := hk
  obtain ⟨u, v, hu, ho, hl⟩ := hl
  obtain rfl := Text.eq_of_append_eq_of_size_eq (hs.symm.trans hu) ho.symm
  exact Kind.keyword_injective
    ((List.suffix_of_suffix_length_le hk hl (Nat.le_of_eq h)).eq_of_length h)

theorem Classified.eq_of_opening_eq {gs : List Finding} {g : Finding} (h : d.Classified i fs)
    (h' : d.Classified j gs) (hf : f ∈ fs) (hg : g ∈ gs) (ho : f.opening = g.opening) : f = g := by
  have hk : f.kind = g.kind := by
    refine (h.opens f hf).kind_eq (ho ▸ h'.opens g hg) (Nat.le_antisymm ?_ ?_)
    · exact h'.longest g hg f.kind (ho ▸ h.opens f hf)
    · exact h.longest f hf g.kind (ho ▸ h'.opens g hg)
  have hs : f.start = g.start := by
    rw [Finding.opening, Finding.opening, hk] at ho
    exact Nat.add_right_cancel ho
  rw [h.eq_findingAt f hf, h'.eq_findingAt g hg, hk, hs]

theorem Classified.mem_of_agree {gs : List Finding} (h : d.Classified i fs)
    (h' : d.Classified i gs) (ha : ∀ g ∈ gs, g.opening < f.opening → g ∈ fs) (hf : f ∈ fs) :
    f ∈ gs := by
  have hi := h.le_opening f hf
  obtain ⟨hk, he⟩ := (h.exists_iff f.opening hi).mp ⟨f, hf, rfl⟩
  have hg : ∃ g ∈ gs, g.opening = f.opening := by
    refine (h'.exists_iff f.opening hi).mpr ⟨hk, fun g hg hge => ?_⟩
    have hlt : g.opening < f.opening := by
      obtain ⟨c, -, hlt, -⟩ := hge
      exact hlt
    exact he g (ha g hg hlt) hge
  obtain ⟨g, hg, ho⟩ := hg
  rwa [h.eq_of_opening_eq h' hf hg ho.symm]

/-- There is only one way to tell of all keywords, since what is found at a keyword depends only on
what is found before it. -/
theorem Classified.unique {gs : List Finding} (h : d.Classified i fs) (h' : d.Classified i gs) :
    fs = gs := by
  have hm : ∀ o f, f.opening = o → (f ∈ fs ↔ f ∈ gs) := by
    intro o
    induction o using Nat.strongRecOn with
    | ind o ih =>
      rintro f rfl
      constructor
      · exact h.mem_of_agree h' fun g hg hlt => (ih _ hlt g rfl).mpr hg
      · exact h'.mem_of_agree h fun g hg hlt => (ih _ hlt g rfl).mp hg
  have : Std.Irrefl fun f g : Finding => f.opening < g.opening := ⟨fun _ => Nat.lt_irrefl _⟩
  exact h.increasing.eq_of_mem_iff h'.increasing fun f => hm _ f rfl

end Document

end SourceMarkers
