import Mathlib.Algebra.Group.Nat.Even
import Mathlib.Data.List.DropRight
import SourceMarkers.Proofs.Cut

/-! # Literals and what lies between them

A text is a sequence of literals and of loose passages between them. A quote
outside literals opens one if it stands behind an even number of backslashes,
and the next quote of the same sort that does so closes it; a literal that is
never closed runs to the end. Each text can be read in this way, and in no other.
-/

namespace SourceMarkers

def IsQuote (c : Char) : Prop := c = '\x22' ∨ c = '\x27'

namespace Text

def EvenEnd (u : Text) : Prop := Even (u.rtakeWhile fun c => c = '\\').length

/-- Behind `u`, every character of `s` with the property is escaped. -/
def Lacks (P : Char → Prop) (u s : Text) : Prop :=
  ∀ x c y, s = x ++ c :: y → P c → ¬ EvenEnd (u ++ x)

/-- Behind `u`, the character after `s` is the first one with the property that is not escaped. -/
structure FirstAfter (P : Char → Prop) (u s : Text) (c : Char) : Prop where
  lacks : Lacks P u s
  holds : P c
  evenEnd : EvenEnd (u ++ s)

variable {P : Char → Prop} {u u' s s' t t' : Text} {c c' : Char}

theorem evenEnd_nil : EvenEnd [] := Even.zero

theorem evenEnd_concat : EvenEnd (u ++ [c]) ↔ (c = '\\' → ¬ EvenEnd u) := by
  unfold EvenEnd
  rw [List.rtakeWhile_concat]
  by_cases hc : c = '\\'
  · simp [hc, Nat.even_add_one]
  · simp [hc]

theorem evenEnd_concat_of_ne (h : c ≠ '\\') : EvenEnd (u ++ [c]) :=
  evenEnd_concat.mpr fun hc => absurd hc h

theorem evenEnd_append_congr (h : EvenEnd u ↔ EvenEnd u') :
    EvenEnd (u ++ s) ↔ EvenEnd (u' ++ s) := by
  induction s generalizing u u' with
  | nil => simpa using h
  | cons c s ih =>
    rw [List.append_cons u, List.append_cons u']
    apply ih
    rw [evenEnd_concat, evenEnd_concat, h]

theorem Lacks.congr (h : EvenEnd u ↔ EvenEnd u') (hs : Lacks P u s) : Lacks P u' s :=
  fun x c y hx hc he => hs x c y hx hc ((evenEnd_append_congr h).mpr he)

theorem FirstAfter.congr (h : EvenEnd u ↔ EvenEnd u') (hs : FirstAfter P u s c) :
    FirstAfter P u' s c :=
  ⟨hs.lacks.congr h, hs.holds, (evenEnd_append_congr h).mp hs.evenEnd⟩

theorem lacks_nil : Lacks P u [] := by
  intro x c y h
  simp at h

theorem lacks_cons_iff : Lacks P u (c :: s) ↔ (P c → ¬ EvenEnd u) ∧ Lacks P (u ++ [c]) s := by
  constructor
  · intro h
    constructor
    · intro hc
      simpa using h [] c s rfl hc
    · rintro x d y rfl hd
      rw [← List.append_cons]
      exact h (c :: x) d y rfl hd
  · rintro ⟨hc, hs⟩ x d y hx hd
    rcases List.cons_eq_append_iff.mp hx with ⟨rfl, he⟩ | ⟨x, rfl, rfl⟩
    · cases he
      simpa using hc hd
    · rw [List.append_cons]
      exact hs x d y rfl hd

theorem lacks_append_iff : Lacks P u (s ++ t) ↔ Lacks P u s ∧ Lacks P (u ++ s) t := by
  induction s generalizing u with
  | nil => simp [lacks_nil]
  | cons c s ih =>
    rw [List.cons_append, lacks_cons_iff, lacks_cons_iff, ih, List.append_cons u c s, and_assoc]

theorem Lacks.of_prefix (h : Lacks P u t) (hs : s <+: t) : Lacks P u s := by
  obtain ⟨w, rfl⟩ := hs
  exact (lacks_append_iff.mp h).1

theorem FirstAfter.not_lacks (h : FirstAfter P u s c) : ¬ Lacks P u (s ++ c :: t) :=
  fun hl => hl s c t rfl h.holds h.evenEnd

theorem FirstAfter.unique (h : FirstAfter P u s c) (h' : FirstAfter P u s' c')
    (ht : s ++ c :: t = s' ++ c' :: t') : s = s' ∧ c = c' ∧ t = t' := by
  rcases append_eq_append_cons_iff.mp ht with ⟨w, rfl, hw⟩ | ⟨w, rfl, rfl⟩
  · cases w with
    | nil =>
      cases hw
      simp
    | cons d w =>
      cases hw
      exact absurd h'.lacks h.not_lacks
  · exact absurd h.lacks h'.not_lacks

theorem lacks_or_exists_firstAfter (P : Char → Prop) (u t : Text) :
    Lacks P u t ∨ ∃ s c t', t = s ++ c :: t' ∧ FirstAfter P u s c := by
  induction t generalizing u with
  | nil => exact Or.inl lacks_nil
  | cons c t ih =>
    by_cases hc : P c ∧ EvenEnd u
    · exact Or.inr ⟨[], c, t, rfl, lacks_nil, hc.1, by simpa using hc.2⟩
    · rw [not_and] at hc
      rcases ih (u ++ [c]) with h | ⟨s, d, t', rfl, h⟩
      · exact Or.inl (lacks_cons_iff.mpr ⟨hc, h⟩)
      · refine Or.inr ⟨c :: s, d, t', rfl, lacks_cons_iff.mpr ⟨hc, h.lacks⟩, h.holds, ?_⟩
        rw [List.append_cons]
        exact h.evenEnd

end Text

/-- A literal without its quotes. -/
structure Literal where
  quote : Char
  body : Text
  closed : Bool
deriving DecidableEq, Repr

inductive Passages where
  /-- No literal is left. -/
  | loose (t : Text)
  /-- A passage before the last literal, which is not closed. -/
  | unclosed (before : Text) (quote : Char) (body : Text)
  /-- A passage before a literal that is closed. -/
  | closed (before : Text) (quote : Char) (body : Text) (rest : Passages)
deriving DecidableEq, Repr

namespace Passages

open Text

def source : Passages → Text
  | loose t => t
  | unclosed s q b => s ++ q :: b
  | closed s q b rest => s ++ q :: (b ++ q :: rest.source)

def literals : Passages → List Literal
  | loose _ => []
  | unclosed _ q b => [⟨q, b, false⟩]
  | closed _ q b rest => ⟨q, b, true⟩ :: rest.literals

/-- The literals are those that are read behind `u`. -/
def ReadAfter (u : Text) : Passages → Prop
  | loose t => Lacks IsQuote u t
  | unclosed s q b => FirstAfter IsQuote u s q ∧ Lacks (· = q) (u ++ s ++ [q]) b
  | closed s q b rest => FirstAfter IsQuote u s q ∧ FirstAfter (· = q) (u ++ s ++ [q]) b q ∧
      rest.ReadAfter (u ++ s ++ [q] ++ b ++ [q])

def Reads (p : Passages) (t : Text) : Prop := p.source = t ∧ p.ReadAfter []

variable {p p' : Passages} {u u' t : Text}

theorem ReadAfter.congr (h : EvenEnd u ↔ EvenEnd u') (hp : p.ReadAfter u) : p.ReadAfter u' := by
  have hc : ∀ s : Text, EvenEnd (u ++ s) ↔ EvenEnd (u' ++ s) := fun s => evenEnd_append_congr h
  induction p generalizing u u' with
  | loose t => exact Lacks.congr h hp
  | unclosed s q b =>
    obtain ⟨hq, hb⟩ := hp
    refine ⟨hq.congr h, ?_⟩
    rw [List.append_assoc] at hb ⊢
    exact hb.congr (hc _)
  | closed s q b rest ih =>
    obtain ⟨hq, hb, hr⟩ := hp
    refine ⟨hq.congr h, ?_, ?_⟩
    · rw [List.append_assoc] at hb ⊢
      exact hb.congr (hc _)
    · simp only [List.append_assoc] at hr ⊢
      exact ih (hc _) hr fun s => evenEnd_append_congr (hc _)

theorem exists_readAfter (u t : Text) : ∃ p : Passages, p.source = t ∧ p.ReadAfter u := by
  rcases lacks_or_exists_firstAfter IsQuote u t with h | ⟨s, q, t', ht, hq⟩
  · exact ⟨.loose t, rfl, h⟩
  · rcases lacks_or_exists_firstAfter (· = q) (u ++ s ++ [q]) t' with h | ⟨b, d, t'', ht', hb⟩
    · exact ⟨.unclosed s q t', ht.symm, hq, h⟩
    · obtain rfl : d = q := hb.holds
      have hlt : t''.length < t.length := by
        rw [ht, ht', List.length_append, List.length_cons, List.length_append, List.length_cons]
        omega
      obtain ⟨p, hp, hr⟩ := exists_readAfter (u ++ s ++ [d] ++ b ++ [d]) t''
      refine ⟨.closed s d b p, ?_, hq, hb, hr⟩
      rw [source, hp, ← ht', ← ht]
termination_by t.length

theorem ReadAfter.unique (h : p.ReadAfter u) (h' : p'.ReadAfter u) (hs : p.source = p'.source) :
    p = p' := by
  induction p generalizing u p' with
  | loose t =>
    cases p' with
    | loose t' => exact congrArg loose hs
    | unclosed s q b =>
      obtain rfl : t = s ++ q :: b := hs
      exact absurd h h'.1.not_lacks
    | closed s q b rest =>
      obtain rfl : t = s ++ q :: (b ++ q :: rest.source) := hs
      exact absurd h h'.1.not_lacks
  | unclosed s q b =>
    cases p' with
    | loose t' =>
      obtain rfl : s ++ q :: b = t' := hs
      exact absurd h' h.1.not_lacks
    | unclosed s' q' b' =>
      obtain ⟨rfl, rfl, rfl⟩ := h.1.unique h'.1 hs
      rfl
    | closed s' q' b' rest =>
      obtain ⟨rfl, rfl, rfl⟩ := h.1.unique h'.1 hs
      exact absurd h.2 h'.2.1.not_lacks
  | closed s q b rest ih =>
    cases p' with
    | loose t' =>
      obtain rfl : s ++ q :: (b ++ q :: rest.source) = t' := hs
      exact absurd h' h.1.not_lacks
    | unclosed s' q' b' =>
      obtain ⟨rfl, rfl, rfl⟩ := h.1.unique h'.1 hs
      exact absurd h'.2 h.2.1.not_lacks
    | closed s' q' b' rest' =>
      obtain ⟨rfl, rfl, hb⟩ := h.1.unique h'.1 hs
      obtain ⟨rfl, -, hr⟩ := h.2.1.unique h'.2.1 hb
      rw [ih h.2.2 h'.2.2 hr]

theorem exists_reads_iff (t : Text) : ∃ p, ∀ p' : Passages, p'.Reads t ↔ p' = p := by
  obtain ⟨p, hp, hr⟩ := exists_readAfter [] t
  refine ⟨p, fun p' => ⟨?_, ?_⟩⟩
  · rintro ⟨hp', hr'⟩
    exact hr'.unique hr (hp'.trans hp.symm)
  · rintro rfl
    exact ⟨hp, hr⟩

end Passages

end SourceMarkers
