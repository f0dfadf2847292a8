/-! # Texts

A text is a word of Unicode characters. Offsets into a text count the bytes of
its UTF-8 form, and a line break is `\n`. Only the end of a first line may be
`\r\n` as well.
-/

namespace SourceMarkers

/-- A text is the list of its characters. -/
abbrev Text := List Char

namespace Text

def utf8 (t : Text) : List UInt8 := t.flatMap String.utf8EncodeChar

/-- The number of bytes in the UTF-8 form of a text. -/
def size : Text → Nat
  | [] => 0
  | c :: t => c.utf8Size + size t

def breaks (t : Text) : Nat := t.count '\n'

/-- A number in decimal, without leading zeros. -/
def decimal (n : Nat) : Text := Nat.toDigits 10 n

/-- The part of a text before the first occurrence of a word. -/
def before? (word : Text) : Text → Option Text
  | [] => if word.isEmpty then some [] else none
  | c :: t => if word.isPrefixOf (c :: t) then some [] else (before? word t).map (c :: ·)

/-- The part of a text before its first line break. A carriage return right before the line break
belongs to it, one that stands elsewhere is a character of the line. -/
def firstLine : Text → Text
  | [] => []
  | '\n' :: _ => []
  | '\r' :: '\n' :: _ => []
  | c :: t => c :: firstLine t

def lower (t : Text) : Text := t.map Char.toLower

variable {s t : Text} {c : Char}

@[simp] theorem utf8_nil : utf8 [] = [] := rfl

@[simp] theorem utf8_cons : utf8 (c :: t) = String.utf8EncodeChar c ++ utf8 t := rfl

@[simp] theorem utf8_append : utf8 (s ++ t) = utf8 s ++ utf8 t := by
  simp only [utf8, List.flatMap_append]

@[simp] theorem size_nil : size [] = 0 := rfl

@[simp] theorem size_cons : size (c :: t) = c.utf8Size + size t := rfl

@[simp] theorem size_append : size (s ++ t) = size s + size t := by
  induction s with
  | nil => simp
  | cons c s ih => simp [ih, Nat.add_assoc]

@[simp] theorem breaks_nil : breaks [] = 0 := rfl

@[simp] theorem breaks_append : breaks (s ++ t) = breaks s + breaks t := List.count_append

theorem isDigit_of_mem_decimal {n : Nat} (h : c ∈ decimal n) : c.isDigit :=
  Nat.isDigit_of_mem_toDigits (by decide) (Nat.le_refl 10) h

@[simp] theorem length_utf8 : (utf8 t).length = size t := by
  induction t with
  | nil => rfl
  | cons c t ih => simp [ih]

/-- Texts put together with a character between them: it stands behind each but the last. -/
theorem intercalate_concat {ts : List Text} :
    [c].intercalate (ts ++ [t]) = ts.flatMap (· ++ [c]) ++ t := by
  induction ts with
  | nil => exact List.intercalate_singleton
  | cons u ts ih =>
    rw [List.cons_append, List.intercalate_cons_of_ne_nil (by simp), ih, List.flatMap_cons]
    simp only [List.append_assoc]

theorem intercalate_append_singleton {ts : List Text} (h : ts ≠ []) :
    [c].intercalate ts ++ [c] = ts.flatMap (· ++ [c]) := by
  obtain ⟨ts, t, rfl⟩ := (List.eq_nil_or_concat ts).resolve_left h
  rw [List.concat_eq_append, intercalate_concat, List.flatMap_append, List.flatMap_singleton,
    List.append_assoc]

theorem eq_append_of_before?_eq_some {word u : Text} (h : before? word t = some u) :
    ∃ v, t = u ++ word ++ v := by
  induction t generalizing u with
  | nil =>
    simp only [before?] at h
    split at h
    · next hw => simp_all
    · cases h
  | cons c t ih =>
    simp only [before?] at h
    split at h
    · next hw =>
      obtain ⟨v, hv⟩ := List.isPrefixOf_iff_prefix.mp hw
      exact ⟨v, by simp_all⟩
    · obtain ⟨u, hu, rfl⟩ := Option.map_eq_some_iff.mp h
      obtain ⟨v, hv⟩ := ih hu
      exact ⟨v, by simp [hv]⟩

end Text

end SourceMarkers
