import Mathlib.Data.List.Basic
import SourceMarkers.Json
import SourceMarkers.Proofs.Readers

/-! # Reading JSON objects

A reader for JSON objects whose values are strings and natural numbers. It takes
every way to write them: any character of a string may be escaped, and there may
be blanks between the tokens. What is written as an object is read as it was, and
an object is written without any control character.
-/

namespace SourceMarkers.Json

open Text (Reader)
open Text.Reader

def hexDigit? (c : Char) : Option Nat :=
  if '0' ≤ c ∧ c ≤ '9' then some (c.toNat - '0'.toNat)
  else if 'a' ≤ c ∧ c ≤ 'f' then some (c.toNat - 'a'.toNat + 10)
  else if 'A' ≤ c ∧ c ≤ 'F' then some (c.toNat - 'A'.toNat + 10)
  else none

def codeUnit : Reader Nat :=
  (one hexDigit?).andThen fun a => (one hexDigit?).andThen fun b =>
    (one hexDigit?).andThen fun c => (one hexDigit?).map fun d => ((a * 16 + b) * 16 + c) * 16 + d

/-- The character that a code unit is by itself. A surrogate is none. -/
def ofUnit? (n : Nat) : Option Char :=
  if 0xd800 ≤ n ∧ n < 0xe000 then none else some (Char.ofNat n)

/-- The character that two surrogates are together. -/
def ofPair? (high low : Nat) : Option Char :=
  if (0xd800 ≤ high ∧ high < 0xdc00) ∧ (0xdc00 ≤ low ∧ low < 0xe000) then
    some (Char.ofNat (0x10000 + (high - 0xd800) * 0x400 + (low - 0xdc00)))
  else none

def coded : Reader Char :=
  let unit := (char 'u').andThen fun _ => codeUnit
  (unit.filterMap ofUnit?).orElse
    (unit.andThen fun high => (char '\\').andThen fun _ => unit.filterMap (ofPair? high))

def short? : Char → Option Char
  | '\x22' => some '\x22'
  | '\\' => some '\\'
  | '/' => some '/'
  | 'b' => some '\x08'
  | 'f' => some '\x0c'
  | 'n' => some '\n'
  | 'r' => some '\r'
  | 't' => some '\t'
  | _ => none

def plain? (c : Char) : Option Char :=
  if c = '\x22' ∨ c = '\\' ∨ c.toNat < 0x20 then none else some c

def character : Reader Char :=
  (one plain?).orElse ((char '\\').andThen fun _ => (one short?).orElse coded)

def string : Reader Text := (char '\x22').andThen fun _ => character.closedBy (char '\x22')

/-- A natural number, which has no leading zeros. -/
def number : Reader Nat where
  read t :=
    let digits := t.takeWhile Char.isDigit
    if digits = [] ∨ (digits.head? = some '0' ∧ digits ≠ ['0']) then none
    else some (Nat.ofDigitChars 10 digits 0, t.dropWhile Char.isDigit)
  length_lt {t n rest} h := by
    dsimp only at h
    split at h
    · cases h
    · next hd =>
      cases h
      have hl := congrArg List.length (@List.takeWhile_append_dropWhile _ Char.isDigit t)
      have hp := List.length_pos_iff.mpr (not_or.mp hd).1
      rw [List.length_append] at hl
      omega

def value : Reader Value := (string.map .string).orElse (number.map .number)

def isBlank (c : Char) : Bool := c = ' ' ∨ c = '\t' ∨ c = '\n' ∨ c = '\r'

def token (c : Char) : Reader Unit := (char c).after isBlank

def memberReader : Reader (Text × Value) :=
  (string.after isBlank).andThen fun key => (token ':').andThen fun _ =>
    (value.after isBlank).map fun v => (key, v)

def objectReader : Reader (List (Text × Value)) :=
  (token '\x7b').andThen fun _ => ((token '\x7d').map fun _ => []).orElse <|
    memberReader.andThen fun m =>
      (((token ',').andThen fun _ => memberReader).closedBy (token '\x7d')).map fun ms => m :: ms

/-- The members of the object that a text is. -/
def members? (t : Text) : Option (List (Text × Value)) :=
  (objectReader.read t).bind fun x => if x.2.all isBlank then some x.1 else none

variable {c d : Char} {n : Nat} {t rest : Text} {m : Text × Value}

theorem hexDigit?_digitChar (h : n < 16) : hexDigit? (Nat.digitChar n) = some n := by
  revert n
  decide

theorem read_codeUnit (h : n < 256) :
    codeUnit.read ('0' :: '0' :: Nat.digitChar (n / 16) :: Nat.digitChar (n % 16) :: t) =
      some (n, t) := by
  have hz : hexDigit? '0' = some 0 := by decide
  have hq : hexDigit? (Nat.digitChar (n / 16)) = some (n / 16) := hexDigit?_digitChar (by omega)
  have hr : hexDigit? (Nat.digitChar (n % 16)) = some (n % 16) := hexDigit?_digitChar (by omega)
  have hn : ((0 * 16 + 0) * 16 + n / 16) * 16 + n % 16 = n := by omega
  rw [codeUnit, read_andThen (read_one hz), read_andThen (read_one hz),
    read_andThen (read_one hq), read_map (read_one hr), hn]

theorem read_plain (h : plain? c = some c) : character.read (c :: t) = some (c, t) :=
  read_orElse_left (read_one h)

theorem read_escaped : character.read ('\\' :: t) = ((one short?).orElse coded).read t := by
  rw [character, read_orElse_right (read_one_eq_none (by decide)), read_andThen read_char]

theorem read_short (h : short? d = some c) : character.read ('\\' :: d :: t) = some (c, t) := by
  rw [read_escaped, read_orElse_left (read_one h)]

theorem read_coded (h : c.toNat < 0x20) :
    character.read ('\\' :: 'u' :: '0' :: '0' :: Nat.digitChar (c.toNat / 16) ::
      Nat.digitChar (c.toNat % 16) :: t) = some (c, t) := by
  have hu : ofUnit? c.toNat = some c := by
    rw [ofUnit?, if_neg (by omega), Char.ofNat_toNat]
  rw [read_escaped, read_orElse_right (read_one_eq_none (by decide))]
  refine read_orElse_left (read_filterMap ?_ hu)
  rw [read_andThen read_char, read_codeUnit (by omega)]

/-- A character is escaped the short way, escaped as a control character or left as it is. -/
theorem escape_cases (c : Char) :
    (∃ d, short? d = some c ∧ escape c = ['\\', d]) ∨
      (c.toNat < 0x20 ∧ escape c = ['\\', 'u', '0', '0', Nat.digitChar (c.toNat / 16),
        Nat.digitChar (c.toNat % 16)]) ∨
      (plain? c = some c ∧ escape c = [c]) := by
  unfold escape
  split
  · next h => exact .inl ⟨'\x22', by rw [h]; rfl, rfl⟩
  split
  · next h => exact .inl ⟨'\\', by rw [h]; rfl, rfl⟩
  split
  · next h => exact .inl ⟨'n', by rw [h]; rfl, rfl⟩
  split
  · next h => exact .inl ⟨'r', by rw [h]; rfl, rfl⟩
  split
  · next h => exact .inl ⟨'t', by rw [h]; rfl, rfl⟩
  split
  · next h => exact .inl ⟨'b', by rw [h]; rfl, rfl⟩
  split
  · next h => exact .inl ⟨'f', by rw [h]; rfl, rfl⟩
  split
  · next h => exact .inr (.inl ⟨h, rfl⟩)
  · next hq hb _ _ _ _ _ hc =>
    refine .inr (.inr ⟨?_, rfl⟩)
    rw [plain?, if_neg]
    exact not_or.mpr ⟨hq, not_or.mpr ⟨hb, hc⟩⟩

theorem read_escape (c : Char) (t : Text) : character.read (escape c ++ t) = some (c, t) := by
  rcases escape_cases c with ⟨d, hd, he⟩ | ⟨hc, he⟩ | ⟨hp, he⟩
  · rw [he]
    exact read_short hd
  · rw [he]
    exact read_coded hc
  · rw [he]
    exact read_plain hp

theorem read_quoted : string.read (quoted t ++ rest) = some (t, rest) := by
  have hq : ∀ c s, (char '\x22').read (escape c ++ s) = none := by
    intro c s
    rcases escape_cases c with ⟨d, -, he⟩ | ⟨-, he⟩ | ⟨hp, he⟩
    · rw [he]
      exact read_char_of_ne (by decide)
    · rw [he]
      exact read_char_of_ne (by decide)
    · rw [he]
      refine read_char_of_ne fun h => ?_
      rw [h] at hp
      cases hp
  rw [quoted, List.cons_append, List.cons_append, List.append_assoc, string,
    read_andThen read_char]
  exact read_closedBy (P := fun _ => True) read_char trivial hq (fun _ _ => trivial)
    (fun c s _ => read_escape c s) t

/-- What may follow a member of an object. -/
def Delimited (t : Text) : Prop := ∃ c s, t = c :: s ∧ (c = ',' ∨ c = '\x7d')

theorem eq_zero_of_head?_decimal (h : (Text.decimal n).head? = some '0') : n = 0 := by
  induction n using Nat.strongRecOn with
  | ind n ih =>
    rw [Text.decimal, Nat.toDigits_eq_if (by decide)] at h
    split at h
    · exact Nat.digitChar_eq_zero.mp (Option.some.inj h)
    · next hn =>
      rw [List.head?_append_of_ne_nil _ Nat.toDigits_ne_nil] at h
      have := ih (n / 10) (by omega) h
      omega

theorem read_decimal (h : Delimited rest) :
    number.read (Text.decimal n ++ rest) = some (n, rest) := by
  have hd : ∀ c ∈ Text.decimal n, c.isDigit := fun _ => Text.isDigit_of_mem_decimal
  obtain ⟨c, s, rfl, hc⟩ := h
  have hc : ¬ c.isDigit := by rcases hc with rfl | rfl <;> decide
  have ht : (Text.decimal n ++ c :: s).takeWhile Char.isDigit = Text.decimal n := by
    rw [List.takeWhile_append_of_pos hd, List.takeWhile_cons_of_neg hc, List.append_nil]
  have hr : (Text.decimal n ++ c :: s).dropWhile Char.isDigit = c :: s := by
    rw [List.dropWhile_append_of_pos hd, List.dropWhile_cons_of_neg hc]
  have hz : ¬ (Text.decimal n = [] ∨
      (Text.decimal n).head? = some '0' ∧ Text.decimal n ≠ ['0']) := by
    rintro (hn | ⟨hh, hn⟩)
    · exact Nat.toDigits_ne_nil hn
    · rw [eq_zero_of_head?_decimal hh] at hn
      exact hn rfl
  have hv : Nat.ofDigitChars 10 (Text.decimal n) 0 = n := Nat.ofDigitChars_ten_toDigits
  simp only [number, ht, hr, if_neg hz, hv]

theorem read_token (hc : ¬ isBlank c) : (token c).read (c :: t) = some ((), t) := by
  rw [token, read_after hc, read_char]

theorem read_token_of_ne (hd : ¬ isBlank d) (h : d ≠ c) : (token c).read (d :: t) = none := by
  rw [token, read_after hd, read_char_of_ne h]

theorem not_isBlank_of_isDigit (h : c.isDigit) : ¬ isBlank c := by
  intro hb
  rcases of_decide_eq_true hb with rfl | rfl | rfl | rfl <;> exact absurd h (by decide)

theorem read_value {v : Value} (h : Delimited rest) :
    (value.after isBlank).read (v.render ++ rest) = some (v, rest) := by
  cases v with
  | string t =>
    rw [Value.render, quoted, List.cons_append, List.cons_append, read_after (by decide)]
    exact read_orElse_left (read_map read_quoted)
  | number n =>
    obtain ⟨d, ds, hds⟩ : ∃ d ds, Text.decimal n = d :: ds :=
      List.exists_cons_of_ne_nil Nat.toDigits_ne_nil
    have hd : d.isDigit := Text.isDigit_of_mem_decimal (hds ▸ List.mem_cons_self)
    have hq : d ≠ '\x22' := by
      rintro rfl
      exact absurd hd (by decide)
    have hn := read_map (f := Value.number) (read_decimal (n := n) h)
    rw [hds, List.cons_append] at hn
    rw [Value.render, hds, List.cons_append, read_after (not_isBlank_of_isDigit hd)]
    refine (read_orElse_right ?_).trans hn
    exact read_map_eq_none (read_andThen_eq_none (read_char_of_ne hq))

theorem read_member (h : Delimited rest) :
    memberReader.read (member m ++ rest) = some (m, rest) := by
  obtain ⟨key, v⟩ := m
  rw [member, List.append_assoc, List.cons_append, memberReader]
  have hk : (string.after isBlank).read (quoted key ++ ':' :: (v.render ++ rest)) =
      some (key, ':' :: (v.render ++ rest)) := by
    rw [← read_quoted (t := key), quoted, List.cons_append, List.cons_append,
      read_after (by decide)]
  rw [read_andThen hk, read_andThen (read_token (by decide)), read_map (read_value h)]

theorem intercalate_cons {t : Text} {ts : List Text} :
    [c].intercalate (t :: ts) = t ++ ts.flatMap (c :: ·) := by
  induction ts generalizing t with
  | nil => simp
  | cons u ts ih =>
    rw [List.intercalate_cons_cons, ih, List.flatMap_cons]
    simp

theorem object_cons (m : Text × Value) (ms : List (Text × Value)) :
    object (m :: ms) =
      '\x7b' :: (member m ++ (ms.flatMap (fun m => ',' :: member m) ++ ['\x7d'])) := by
  rw [object, List.map_cons, intercalate_cons, List.flatMap_map, List.cons_append,
    List.append_assoc]

theorem read_members (ms : List (Text × Value)) (rest : Text) :
    (((token ',').andThen fun _ => memberReader).closedBy (token '\x7d')).read
        (ms.flatMap (fun m => ',' :: member m) ++ (['\x7d'] ++ rest)) = some (ms, rest) := by
  refine read_closedBy (P := Delimited) (w := fun m => ',' :: member m) ?_ ?_ ?_ ?_ ?_ ms
  · exact read_token (by decide)
  · exact ⟨'\x7d', rest, rfl, .inr rfl⟩
  · exact fun m t => read_token_of_ne (by decide) (by decide)
  · exact fun m t => ⟨',', member m ++ t, rfl, .inl rfl⟩
  · intro m t ht
    rw [List.cons_append, read_andThen (read_token (by decide)), read_member ht]

theorem delimited_members (ms : List (Text × Value)) (rest : Text) :
    Delimited (ms.flatMap (fun m => ',' :: member m) ++ (['\x7d'] ++ rest)) := by
  cases ms with
  | nil => exact ⟨'\x7d', rest, rfl, .inr rfl⟩
  | cons m ms => exact ⟨',', _, rfl, .inl rfl⟩

theorem read_object (ms : List (Text × Value)) (rest : Text) :
    objectReader.read (object ms ++ rest) = some (ms, rest) := by
  unfold objectReader
  cases ms with
  | nil =>
    have he : object [] ++ rest = '\x7b' :: '\x7d' :: rest := rfl
    rw [he, read_andThen (read_token (by decide))]
    exact read_orElse_left (read_map (read_token (by decide)))
  | cons m ms =>
    rw [object_cons, List.cons_append, List.append_assoc, List.append_assoc,
      read_andThen (read_token (by decide)), read_orElse_right,
      read_andThen (read_member (delimited_members ms rest)), read_map (read_members ms rest)]
    exact read_map_eq_none (read_token_of_ne (by decide) (by decide))

@[simp] theorem members?_object (ms : List (Text × Value)) : members? (object ms) = some ms := by
  have h := read_object ms []
  rw [List.append_nil] at h
  rw [members?, h]
  rfl

/-- Escaped surrogates and blanks are read as well. -/
example : members? "\x7b \"\\u00E9\\ud83d\\ude00\\/\" : 10 ,\"b\":\"\"\x7d\n".toList =
    some [("é😀/".toList, .number 10), (['b'], .string [])] := by
  decide +kernel

def NoControls (t : Text) : Prop := ∀ c ∈ t, 0x20 ≤ c.toNat

theorem noControls_cons : NoControls (c :: t) ↔ 0x20 ≤ c.toNat ∧ NoControls t :=
  List.forall_mem_cons

theorem noControls_append {s : Text} : NoControls (s ++ t) ↔ NoControls s ∧ NoControls t :=
  List.forall_mem_append

theorem noControls_flatMap {α : Type} {f : α → Text} {l : List α} (h : ∀ a, NoControls (f a)) :
    NoControls (l.flatMap f) := by
  intro c hc
  obtain ⟨a, -, ha⟩ := List.mem_flatMap.mp hc
  exact h a c ha

theorem le_toNat_of_short? (h : short? d = some c) : 0x20 ≤ d.toNat := by
  unfold short? at h
  split at h
  all_goals first | decide | cases h

theorem le_toNat_of_plain? (h : plain? d = some c) : 0x20 ≤ d.toNat := by
  unfold plain? at h
  split at h
  · cases h
  · next hd => exact Nat.not_lt.mp fun hl => hd (.inr (.inr hl))

theorem noControls_escape (c : Char) : NoControls (escape c) := by
  have hx : ∀ n < 16, 0x20 ≤ (Nat.digitChar n).toNat := by decide
  rcases escape_cases c with ⟨d, hd, he⟩ | ⟨hc, he⟩ | ⟨hp, he⟩
  · rw [he, noControls_cons, noControls_cons]
    exact ⟨by decide, le_toNat_of_short? hd, List.forall_mem_nil _⟩
  · have hq := hx (c.toNat / 16) (by omega)
    have hr := hx (c.toNat % 16) (by omega)
    simp only [he, noControls_cons]
    exact ⟨by decide, by decide, by decide, by decide, hq, hr, List.forall_mem_nil _⟩
  · rw [he, noControls_cons]
    exact ⟨le_toNat_of_plain? hp, List.forall_mem_nil _⟩

theorem noControls_quoted : NoControls (quoted t) := by
  have hq : NoControls ['\x22'] := noControls_cons.mpr ⟨by decide, List.forall_mem_nil _⟩
  rw [quoted, List.cons_append, noControls_cons, noControls_append]
  exact ⟨by decide, noControls_flatMap noControls_escape, hq⟩

theorem noControls_decimal : NoControls (Text.decimal n) := by
  intro c hc
  have hd := Char.isDigit_iff_toNat.mp (Text.isDigit_of_mem_decimal hc)
  exact Nat.le_trans (by decide) hd.1

theorem noControls_render (v : Value) : NoControls v.render := by
  cases v with
  | string t => exact noControls_quoted
  | number n => exact noControls_decimal

theorem noControls_member (m : Text × Value) : NoControls (member m) := by
  rw [member, noControls_append, noControls_cons]
  exact ⟨noControls_quoted, by decide, noControls_render m.2⟩

theorem noControls_object (ms : List (Text × Value)) : NoControls (object ms) := by
  have he : NoControls ['\x7d'] := noControls_cons.mpr ⟨by decide, List.forall_mem_nil _⟩
  cases ms with
  | nil => exact noControls_cons.mpr ⟨by decide, he⟩
  | cons m ms =>
    rw [object_cons, noControls_cons, noControls_append, noControls_append]
    refine ⟨by decide, noControls_member m, noControls_flatMap fun m => ?_, he⟩
    exact noControls_cons.mpr ⟨by decide, noControls_member m⟩

end SourceMarkers.Json
