import SourceMarkers.Text.Basic

/-! # Reading literals

A string or character literal is opened by a quote and closed by the next quote
of the same sort. A quote after an odd run of backslashes is escaped, and does
neither. A reading is what has to be remembered between two characters: the
quote of the literal that is open, if one is, and the length of the run of
backslashes that has just been read.

Readings see a character only as a glyph. Bytes are read as the characters with
the same code, so that a text and its UTF-8 form are read alike.
-/

namespace SourceMarkers

inductive Quote where
  | single
  | double
deriving DecidableEq, Repr

/-- What a character stands for when literals and parentheses are read. -/
inductive Glyph where
  | backslash
  | quote (q : Quote)
  | opening
  | closing
  | comma
  | plain
deriving DecidableEq, Repr

namespace Glyph

def ofChar (c : Char) : Glyph :=
  if c = '\\' then .backslash
  else if c = '\x22' then .quote .double
  else if c = '\x27' then .quote .single
  else if c = '(' then .opening
  else if c = ')' then .closing
  else if c = ',' then .comma
  else .plain

def ofByte (b : UInt8) : Glyph := ofChar (Char.ofUInt8 b)

def ofText (t : Text) : List Glyph := t.map ofChar

def ofBytes (bytes : List UInt8) : List Glyph := bytes.map ofByte

variable {s t : Text} {c : Char}

@[simp] theorem ofText_nil : ofText [] = [] := rfl

@[simp] theorem ofText_cons : ofText (c :: t) = ofChar c :: ofText t := rfl

@[simp] theorem ofText_append : ofText (s ++ t) = ofText s ++ ofText t := List.map_append

@[simp] theorem length_ofText : (ofText t).length = t.length := List.length_map _

theorem ofText_take (k : Nat) : ofText (t.take k) = (ofText t).take k := List.map_take

theorem ofChar_eq_closing_iff : ofChar c = .closing ↔ c = ')' := by
  unfold ofChar; grind

theorem ofChar_eq_comma_iff : ofChar c = .comma ↔ c = ',' := by
  unfold ofChar; grind

theorem ofChar_eq_backslash_iff : ofChar c = .backslash ↔ c = '\\' := by
  unfold ofChar; grind

end Glyph

/-- The state between two characters of a text in which literals are read. -/
structure Reading where
  /-- The quote of the open literal, if one is open. -/
  quote : Option Quote := none
  /-- The length of the run of backslashes just read. -/
  backslashes : Nat := 0
deriving DecidableEq, Repr

namespace Reading

def start : Reading := {}

def escaped (r : Reading) : Bool := r.backslashes % 2 = 1

def outside (r : Reading) : Bool := r.quote.isNone

def quoteAfter (r : Reading) : Glyph → Option Quote
  | .quote q =>
    if r.escaped then r.quote
    else match r.quote with
      | none => some q
      | some p => if p = q then none else some p
  | _ => r.quote

def step (r : Reading) (g : Glyph) : Reading where
  quote := r.quoteAfter g
  backslashes := if g = .backslash then r.backslashes + 1 else 0

def run (r : Reading) (gs : List Glyph) : Reading := gs.foldl step r

variable {r : Reading} {g : Glyph} {gs hs : List Glyph}

@[simp] theorem run_nil : r.run [] = r := rfl

@[simp] theorem run_cons : r.run (g :: gs) = (r.step g).run gs := rfl

@[simp] theorem run_append : r.run (gs ++ hs) = (r.run gs).run hs := List.foldl_append

theorem outside_iff : r.outside ↔ r.quote = none := Option.isNone_iff_eq_none

end Reading

end SourceMarkers
