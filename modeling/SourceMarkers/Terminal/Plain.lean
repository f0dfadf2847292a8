import SourceMarkers.Text.Basic

/-! # Text without control sequences

A text that is made for a terminal has its words set off by control sequences.
Where there is no terminal the sequences are left out, and so are the control
characters that stand alone, except for blanks. A sequence begins with an escape
character, and what follows it tells where the sequence ends. Another escape
character begins a new one.
-/

namespace SourceMarkers.Terminal

/-- Where in a control sequence a text has come to. -/
inductive Progress where
  /-- In none. -/
  | outside
  /-- After the escape character. -/
  | escape
  /-- In a sequence of intermediate characters and a final one. -/
  | short
  /-- In a sequence of parameters and a final character. -/
  | parameters
  /-- In a command of the operating system, which a bell ends. -/
  | command
  /-- At the beginning of a string for the device. -/
  | device
  /-- In the parameters of a string for the device. -/
  | deviceParameters
  /-- In the intermediate characters of a string for the device. -/
  | deviceIntermediate
  /-- In a string. -/
  | string
deriving DecidableEq, Repr

def between (low high : Nat) (c : Char) : Bool := low ≤ c.toNat && c.toNat ≤ high

def isControlBlank (c : Char) : Bool := c = '\t' || c = '\n' || c = '\x0c' || c = '\r'

def isPlain (c : Char) : Bool := isControlBlank c || between 0x20 0x7e c || 0x80 ≤ c.toNat

namespace Progress

/-- Where a character leads that is part of a sequence. A character that has no meaning there
is passed over. -/
def advance (p : Progress) (c : Char) : Progress :=
  if c = '\x1b' then escape
  else if c = '\x18' || c = '\x1a' then outside
  else match p with
    | outside => outside
    | escape =>
      if c = '[' then parameters
      else if c = ']' then command
      else if c = 'P' then device
      else if c = 'X' || c = '^' || c = '_' then string
      else if between 0x20 0x2f c then short
      else if between 0x30 0x7e c then outside
      else escape
    | short => if between 0x30 0x7e c then outside else short
    | parameters => if between 0x40 0x7e c then outside else parameters
    | command => if c = '\x07' then outside else command
    | device =>
      if between 0x20 0x2f c then deviceIntermediate
      else if between 0x30 0x3f c then deviceParameters
      else if between 0x40 0x7e c then string
      else device
    | deviceParameters =>
      if between 0x20 0x2f c then deviceIntermediate
      else if between 0x3c 0x7e c then string
      else deviceParameters
    | deviceIntermediate => if between 0x30 0x7e c then string else deviceIntermediate
    | string => if 0x9c ∈ String.utf8EncodeChar c then outside else string

def admitsBlank : Progress → Bool
  | escape | short | parameters => true
  | _ => false

end Progress

/-- The state of reading a text. Once a character has been kept, those after it are kept too
up to the next control character, even if a sequence that a blank has interrupted is unfinished. -/
structure Reading where
  progress : Progress := .outside
  /-- The last character has been kept. -/
  kept : Bool := false
deriving DecidableEq, Repr

def Reading.next (r : Reading) (c : Char) : Reading :=
  if isPlain c && (r.kept || r.progress = .outside) then
    ⟨if 0x80 ≤ c.toNat then .outside else r.progress, true⟩
  else if isControlBlank c && r.progress.admitsBlank then ⟨r.progress, true⟩
  else ⟨r.progress.advance c, false⟩

def plainFrom (r : Reading) : Text → Text
  | [] => []
  | c :: t => if (r.next c).kept then c :: plainFrom (r.next c) t else plainFrom (r.next c) t

def plain (t : Text) : Text := plainFrom {} t

def marked (t : Text) : Text := "\x1b[1m".toList ++ t ++ "\x1b[0m".toList

end SourceMarkers.Terminal
