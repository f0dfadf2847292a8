import SourceMarkers.Text.Basic

/-! # JSON objects

A JSON object whose values are strings and natural numbers is written without
blanks and with its members in the order given. In a string the quote, the
backslash and the characters below U+0020 are escaped, the short way where
there is one, and every other character stands for itself.
-/

namespace SourceMarkers.Json

inductive Value where
  | string (t : Text)
  | number (n : Nat)
deriving DecidableEq, Repr

def escape (c : Char) : Text :=
  if c = '\x22' then ['\\', '\x22']
  else if c = '\\' then ['\\', '\\']
  else if c = '\n' then ['\\', 'n']
  else if c = '\r' then ['\\', 'r']
  else if c = '\t' then ['\\', 't']
  else if c = '\x08' then ['\\', 'b']
  else if c = '\x0c' then ['\\', 'f']
  else if c.toNat < 0x20 then
    ['\\', 'u', '0', '0', Nat.digitChar (c.toNat / 16), Nat.digitChar (c.toNat % 16)]
  else [c]

def quoted (t : Text) : Text := '\x22' :: t.flatMap escape ++ ['\x22']

def Value.render : Value → Text
  | string t => quoted t
  | number n => Text.decimal n

def member (m : Text × Value) : Text := quoted m.1 ++ ':' :: m.2.render

def object (members : List (Text × Value)) : Text :=
  '\x7b' :: [','].intercalate (members.map member) ++ ['\x7d']

end SourceMarkers.Json
