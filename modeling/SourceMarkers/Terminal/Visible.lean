import SourceMarkers.Text.Basic

/-! # Control characters made visible

A terminal obeys some control characters instead of showing them. A text that
comes from elsewhere is shown with a number in the place of each of these, so
that it cannot steer the terminal.
-/

namespace SourceMarkers.Terminal

/-- The control characters below U+0080 that can be part of a control sequence or hide what has
been shown. -/
def steering : List Char := ['\x07', '\x08', '\x0c', '\x1b', '\x7f']

/-- A character as it is shown. Its number is in hexadecimal, with two digits below U+0080 and
in braces above. -/
def shown (c : Char) : Text :=
  if c ∈ steering then ['\\', 'x', Nat.digitChar (c.toNat / 16), Nat.digitChar (c.toNat % 16)]
  else if 0x80 ≤ c.toNat ∧ c.toNat ≤ 0x9f then
    '\\' :: 'u' :: '\x7b' :: Nat.toDigits 16 c.toNat ++ ['\x7d']
  else [c]

def visible (t : Text) : Text := t.flatMap shown

end SourceMarkers.Terminal
