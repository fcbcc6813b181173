import Lambdict.Text.Printable

/-!
# Quoted texts

A message that names a text shows it between quotes, so that its ends can be seen. The mark is the
single quote, unless the text holds a single quote and no double quote; then it is the double quote.
A backslash, the mark in use and the characters that are not printable are escaped, hence a quoted
text is one line of printable characters.
-/

namespace Lambdict.Text

/-- The hexadecimal digits of a number, in lower case, padded with zeros to a width. -/
def hexPadded (width n : Nat) : List Char :=
  let ds := Nat.toDigits 16 n
  List.replicate (width - ds.length) '0' ++ ds

/-- A character by its number, in the shortest of the three widths that hold it. -/
def escapeByNumber (c : Char) : List Char :=
  let n := c.toNat
  if n < 0x100 then '\\' :: 'x' :: hexPadded 2 n
  else if n < 0x10000 then '\\' :: 'u' :: hexPadded 4 n
  else '\\' :: 'U' :: hexPadded 8 n

/-- A character as it stands between two marks. -/
def escapeFor (mark c : Char) : List Char :=
  if c = '\\' ∨ c = mark then ['\\', c]
  else if c = '\n' then ['\\', 'n']
  else if c = '\t' then ['\\', 't']
  else if c = '\r' then ['\\', 'r']
  else if isPrintable c then [c]
  else escapeByNumber c

/-- The mark that quotes a text. -/
def markFor (cs : List Char) : Char :=
  if cs.contains '\x27' && !cs.contains '\x22' then '\x22' else '\x27'

/-- A text between quotes. -/
def quoted (s : String) : String :=
  let cs := s.toList
  let mark := markFor cs
  String.ofList (mark :: cs.flatMap (escapeFor mark) ++ [mark])

/-- The mark in use never stands bare between the marks. -/
theorem escapeFor_mark (mark : Char) : escapeFor mark mark = ['\\', mark] := by
  simp [escapeFor]

end Lambdict.Text
