import Lambdict.Text.Blank

/-!
# Words

A setting is given as a word, whatever the case of its letters and the blanks around it.
-/

namespace Lambdict.Text

/-- A character in lower case, as far as words of ASCII letters can tell: the capital letters of
ASCII, and the Kelvin sign, whose lower case is the letter `k`. No other character has a lower case
that is one ASCII letter. -/
def lowerChar (c : Char) : Char :=
  if c.toNat = 0x212A then 'k' else c.toLower

/-- The word that a text gives. -/
def word (s : String) : String :=
  String.ofList ((trimBlank s).toList.map lowerChar)

/-- Whether a text is empty but for blanks. -/
def isBlankText (s : String) : Bool :=
  s.toList.all isBlank

end Lambdict.Text
