import BlockMarkup.Text.WordTable

/-!
# BlockMarkup.Text.Word

The characters names are made of: `isWord`, and `startsName` for the first one of a name.
-/

namespace BlockMarkup
namespace Text

/-- A lower case letter of ASCII. -/
def isLower (c : Char) : Bool := 'a' ≤ c && c ≤ 'z'

/-- A digit of ASCII. -/
def isAsciiDigit (c : Char) : Bool := '0' ≤ c && c ≤ '9'

/-- A letter, a numeral or the underscore. -/
def isWord (c : Char) : Bool :=
  if c.toNat < 128 then
    isLower c || ('A' ≤ c && c ≤ 'Z') || isAsciiDigit c || c == '_'
  else wordRanges.holds c

/-- A decimal digit of any script. -/
def isDigit (c : Char) : Bool :=
  if c.toNat < 128 then isAsciiDigit c else digitRanges.holds c

/-- A name starts with a word character that is not a decimal digit. -/
def startsName (c : Char) : Bool := isWord c && !isDigit c

/-- A character of a tag after its first one. -/
def continuesTag (c : Char) : Bool := isLower c || isAsciiDigit c || c == '_'

end Text
end BlockMarkup
