import BlockMarkup.Text.HiddenTable

/-!
# BlockMarkup.Text.Quoted

Text shown between quotes, on one line and with visible characters only: `quoted`, and `abridged`,
which keeps the two ends of a long text.
-/

namespace BlockMarkup
namespace Text

/-- The quote around a text: the double one only where it saves escapes. -/
def quoteFor (s : List Char) : Char :=
  if s.contains '\'' && !s.contains '"' then '"' else '\''

/-- The last `width` digits of `n` in base sixteen, in lower case. -/
def hex : Nat → Nat → List Char
  | 0, _ => []
  | width + 1, n => hex width (n / 16) ++ [Nat.digitChar (n % 16)]

/-- A character as it stands between the quotes `q`. -/
def escaped (q : Char) (c : Char) : List Char :=
  let n := c.toNat
  if c = q || c = '\\' then ['\\', c]
  else if c = '\n' then ['\\', 'n']
  else if c = '\r' then ['\\', 'r']
  else if c = '\t' then ['\\', 't']
  else if n < 0x20 || (0x7f ≤ n && n ≤ 0xa0) || n = 0xad then '\\' :: 'x' :: hex 2 n
  else if n < 0x7f || !hiddenRanges.holds c then [c]
  else if n < 0x10000 then '\\' :: 'u' :: hex 4 n
  else '\\' :: 'U' :: hex 8 n

def quoted (s : List Char) : List Char :=
  let q := quoteFor s
  q :: (s.flatMap (escaped q) ++ [q])

/-- The last characters of a text, from `length - n` on; a place before the start counts from the
end. -/
def fromEnd (n : Nat) (s : List Char) : List Char :=
  if n ≤ s.length then s.drop (s.length - n) else s.drop (2 * s.length - n)

/-- The quoted form cut to thirty characters, with an ellipsis for what is left out. -/
def abridged (s : List Char) : List Char :=
  let short := quoted (s.take 30)
  if short.length ≤ 30 then short
  else
    let ends := quoted (s.take 13 ++ fromEnd 14 s)
    ends.take 13 ++ "...".toList ++ fromEnd 14 ends

end Text
end BlockMarkup
