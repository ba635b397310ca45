/-!
# BlockMarkup.Text.Ranges

Sets of characters given by a table of inclusive ranges.
-/

namespace BlockMarkup
namespace Text

/-- Inclusive ranges of character numbers, in increasing order. -/
abbrev Ranges := List (Nat × Nat)

def Ranges.holds (table : Ranges) (c : Char) : Bool :=
  table.any fun (first, last) => first ≤ c.toNat && c.toNat ≤ last

end Text
end BlockMarkup
