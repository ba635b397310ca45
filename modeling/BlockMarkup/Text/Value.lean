import BlockMarkup.Text.Quoted

/-!
# BlockMarkup.Text.Value

Values of any shape, and how a message shows them: `Value.shown`.
-/

namespace BlockMarkup
namespace Text

inductive Value where
  | none
  | flag (b : Bool)
  | number (n : Int)
  | text (s : List Char)
  | list (vs : List Value)
  | table (entries : List (List Char × Value))
  /-- A value that has a printed form of its own. -/
  | printed (s : List Char)
deriving Inhabited

namespace Value

mutual

def shown : Value → List Char
  | .none => "None".toList
  | .flag true => "True".toList
  | .flag false => "False".toList
  | .number n => (toString n).toList
  | .text s => quoted s
  | .list vs => '[' :: (shownItems vs ++ [']'])
  | .table es => '\x7b' :: (shownEntries es ++ ['\x7d'])
  | .printed s => s

def shownItems : List Value → List Char
  | [] => []
  | [v] => shown v
  | v :: vs => shown v ++ ", ".toList ++ shownItems vs

def shownEntries : List (List Char × Value) → List Char
  | [] => []
  | [(k, v)] => quoted k ++ ": ".toList ++ shown v
  | (k, v) :: es => quoted k ++ ": ".toList ++ shown v ++ ", ".toList ++ shownEntries es

end

end Value

end Text
end BlockMarkup
