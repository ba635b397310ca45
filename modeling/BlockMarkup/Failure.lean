import BlockMarkup.Node.Make

/-!
# BlockMarkup.Failure

How reading and formatting can fail, by cause; `message` gives each cause its words.
-/

namespace BlockMarkup

/-- The words for a head; a lost head has a word too. -/
def shownHead : Option (List Char) → List Char
  | some s => s
  | none => "None".toList

/-- The text is no valid markup. -/
structure ParseFailure where
  head : Option (List Char)
  pos : Option Int
deriving DecidableEq, Repr

namespace ParseFailure

/-- The words for a problem at a position, if that is known. -/
def located (words : List Char) : Option Int → List Char
  | none => words
  | some p => words ++ " (at position ".toList ++ Text.decimal p ++ [')']

def message (f : ParseFailure) : List Char := located (shownHead f.head) f.pos

end ParseFailure

/-- A tree that has no written form. -/
inductive Unsupported where
  | node (n : Node)
  | misplaced (child parent : Node)
  | secondKey (key element : Node)
  | noValue
  | quotedName (n : Node)

namespace Unsupported

/-- The node at fault, if there is one. -/
def culprit? : Unsupported → Option Node
  | .node n => some n
  | .misplaced child _ => some child
  | .secondKey key _ => some key
  | .noValue => none
  | .quotedName n => some n

def message : Unsupported → List Char
  | .node n => "can't format ".toList ++ n.describe
  | .misplaced child parent =>
    "can't format ".toList ++ child.describe ++ " in ".toList ++ parent.describe
  | .secondKey _ element => "more than one key in ".toList ++ element.describe
  | .noValue => "missing or invalid value for None".toList
  | .quotedName n =>
    "can't format attribute with a quoted name: ".toList ++ shownHead n.head

end Unsupported

/-- Why a sink refused a text. -/
inductive SinkCause where
  | system
  | memory
  | value
deriving DecidableEq, Repr

structure SinkFault where
  cause : SinkCause
  message : List Char
deriving DecidableEq, Repr

/-- Why an expression has no rendered text. -/
inductive RenderFault where
  /-- The expression has lost its head. -/
  | noHead
  /-- There is no renderer. -/
  | noRenderer
  /-- The renderer leaves rendering to others. -/
  | notImplemented
deriving DecidableEq, Repr

inductive Failure where
  | parse (f : ParseFailure)
  | unsupported (u : Unsupported)
  | write (f : SinkFault)
  /-- The sink refused the text for a reason of its own. -/
  | sink (f : SinkFault)
  /-- A name that has to be written is lost. -/
  | noName
  | render (f : RenderFault)
  /-- A node that was to be written could not be made. -/
  | make (f : MakeFault)
  /-- The node has no written form to ask for. -/
  | notDefined

namespace Failure

/-- The failure of a formatting run whose sink refused a text. -/
def ofSink (f : SinkFault) : Failure :=
  match f.cause with
  | .system | .memory => .write f
  | .value => .sink f

/-- The words of a failure to format; other failures have none. -/
def message? : Failure → Option (List Char)
  | .parse f => some f.message
  | .unsupported u => some u.message
  | .write f => some ("can't write output: ".toList ++ f.message)
  | _ => none

end Failure

/-- The classes of failures to format. -/
inductive FailureClass where
  | general
  | parse
  | unsupported
  | write
deriving DecidableEq, Repr

/-- What a caller that knows nothing of formatting can tell about a failure. -/
inductive FailureKind where
  | format
  | value
  | notImplemented
  | system
  | any
deriving DecidableEq, Repr

namespace FailureClass

/-- The kinds that a class specialises directly. -/
def bases : FailureClass → List FailureKind
  | .general => [.any]
  | .parse => [.format, .value]
  | .unsupported => [.format, .notImplemented]
  | .write => [.format, .system]

/-- All kinds of a class. -/
def kinds (c : FailureClass) : List FailureKind :=
  [.format, .value, .notImplemented, .system, .any].filter fun k =>
    k = .format || k = .any || c.bases.contains k

/-- The words of a failure that is given a message and, perhaps, a position. -/
def words (c : FailureClass) (message : List Char) (pos : Option (Option Int)) : List Char :=
  match c, pos with
  | _, none => message
  | .parse, some p => ParseFailure.located message p
  | .unsupported, some _ => message
  | .general, some p =>
    '(' :: (Text.quoted message ++ ", ".toList ++ shownHead (p.map Text.decimal) ++ [')'])
  | .write, some p =>
    "[Errno ".toList ++ message ++ "] ".toList ++ shownHead (p.map Text.decimal)

end FailureClass
end BlockMarkup
