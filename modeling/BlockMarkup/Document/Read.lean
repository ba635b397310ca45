import BlockMarkup.Document.Body
import BlockMarkup.Failure
import BlockMarkup.Token.Lexer

/-!
# BlockMarkup.Document.Read

Documents from text. `transcribe` makes a document of any text, with an invalid node for every
flaw; `read` accepts only texts without flaws.
-/

namespace BlockMarkup

/-- The document of a text; flaws are nodes of it. -/
def transcribe (text : List Char) : Node := .bare .document (bodyNodes .root (lex .root text))

/-- The label of the first invalid node below a node. -/
def firstInvalid? (n : Node) : Option Label :=
  (Tree.preorderAll n.children).find? fun (l : Label) => l.isA .invalid

/-- A tree is returned as it is, unless there is an invalid node in it. -/
def check (n : Node) : Except ParseFailure Node :=
  match firstInvalid? n with
  | some l => .error ⟨l.head, l.position⟩
  | none => .ok n

/-- The document of a text, with the tokens it was read from if `origin` is true. -/
def transcribeWith (origin : Bool) (text : List Char) : Node :=
  if origin then transcribe text else (transcribe text).forgetOrigin

def read (origin : Bool) (text : List Char) : Except ParseFailure Node :=
  check (transcribeWith origin text)

/-- The first root node of a text. -/
def readNode (origin : Bool) (text : List Char) : Except ParseFailure (Option Node) :=
  match read origin text with
  | .error e => .error e
  | .ok d => .ok d.children.head?

end BlockMarkup
