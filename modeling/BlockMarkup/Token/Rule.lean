import BlockMarkup.Token.Pattern

/-!
# BlockMarkup.Token.Rule

The rules of every mode: `Mode.rules` lists them in the order in which they are tried, and
`Mode.search` finds the first place in a text where one of them matches.
-/

namespace BlockMarkup

/-- What a rule does with the text it matched. -/
inductive Effect where
  | skip
  | emit (cls : TokenClass)
deriving DecidableEq, Repr

/-- Where the lexer goes after a match. -/
inductive Move where
  | stay
  | pop
  | push (mode : Mode)
deriving DecidableEq, Repr

structure Rule where
  pattern : Pattern
  effect : Effect
  move : Move := .stay
deriving DecidableEq, Repr

namespace Rule

/-- White space, comments and separators between the nodes of a body. -/
def trivia : List Rule :=
  [⟨.blanks, .skip, .stay⟩,
   ⟨.lineComment, .skip, .stay⟩,
   ⟨.blockComment, .skip, .stay⟩,
   ⟨.separator, .emit .separator, .stay⟩]

/-- The nodes of a body. -/
def body : List Rule :=
  trivia ++
  [⟨.decorator, .emit .decorator, .push .decoration⟩,
   ⟨.string, .emit .string, .stay⟩,
   ⟨.opener, .emit .bracket, .push .rawExpression⟩,
   ⟨.tag, .emit .tag, .push .element⟩,
   ⟨.path, .emit .path, .push .component⟩]

/-- The tokens of an expression. -/
def expression : List Rule :=
  [⟨.hashString, .emit .rawString, .stay⟩,
   ⟨.rawString, .emit .rawString, .stay⟩,
   ⟨.string, .emit .string, .stay⟩,
   ⟨.quote, .emit .stray, .stay⟩,
   ⟨.char, .emit .char, .stay⟩,
   ⟨.lineComment, .emit .comment, .stay⟩,
   ⟨.blockComment, .emit .comment, .stay⟩,
   ⟨.groupOpener, .emit .bracket, .push .group⟩,
   ⟨.blanks, .emit .blank, .stay⟩,
   ⟨.run, .emit .text, .stay⟩]

/-- The first rule that matches at the front of a text, with the length of its match. -/
def first? (rules : List Rule) (s : List Char) : Option (Nat × Rule) :=
  rules.findSome? fun r => (r.pattern.length? s).map fun n => (n, r)

end Rule

namespace Mode

open Rule in
def rules : Mode → List Rule
  | .root => body
  | .element =>
    [⟨.closer, .emit .bracket, .pop⟩,
     ⟨.name, .emit .name, .push .attribute⟩,
     ⟨.quotedName, .emit .name, .push .attribute⟩] ++ body
  | .component =>
    [⟨.closer, .emit .bracket, .pop⟩,
     ⟨.name, .emit .name, .push .attribute⟩,
     ⟨.dots, .emit .operator, .push .spread⟩] ++ body
  | .attribute =>
    [⟨.separator, .emit .separator, .pop⟩,
     ⟨.closerAhead, .skip, .pop⟩,
     ⟨.lastString, .emit .string, .pop⟩] ++ Rule.expression
  | .spread =>
    [⟨.spreadEnd, .skip, .pop⟩,
     ⟨.spaces, .emit .blank, .stay⟩] ++ Rule.expression
  | .rawExpression =>
    [⟨.closer, .emit .bracket, .pop⟩,
     ⟨.separator, .emit .text, .stay⟩] ++ Rule.expression
  | .decoration =>
    [⟨.decoratorEnd, .emit .decorator, .pop⟩,
     ⟨.separator, .emit .text, .stay⟩] ++ Rule.expression
  | .group =>
    [⟨.groupCloser, .emit .bracket, .pop⟩,
     ⟨.separator, .emit .text, .stay⟩] ++ Rule.expression
  | .expression => ⟨.looseMark, .emit .text, .stay⟩ :: Rule.expression

/-- A match of a rule: how many characters are passed over before it, and how many it takes. -/
structure Hit where
  skipped : Nat
  length : Nat
  rule : Rule
deriving DecidableEq, Repr

/-- The match at the first place where any rule of the mode matches. -/
def search (m : Mode) : List Char → Option Hit
  | [] => none
  | c :: s =>
    match Rule.first? m.rules (c :: s) with
    | some (n, r) => some ⟨0, n, r⟩
    | none => (m.search s).map fun h => { h with skipped := h.skipped + 1 }

end Mode
end BlockMarkup
