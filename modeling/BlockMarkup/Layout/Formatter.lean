import BlockMarkup.Expression.Renderer
import BlockMarkup.Layout.Script

/-!
# BlockMarkup.Layout.Formatter

The canonical layout of nodes, one item a line and blocks indented:

* `Formatter.node` is the script of one body node.
* `Formatter.nodes` is the script of root nodes, `Formatter.specs` that of root nodes to be made.
* `Formatter.write` is the text of any node.
-/

namespace BlockMarkup

structure Formatter where
  indentWidth : Int := 4
  startIndent : Int := 0
  renderer : Renderer := .tidy

/-- The white space of `depth` levels; neither width nor depth counts below zero. -/
def indent (width depth : Int) : List Char := List.replicate (width.toNat * depth.toNat) ' '

/-- A text between double quotes. -/
def inQuotes (head : Option (List Char)) : List Char := '"' :: (shownHead head ++ ['"'])

namespace Formatter

def tabs (f : Formatter) (depth : Int) : Script := .write (indent f.indentWidth depth)

/-- A line of its own. -/
def line (f : Formatter) (depth : Int) (text : List Char) : Script :=
  f.tabs depth ++ .write (text ++ ['\n'])

/-- A line that needs the name or the text of a node. -/
def headLine (f : Formatter) (depth : Int) (head : Option (List Char)) (tail : List Char) :
    Script :=
  match head with
  | some s => f.line depth (s ++ tail)
  | none => f.tabs depth ++ .fail .noName

/-- The lines of a value after its first one, from line `i` on. Lines that start inside a literal
have no indent. -/
def furtherLines (f : Formatter) (depth : Int) (literal : List Nat) :
    Nat → List (List Char) → Script
  | _, [] => .empty
  | i, l :: ls =>
    .write ['\n'] ++ (if literal.contains i then .empty else f.tabs depth) ++ .write l ++
      f.furtherLines depth literal (i + 1) ls

/-- A value of one or more lines behind a lead. -/
def valueLines (f : Formatter) (depth : Int) (lead tail : List Char) (ls : List (List Char)) :
    Script :=
  match ls with
  | [] => .empty
  | first :: rest =>
    let literal := if rest.isEmpty then [] else literalLines (Text.unlines ls)
    f.tabs depth ++ .write (lead ++ first) ++ f.furtherLines depth literal 1 rest ++
      .write (tail ++ ['\n'])

/-- The line or lines of a value, from `lead` to `tail`. -/
def value (f : Formatter) (depth : Int) (lead tail : List Char) : Option Node → Script
  | none => .unsupported .noValue
  | some v =>
    if v.isA .string then f.valueLines depth lead tail [inQuotes v.head]
    else
      match f.renderer.lines v with
      | .error e => .fail (.render e)
      | .ok ls => f.valueLines depth lead tail ls

/-- The value of an attribute or a field, behind its name. -/
def nameValue (f : Formatter) (depth : Int) (n : Node) : Script :=
  match n.head with
  | none => .fail .noName
  | some name => f.value depth (name ++ [':', ' ']) [','] n.value?

def keyLine (f : Formatter) (depth : Int) (hasAttributes : Bool) (n : Node) : Script :=
  f.tabs depth ++ .write ("key: ".toList ++ inQuotes n.head) ++
    .write (if hasAttributes then [',', '\n'] else ['\n'])

/-- An attribute of an element, by its exact class. -/
def attributeLines (f : Formatter) (depth : Int) (n : Node) : Script :=
  match n.cls with
  | ⟨.textAttribute, []⟩ | ⟨.expressionAttribute, []⟩ | ⟨.eventHandler, []⟩ => f.nameValue depth n
  | ⟨.customTextAttribute, []⟩ | ⟨.customExpressionAttribute, []⟩ => .unsupported (.quotedName n)
  | ⟨.metaAttribute, []⟩ => .empty
  | _ => .unsupported (.node n)

/-- A field of a component, by its exact class. -/
def fieldLines (f : Formatter) (depth : Int) (n : Node) : Script :=
  match n.cls with
  | ⟨.expressionField, []⟩ | ⟨.formattedField, []⟩ | ⟨.handlerField, []⟩ => f.nameValue depth n
  | _ => .unsupported (.node n)

def spreadLines (f : Formatter) (depth : Int) (n : Node) : Script :=
  f.value depth ['.', '.'] [] n.expression?

/-- Ends in a failure at the first child that is of none of the kinds. -/
def checkChildren (n : Node) (kinds : List Kind) : Script :=
  match n.children.find? fun (c : Node) => !c.isAny kinds with
  | some c => .unsupported (.misplaced c n)
  | none => .empty

def checkKeys (n : Node) : Script :=
  match n.childrenOf .key with
  | _ :: second :: _ => .unsupported (.secondKey second n)
  | _ => .empty

/-- What an element has in front of its body. -/
def elementHead (f : Formatter) (depth : Int) (n : Node) : Script :=
  let attributes := n.childrenOf .attribute
  f.headLine depth n.head [' ', '\x7b'] ++
    .concat ((n.childrenOf .key).map (f.keyLine (depth + 1) !attributes.isEmpty)) ++
    .concat (attributes.map (f.attributeLines (depth + 1)))

/-- What a component has in front of its body. -/
def componentHead (f : Formatter) (depth : Int) (n : Node) : Script :=
  f.headLine depth n.head [' ', '\x7b'] ++
    .concat ((n.childrenOf .field).map (f.fieldLines (depth + 1))) ++
    .concat ((n.childrenOf .spread).map (f.spreadLines (depth + 1)))

mutual

/-- A body node, by its exact class. -/
def node (f : Formatter) (depth : Int) : Node → Script
  | .mk l cs =>
    let n : Node := .mk l cs
    match l.cls with
    | ⟨.element, []⟩ =>
      checkChildren n [.key, .attribute, .bodyNode] ++ checkKeys n ++ f.elementHead depth n ++
        f.body (depth + 1) cs ++ f.line depth ['\x7d']
    | ⟨.component, []⟩ =>
      checkChildren n [.field, .spread, .bodyNode] ++ f.componentHead depth n ++
        f.body (depth + 1) cs ++ f.line depth ['\x7d']
    | ⟨.text, []⟩ => f.line depth (inQuotes l.head)
    | ⟨.rawExpression, []⟩ => .empty
    | ⟨.decoration, []⟩ => f.headLine depth l.head []
    | _ => .unsupported (.node n)

/-- The body nodes among the children of a block. -/
def body (f : Formatter) (depth : Int) : List Node → Script
  | [] => .empty
  | .mk l cs :: ns =>
    if l.isA .bodyNode then f.node depth (.mk l cs) ++ f.body depth ns else f.body depth ns

end

/-- Root nodes, one after the other. -/
def nodes (f : Formatter) (ns : List Node) : Script := .concat (ns.map (f.node f.startIndent))

/-- A root node that is made when its turn comes. -/
def spec (f : Formatter) (t : Tree NodeSpec) : Script :=
  match Node.build t with
  | .ok n => f.node f.startIndent n
  | .error e => .fail (.make e)

/-- Root nodes that are made one by one: one that cannot be made ends the run only after those in
front of it are written. -/
def specs (f : Formatter) (ts : List (Tree NodeSpec)) : Script := .concat (ts.map f.spec)

/-- Where all nodes can be made, it does not matter when. -/
theorem specs_of_buildAll (f : Formatter) (ts : List (Tree NodeSpec)) (ns : List Node)
    (h : Node.buildAll ts = .ok ns) : f.specs ts = f.nodes ns := by
  induction ts generalizing ns with
  | nil =>
    cases h
    rfl
  | cons t ts ih =>
    simp only [Node.buildAll] at h
    cases ht : Node.build t with
    | error e => rw [ht] at h; cases h
    | ok n =>
      cases hts : Node.buildAll ts with
      | error e => rw [ht, hts] at h; cases h
      | ok ms =>
        rw [ht, hts] at h
        cases h
        have hrest : Script.concat (ts.map f.spec) = f.nodes ms := ih ms hts
        simp only [specs, nodes, List.map_cons, Script.concat, spec, ht, hrest]

/-- The root nodes of a document, or the node itself. -/
def roots (n : Node) : List Node := if n.isA .document then n.children else [n]

def write (f : Formatter) (n : Node) : Except Failure (List Char) := (f.nodes (roots n)).result

end Formatter

/-- The text of an entity; other nodes have none. -/
def Node.write (f : Formatter) (n : Node) : Except Failure (List Char) :=
  if n.isA .entity then f.write n else .error .notDefined

end BlockMarkup
