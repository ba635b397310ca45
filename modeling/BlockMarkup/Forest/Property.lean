import BlockMarkup.Forest.Outline

/-!
# BlockMarkup.Forest.Property

Questions about a node of a forest: `Forest.ask` answers a `Property`, if the class of the node
has it.
-/

namespace BlockMarkup

inductive Property where
  | description
  | childCount
  | truth
  | depth
  | isLast
  | head
  | name
  | key
  | start
  | stop
  | position
  | parent
  | root
  | value
  | spread
  | expression
  | ancestors
  | descendants
  | children
  | attributes
  | body
  | fields
  | shape
deriving DecidableEq, Repr

inductive Answer where
  | text (s : Option (List Char))
  | number (n : Option Int)
  | flag (b : Bool)
  | node (i : Option NodeId)
  | nodes (is : List NodeId)
  | shape (t : Tree NodeId)

namespace Property

/-- The kinds whose nodes have a property. -/
def definedFor : Property → List Kind
  | .head | .start | .stop => [.entity]
  | .name => [.block, .nameValue]
  | .value => [.nameValue]
  | .key | .attributes => [.element]
  | .fields | .spread => [.component]
  | .body => [.document, .block]
  | .expression => [.rawExpression, .spread]
  | .position => [.invalid]
  | _ => [.node]

end Property

namespace Forest

/-- The children of one of the kinds, in order. -/
def kidsOf (f : Forest) (i : NodeId) (kinds : List Kind) : List NodeId :=
  (f.childrenOf i).filter fun c => (f.labelOf c).cls.isAny kinds

/-- The end of a node in the source. -/
def stopOf (f : Forest) (i : NodeId) : Except WalkFault (Option Nat) :=
  match f.node? i with
  | none => .error .endless
  | some n =>
    match n.stop? with
    | .error _ => .error .notDefined
    | .ok e => .ok e

/-- The answer of a walk that may not end. -/
def ended {α : Type} (make : α → Answer) : Option α → Except WalkFault Answer
  | none => .error .endless
  | some a => .ok (make a)

/-- The answer to a question that the class of the node has. -/
def answer (f : Forest) (i : NodeId) : Property → Except WalkFault Answer
  | .description => .ok (.text (f.describe i))
  | .childCount => .ok (.number (some (f.childrenOf i).length))
  | .truth => .ok (.flag true)
  | .depth => ended (fun n => .number (some (Int.ofNat n))) (f.depth? i)
  | .isLast =>
    match f.isLast i with
    | .error e => .error e
    | .ok b => .ok (.flag b)
  | .head | .name => .ok (.text (f.labelOf i).head)
  | .key => .ok (.text ((f.kidsOf i [.key]).head?.bind fun c => (f.labelOf c).head))
  | .start =>
    ended (fun (n : Node) => .number (n.start?.map Int.ofNat)) (f.node? i)
  | .stop =>
    match f.stopOf i with
    | .error e => .error e
    | .ok e => .ok (.number (e.map Int.ofNat))
  | .position => .ok (.number (f.labelOf i).position)
  | .parent => .ok (.node (f.parentOf i))
  | .root => ended (fun r => .node (some r)) (f.root? i)
  | .value => .ok (.node (f.kidsOf i [.string, .expression]).head?)
  | .spread => .ok (.node (f.kidsOf i [.spread]).head?)
  | .expression => .ok (.node (f.kidsOf i [.expression]).head?)
  | .ancestors => ended .nodes (f.ancestors? i)
  | .descendants => ended .nodes (f.descendants? i)
  | .children => .ok (.nodes (f.childrenOf i))
  | .attributes => .ok (.nodes (f.kidsOf i [.attribute]))
  | .body => .ok (.nodes (f.kidsOf i [.bodyNode]))
  | .fields => .ok (.nodes (f.kidsOf i [.field]))
  | .shape => ended .shape (f.shape? i)

def ask (f : Forest) (i : NodeId) (p : Property) : Except WalkFault Answer :=
  if (f.labelOf i).cls.isAny p.definedFor then f.answer i p else .error .notDefined

end Forest
end BlockMarkup
