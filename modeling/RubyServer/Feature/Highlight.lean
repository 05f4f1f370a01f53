import RubyServer.Position
import RubyServer.Source

/-!
# Highlights

Every occurrence of the name under the cursor: the nodes of the same kind with the same text. The name may also end
right before the cursor. A name on the left of an assignment is written, any other is read.
-/

namespace RubyServer

/-- How a name is used. -/
inductive Usage where
  | read
  | write
  deriving DecidableEq, Repr

/-- An occurrence of a name. -/
structure Highlight where
  range : Range
  usage : Usage
  deriving DecidableEq, Repr

namespace Highlight

/-- The kinds of node that are names. -/
def nameKinds : List String := ["identifier", "constant", "instance_variable", "class_variable", "global_variable"]

/-- The kinds of node that assign to what is on their left. -/
def assignmentKinds : List String := ["assignment", "operator_assignment"]

/-- Whether a node is a name. -/
def isName (n : Node) : Bool := nameKinds.contains n.kind

/-- The name at a point. -/
def nameOn? (s : Source) (p : Point) : Option Node := ((s.namedAt? p).map Cursor.node).filter isName

/-- The name at a point, or else the one that ends there. -/
def nameAt? (s : Source) (p : Point) : Option Node :=
  (nameOn? s p).or (if p.column = 0 then none else nameOn? s ⟨p.row, p.column - 1⟩)

/-- How the name under a cursor is used. -/
def usageOf (c : Cursor) : Usage :=
  match c.path with
  | [] => .read
  | parent :: _ => if assignmentKinds.contains parent.label.kind && c.isChildUnder "left" then .write else .read

/-- The occurrences of the name at a position. -/
def occurrences (s : Source) (q : Position) : List Highlight :=
  match s.root? with
  | none => []
  | some root =>
    let index := LineIndex.ofText s.text
    match nameAt? s (index.point q) with
    | none => []
    | some target =>
      ((Cursor.findKinds root [target.kind]).filter fun c => s.nodeText c.node = s.nodeText target).map fun c =>
        ⟨index.range (s.span c.node), usageOf c⟩

end Highlight

end RubyServer
