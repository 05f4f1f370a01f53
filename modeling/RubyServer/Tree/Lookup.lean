import RubyServer.Span
import RubyServer.Tree.Cursor

/-!
# The node at a point

`Cursor.namedAt` goes down from the root, at each level into the first child that does not end before the point, as
long as that child does not start after it; the answer is the last named node on the way.
-/

namespace RubyServer.Cursor

/-- Whether a node with this span lies before a point. A node ends before the point it stops at, unless it is empty. -/
def liesBefore (s : Span) (p : Point) : Bool := if s.start = s.stop then s.stop < p else s.stop ≤ p

mutual

/-- Goes down from a node whose place is given by a path, with the answer so far. -/
def namedBelow (span : Node → Span) (p : Point) : Node → List Crumb → Cursor → Cursor
  | .mk l cs, path, answer => namedAmong span p l cs [] path answer

/-- Looks among the children of a node for the one to enter; `before` holds those already passed. -/
def namedAmong (span : Node → Span) (p : Point) (l : Label) : List Node → List Node → List Crumb → Cursor → Cursor
  | [], _, _, answer => answer
  | c :: cs, before, path, answer =>
    if liesBefore (span c) p then namedAmong span p l cs (c :: before) path answer
    else if p < (span c).start then answer
    else
      let path := ⟨l, before, cs⟩ :: path
      namedBelow span p c path (if c.isNamed then ⟨c, path⟩ else answer)

end

/-- The innermost named node at a point. -/
def namedAt (span : Node → Span) (root : Node) (p : Point) : Cursor := namedBelow span p root [] (ofRoot root)

end RubyServer.Cursor
