import RubyServer.Source

/-!
# Literals

Text inside a literal that spans several rows is content, not layout: neither the lint rules on whitespace nor the
formatter may touch it. A row is open when a literal goes on after it, and continued when a literal began before it.
-/

namespace RubyServer

/-- The kinds of node whose text is content. -/
def literalKinds : List String := ["string", "heredoc_body", "regex", "string_array", "symbol_array", "subshell"]

/-- Whether a node is a literal. -/
def Node.isLiteral (n : Node) : Bool := literalKinds.contains n.kind

namespace Source

/-- The spans of the literals that are not inside another literal. -/
def literalSpans (s : Source) : List Span :=
  match s.root? with
  | none => []
  | some root => (Cursor.outermost Node.isLiteral root).map fun c => s.span c.node

/-- What stands in for a tree that was not made is no literal. -/
theorem literalSpans_eq (s : Source) :
    s.literalSpans = (Cursor.outermost Node.isLiteral s.root).map fun c => s.span c.node := by
  unfold literalSpans root? root
  cases s.parse <;> rfl

/-- Whether a literal starts on or before a row and ends after it. -/
def isOpenRow (spans : List Span) (row : Nat) : Bool := spans.any fun l => l.start.row ≤ row && row < l.stop.row

/-- Whether a literal starts before a row and ends on or after it. -/
def isContinuedRow (spans : List Span) (row : Nat) : Bool := spans.any fun l => l.start.row < row && row ≤ l.stop.row

end Source

end RubyServer
