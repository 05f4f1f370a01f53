import RubyServer.Order
import RubyServer.SyntaxError
import RubyServer.Text.Blank
import RubyServer.Text.Lines
import RubyServer.Tree.Lookup

/-!
# Sources

A text together with its tree. The nodes of a tree carry byte offsets; the source turns them into points and text, and
collects the syntax errors of the tree: one for each missing token and each error node that is not inside another. Where
the parser made no tree, its failure is the one error.
-/

namespace RubyServer

/-- What a parser makes of a text: a tree, or none for a reason. -/
inductive Parse where
  | tree (root : Node)
  | failed (reason : String)
  deriving Repr, Inhabited

/-- A tree is a parse. -/
instance : Coe Node Parse := ⟨.tree⟩

/-- A parsed text. -/
structure Source where
  text : Text
  parse : Parse
  deriving Repr, Inhabited

namespace Source

/-- The root of the tree, if there is one. -/
def root? (s : Source) : Option Node :=
  match s.parse with
  | .tree root => some root
  | .failed _ => none

/-- The root of the tree. Where there is none, a node stands in for it that is of no kind and covers nothing. -/
def root (s : Source) : Node :=
  match s.parse with
  | .tree root => root
  | .failed _ => .mk ⟨"", false, false, false, 0, 0, none⟩ []

/-- The points between which a node lies. -/
def span (s : Source) (n : Node) : Span := ⟨s.text.pointAt n.label.start, s.text.pointAt n.label.stop⟩

/-- The text of a node; empty where its ends are not character boundaries. -/
def nodeText (s : Source) (n : Node) : Text := (s.text.slice? n.label.start n.label.stop).getD []

/-- A line of the text, without its terminator. -/
def line? (s : Source) (n : Nat) : Option Text := s.text.lines[n]?

/-- The number of lines of the text. -/
def lineCount (s : Source) : Nat := s.text.lines.length

/-- The innermost named node at a point, if there is a tree. -/
def namedAt? (s : Source) (p : Point) : Option Cursor := s.root?.map fun root => Cursor.namedAt s.span root p

/-- The innermost named node at a point, of the tree or of what stands in for it. -/
def namedAt (s : Source) (p : Point) : Cursor := Cursor.namedAt s.span s.root p

/-- Excerpts in messages have at most this many characters. -/
def excerptLimit : Nat := 32

/-- An excerpt on one line, with an ellipsis where something is left out. -/
def shorten (excerpt : Text) : Text :=
  let first := excerpt.lines.headD []
  if first.length > excerptLimit || first.byteSize < excerpt.byteSize then first.take excerptLimit ++ ['…'] else first

/-- The error that an error node stands for. -/
def unexpectedAt (s : Source) (n : Node) : SyntaxError :=
  let excerpt := (s.nodeText n).trim
  if excerpt.isEmpty then .unexpected "syntax error" (s.span n)
  else
    let short := String.ofList (shorten excerpt)
    .unexpected s!"unexpected `{short}`" (s.span n)

/-- Collects errors in reverse; a subtree without a defect is not entered. -/
def collect (s : Source) (found : List SyntaxError) (c : Cursor) : Visit × List SyntaxError :=
  if c.node.label.isMissing then (.skip, .missing c.kind (s.span c.node) :: found)
  else if c.node.label.isError then (.skip, s.unexpectedAt c.node :: found)
  else if c.node.hasDefect then (.descend, found)
  else (.skip, found)

/-- The syntax errors of a source, by where they start. -/
def errors (s : Source) : List SyntaxError :=
  match s.parse with
  | .failed reason => [.internal reason]
  | .tree root =>
    if root.hasDefect then
      sortBy (fun a b => a.span.start ≤ b.span.start) (Cursor.walk s.collect root []).reverse
    else []

/-- Whether the text has syntax errors. -/
def hasErrors (s : Source) : Bool := !s.errors.isEmpty

end Source

end RubyServer
