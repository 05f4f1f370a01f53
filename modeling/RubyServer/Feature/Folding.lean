import RubyServer.Position
import RubyServer.Source

/-!
# Folds

The ranges of lines an editor may fold: constructs over several rows, up to the row before their last one, and blocks
of comments that stand alone on consecutive rows.
-/

namespace RubyServer

/-- What is folded. -/
inductive FoldKind where
  | region
  | comment
  deriving DecidableEq, Repr

/-- A range of lines to fold. -/
structure Fold where
  startLine : Nat
  endLine : Nat
  kind : FoldKind
  deriving DecidableEq, Repr

namespace Fold

/-- The kinds of node that fold. -/
def foldableKinds : List String :=
  ["class", "module", "singleton_class", "method", "singleton_method", "do_block", "block", "lambda", "if", "unless",
    "while", "until", "for", "case", "case_match", "begin", "array", "hash", "heredoc_body"]

/-- What a walk has found so far: the folds, the last one first, and the block of comments it is in, by its first and
last row. -/
structure Progress where
  found : List Fold := []
  block : Option (Nat × Nat) := none

/-- The fold of a block of comments, if it has more than one row. -/
def ofBlock : Option (Nat × Nat) → List Fold
  | none => []
  | some (first, last) => if first < last then [⟨lineWord first, lineWord last, .comment⟩] else []

/-- Whether nothing but blanks stands before a point on its line. -/
def startsLine (s : Source) (p : Point) : Bool :=
  match s.line? p.row with
  | none => false
  | some line => (Text.takeBytes p.column line).all isBlank

/-- Takes in a comment on its own line: it extends the block that ends on the row before, or starts a new one. -/
def Progress.comment (progress : Progress) (span : Span) : Progress :=
  match progress.block with
  | some (first, last) =>
    if last + 1 = span.start.row then { progress with block := some (first, span.stop.row) }
    else ⟨ofBlock progress.block ++ progress.found, some (span.start.row, span.stop.row)⟩
  | none => { progress with block := some (span.start.row, span.stop.row) }

/-- The fold of a construct, if at least one row lies between its first and its last. -/
def ofConstruct (span : Span) : List Fold :=
  let last := span.stop.row - 1
  if span.start.row < last then [⟨lineWord span.start.row, lineWord last, .region⟩] else []

/-- What a walk does at one node. -/
def visit (s : Source) (progress : Progress) (c : Cursor) : Visit × Progress :=
  if c.kind = "comment" then
    let span := s.span c.node
    (.skip, if startsLine s span.start then progress.comment span else progress)
  else if foldableKinds.contains c.kind then
    (.descend, { progress with found := ofConstruct (s.span c.node) ++ progress.found })
  else (.descend, progress)

/-- The folds of a walk that ends here. -/
def Progress.folds (progress : Progress) : List Fold := (ofBlock progress.block ++ progress.found).reverse

/-- Folds by their first line; of those that start together the longest comes first. -/
def precedes (a b : Fold) : Bool := a.startLine < b.startLine || a.startLine == b.startLine && b.endLine ≤ a.endLine

/-- The folds of a source. -/
def all (s : Source) : List Fold :=
  match s.root? with
  | none => []
  | some root => sortBy precedes (Cursor.walk (visit s) root {}).folds

theorem all_eq_walk (s : Source) : all s = sortBy precedes (Cursor.walk (visit s) s.root {}).folds := by
  unfold all Source.root? Source.root
  cases s.parse <;> rfl

end Fold

end RubyServer
