import RubyServer.Tree.Basic

/-!
# Cursors

A node together with its place in the tree: the labels of its ancestors and its siblings on either side. A cursor
moves to the first child, the next sibling or the parent, and `Cursor.walk` visits the nodes below a start node by such
moves, asking a visitor at each one whether to enter its children. The walk ends by itself: `Node.size` visits are
enough for any tree.
-/

namespace RubyServer

/-- One level of a cursor's path: the parent's label, and the siblings before (nearest first) and after. -/
structure Crumb where
  label : Label
  before : List Node
  after : List Node
  deriving Repr, Inhabited

/-- A node and the path to it, nearest ancestor first. -/
structure Cursor where
  node : Node
  path : List Crumb
  deriving Repr, Inhabited

/-- A visitor's answer: go on with the node's children, or leave them out. -/
inductive Visit where
  | descend
  | skip
  deriving DecidableEq, Repr, Inhabited

namespace Cursor

/-- The cursor at the root of a tree. -/
def ofRoot (n : Node) : Cursor := ⟨n, []⟩

/-- The kind of the node under the cursor. -/
def kind (c : Cursor) : String := c.node.kind

/-- The first child of the node under the cursor. -/
def firstChild? (c : Cursor) : Option Cursor :=
  match c.node.children with
  | [] => none
  | child :: rest => some ⟨child, ⟨c.node.label, [], rest⟩ :: c.path⟩

/-- The next sibling of the node under the cursor. -/
def nextSibling? (c : Cursor) : Option Cursor :=
  match c.path with
  | [] => none
  | crumb :: path =>
    match crumb.after with
    | [] => none
    | sibling :: rest => some ⟨sibling, ⟨crumb.label, c.node :: crumb.before, rest⟩ :: path⟩

/-- The parent of the node under the cursor. -/
def parent? (c : Cursor) : Option Cursor :=
  match c.path with
  | [] => none
  | crumb :: path => some ⟨.mk crumb.label (crumb.before.reverse ++ c.node :: crumb.after), path⟩

theorem parent?_firstChild? {c d : Cursor} (h : c.firstChild? = some d) : d.parent? = some c := by
  rcases c with ⟨⟨l, cs⟩, path⟩
  cases cs with
  | nil => cases h
  | cons n ns => cases h; rfl

theorem parent?_nextSibling? {c d : Cursor} (h : c.nextSibling? = some d) : d.parent? = c.parent? := by
  rcases c with ⟨n, _ | ⟨⟨l, before, _ | ⟨s, rest⟩⟩, path⟩⟩
  · cases h
  · cases h
  · cases h; simp [parent?]

/-- The proper ancestors of a node at the end of a path, nearest first. -/
def ancestorsAlong (node : Node) : List Crumb → List Cursor
  | [] => []
  | crumb :: path =>
    let parent := Node.mk crumb.label (crumb.before.reverse ++ node :: crumb.after)
    ⟨parent, path⟩ :: ancestorsAlong parent path

/-- The proper ancestors of the node under the cursor, nearest first. -/
def ancestors (c : Cursor) : List Cursor := ancestorsAlong c.node c.path

/-- The nearest proper ancestor of one of the given kinds. -/
def enclosing? (c : Cursor) (kinds : List String) : Option Cursor := c.ancestors.find? fun a => kinds.contains a.kind

/-- Whether the node is the child that its parent has under a field name. -/
def isChildUnder (c : Cursor) (field : String) : Bool :=
  match c.path with
  | [] => false
  | crumb :: _ =>
    c.node.label.field == some field && crumb.before.all fun sibling => sibling.label.field != some field

/-- The place to go on at once a node and everything below it is done: its next sibling, or the next sibling of the
nearest ancestor that has one. -/
def afterSubtree? (node : Node) : List Crumb → Option Cursor
  | [] => none
  | crumb :: path =>
    match crumb.after with
    | sibling :: rest => some ⟨sibling, ⟨crumb.label, node :: crumb.before, rest⟩ :: path⟩
    | [] => afterSubtree? (.mk crumb.label (crumb.before.reverse ++ [node])) path

/-- Where the walk goes after a visit. -/
def next? (answer : Visit) (c : Cursor) : Option Cursor :=
  match answer with
  | .skip => afterSubtree? c.node c.path
  | .descend =>
    match c.firstChild? with
    | some child => some child
    | none => afterSubtree? c.node c.path

/-- Visits nodes from a cursor on, at most `fuel` of them. -/
def walkFrom (visit : σ → Cursor → Visit × σ) : Nat → Cursor → σ → σ
  | 0, _, s => s
  | fuel + 1, c, s =>
    let (answer, s) := visit s c
    match c.next? answer with
    | some c => walkFrom visit fuel c s
    | none => s

/-- Visits the nodes of a tree, each before its children, leaving out what the visitor skips. -/
def walk (visit : σ → Cursor → Visit × σ) (root : Node) (s : σ) : σ := walkFrom visit root.size (ofRoot root) s

/-- The named nodes of a tree that are of one of the given kinds. -/
def findKinds (root : Node) (kinds : List String) : List Cursor :=
  (walk (fun found c =>
    (.descend, if c.node.isNamed && kinds.contains c.kind then c :: found else found)) root []).reverse

/-- The topmost nodes of a tree that satisfy `p`: what lies below one of them is left out. -/
def outermost (p : Node → Bool) (root : Node) : List Cursor :=
  (walk (fun found c => if p c.node then (.skip, c :: found) else (.descend, found)) root []).reverse

end Cursor

end RubyServer
