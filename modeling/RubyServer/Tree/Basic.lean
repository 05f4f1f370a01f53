/-!
# Trees

The parse of a text: nodes with a kind and a stretch of bytes, named or not, some of them standing for what the parser
could not place (error nodes) or had to invent (missing tokens). A tree is written as the list of its nodes in
pre-order with their depths, and `Node.ofListing?` reads such a list.
-/

namespace RubyServer

/-- What a node says about itself, its children aside. -/
structure Label where
  kind : String
  named : Bool
  isError : Bool
  isMissing : Bool
  start : Nat
  stop : Nat
  field : Option String
  deriving DecidableEq, Repr, Inhabited

/-- Whether a label marks a defect of the text: an error node or a missing token. -/
def Label.isDefect (l : Label) : Bool := l.isError || l.isMissing

/-- A tree, given by its root. -/
inductive Node where
  | mk (label : Label) (children : List Node)
  deriving Repr, Inhabited

namespace Node

/-- The label of a node. -/
def label : Node → Label
  | mk l _ => l

/-- The children of a node, in order of the text. -/
def children : Node → List Node
  | mk _ cs => cs

/-- The kind of a node. -/
def kind (n : Node) : String := n.label.kind

/-- Whether a node is named, rather than a token of the grammar. -/
def isNamed (n : Node) : Bool := n.label.named

/-- The named children of a node. -/
def namedChildren (n : Node) : List Node := n.children.filter isNamed

/-- The first child with a field name. -/
def child? (n : Node) (field : String) : Option Node := n.children.find? fun c => c.label.field == some field

mutual

/-- The number of nodes of a tree. -/
def size : Node → Nat
  | mk _ cs => 1 + sizeAll cs

/-- The number of nodes of a list of trees. -/
def sizeAll : List Node → Nat
  | [] => 0
  | c :: cs => size c + sizeAll cs

end

mutual

/-- The nodes of a tree, each before its children. -/
def preorder : Node → List Node
  | mk l cs => mk l cs :: preorderAll cs

/-- The nodes of a list of trees, tree after tree. -/
def preorderAll : List Node → List Node
  | [] => []
  | c :: cs => preorder c ++ preorderAll cs

end

mutual

/-- Whether a node or one below it is a defect. -/
def hasDefect : Node → Bool
  | mk l cs => l.isDefect || anyHasDefect cs

/-- Whether one of several trees has a defect. -/
def anyHasDefect : List Node → Bool
  | [] => false
  | c :: cs => hasDefect c || anyHasDefect cs

end

/-- Puts a node in front of the trees that follow it in a listing: those one level deeper are its children. -/
def attach (depth : Nat) (l : Label) (trees : List (Nat × Node)) : List (Nat × Node) :=
  let below := trees.takeWhile fun t => t.1 == depth + 1
  (depth, mk l (below.map Prod.snd)) :: trees.drop below.length

/-- The tree that a pre-order listing of depths and labels describes. -/
def ofListing? (listing : List (Nat × Label)) : Option Node :=
  (listing.foldr (fun e trees => attach e.1 e.2 trees) []).head?.map Prod.snd

end Node

end RubyServer
