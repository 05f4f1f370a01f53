import RubyServer.Notice
import RubyServer.Source

/-!
# Outlines

The classes, modules, methods and constants of a source, nested as they are nested in it (`Outline.ofSource`), or as a
flat list in which each one names its container (`Outline.flatten`). The list is made by a loop over a stack of the
symbols that are still to be listed (`Outline.Flattening`).
-/

namespace RubyServer

/-- What a symbol stands for. -/
inductive SymbolKind where
  | moduleDef
  | singletonClass
  | classDef
  | method
  | constant
  deriving DecidableEq, Repr

/-- A symbol and the symbols inside it. -/
inductive Symbol where
  | mk (name : Text) (detail : Option Text) (kind : SymbolKind) (range selection : Range) (children : List Symbol)
  deriving Repr

namespace Symbol

/-- The name of a symbol. -/
def name : Symbol → Text
  | mk name _ _ _ _ _ => name

/-- What a symbol stands for. -/
def kind : Symbol → SymbolKind
  | mk _ _ kind _ _ _ => kind

/-- The range of a symbol. -/
def range : Symbol → Range
  | mk _ _ _ range _ _ => range

/-- The range of a symbol's name. -/
def selection : Symbol → Range
  | mk _ _ _ _ selection _ => selection

/-- The symbols inside a symbol. -/
def children : Symbol → List Symbol
  | mk _ _ _ _ _ children => children

mutual

/-- How many symbols there are from a symbol on down. -/
def size : Symbol → Nat
  | mk _ _ _ _ _ children => sizeAll children + 1

/-- How many symbols there are from several symbols on down. -/
def sizeAll : List Symbol → Nat
  | [] => 0
  | symbol :: rest => symbol.size + sizeAll rest

end

theorem size_eq (symbol : Symbol) : symbol.size = sizeAll symbol.children + 1 := by
  cases symbol
  rw [size, children]

theorem sizeAll_append (xs ys : List Symbol) : sizeAll (xs ++ ys) = sizeAll xs + sizeAll ys := by
  induction xs with
  | nil => simp [sizeAll]
  | cons x xs ih => rw [List.cons_append, sizeAll, sizeAll, ih, Nat.add_assoc]

end Symbol

/-- A symbol in a flat list. -/
structure FlatSymbol where
  name : Text
  kind : SymbolKind
  uri : Uri
  range : Range
  container : Option Text
  deriving DecidableEq, Repr

namespace Outline

/-- What makes a node a symbol: its kind, the node that names it, and its name. -/
structure Heading where
  kind : SymbolKind
  nameNode : Node
  name : Text

/-- A node that is named by the text of one of its fields. -/
def headingBy? (s : Source) (kind : SymbolKind) (n : Node) (field : String) : Option Heading :=
  (n.child? field).map fun name => ⟨kind, name, s.nodeText name⟩

/-- The heading of a node, if it is a symbol. -/
def heading? (s : Source) (n : Node) : Option Heading :=
  match n.kind with
  | "class" => headingBy? s .classDef n "name"
  | "module" => headingBy? s .moduleDef n "name"
  | "method" => headingBy? s .method n "name"
  | "singleton_class" =>
    (n.child? "value").map fun value => ⟨.singletonClass, value, "class << ".toList ++ s.nodeText value⟩
  | "singleton_method" => do
    let object ← n.child? "object"
    let name ← n.child? "name"
    return ⟨.method, name, s.nodeText object ++ '.' :: s.nodeText name⟩
  | "assignment" => do
    let left ← n.child? "left"
    if left.kind = "constant" then return ⟨.constant, left, s.nodeText left⟩ else none
  | _ => none

/-- What is shown beside a symbol: the superclass of a class, the parameters of a method. -/
def detail? (s : Source) (n : Node) : Option Text :=
  match n.kind with
  | "class" => (n.child? "superclass").map s.nodeText
  | "method" => (n.child? "parameters").map s.nodeText
  | "singleton_method" => (n.child? "parameters").map s.nodeText
  | _ => none

/-- The symbol of a node with a heading. Nothing is listed inside a constant. -/
def symbol (s : Source) (index : LineIndex) (n : Node) (h : Heading) (inside : List Symbol) : Symbol :=
  .mk h.name (detail? s n) h.kind (index.range (s.span n)) (index.range (s.span h.nameNode))
    (if h.kind = .constant then [] else inside)

mutual

/-- The symbols below a node. -/
def below (s : Source) (index : LineIndex) : Node → List Symbol
  | .mk _ cs => among s index cs

/-- The symbols among several nodes and below them. Only named nodes count; one that is no symbol is passed through. -/
def among (s : Source) (index : LineIndex) : List Node → List Symbol
  | [] => []
  | c :: cs =>
    let here :=
      if c.isNamed then
        match heading? s c with
        | some h => [symbol s index c h (below s index c)]
        | none => below s index c
      else []
    here ++ among s index cs

end

/-- The outline of a source. -/
def ofSource (s : Source) : List Symbol :=
  match s.root? with
  | none => []
  | some root => below s (LineIndex.ofText s.text) root

theorem ofSource_eq (s : Source) : ofSource s = below s (LineIndex.ofText s.text) s.root := by
  unfold ofSource Source.root? Source.root
  cases s.parse <;> rfl

/-- A flattening under way: what is listed so far, and the stack of the symbols that are still to be listed, each with
its container, the top of the stack first. -/
structure Flattening where
  flat : List FlatSymbol
  stack : List (Symbol × Option Text)

namespace Flattening

/-- Puts items on the stack one after the other, so that the last of them is on top. -/
def push (f : Flattening) (items : List (Symbol × Option Text)) : Flattening :=
  { f with stack := items.foldl (fun stack item => item :: stack) f.stack }

/-- Takes the top symbol off the stack, puts the symbols inside it on the stack, the last one first, and lists it. There
is no next step once the stack is empty. -/
def step? (uri : Uri) (f : Flattening) : Option Flattening :=
  match f.stack with
  | [] => none
  | (symbol, container) :: stack =>
    let f := { f with stack }.push (symbol.children.reverse.map fun child => (child, some symbol.name))
    some { f with flat := f.flat ++ [⟨symbol.name, symbol.kind, uri, symbol.range, container⟩] }

/-- How many symbols are still to be listed: those on the stack and all inside them. -/
def pending (f : Flattening) : Nat := Symbol.sizeAll (f.stack.map Prod.fst)

@[simp] theorem stack_push (f : Flattening) (items : List (Symbol × Option Text)) :
    (f.push items).stack = items.reverse ++ f.stack := by
  simp [push]

@[simp] theorem flat_push (f : Flattening) (items : List (Symbol × Option Text)) : (f.push items).flat = f.flat := rfl

/-- A step lists the top symbol, and the symbols inside it take its place in their order: the two reversals of the
stack cancel out. -/
theorem of_step? {uri : Uri} {f f' : Flattening} (h : f.step? uri = some f') :
    ∃ symbol container stack, f.stack = (symbol, container) :: stack ∧
      f'.flat = f.flat ++ [⟨symbol.name, symbol.kind, uri, symbol.range, container⟩] ∧
      f'.stack = (symbol.children.map fun child => (child, some symbol.name)) ++ stack := by
  unfold step? at h
  split at h
  · cases h
  · next symbol container stack hstack =>
    cases h
    exact ⟨symbol, container, stack, hstack, rfl, by simp⟩

theorem stack_of_step?_eq_none {uri : Uri} {f : Flattening} (h : f.step? uri = none) : f.stack = [] := by
  unfold step? at h
  split at h
  · assumption
  · cases h

/-- Each step lists one of the symbols that are pending. -/
theorem pending_of_step? {uri : Uri} {f f' : Flattening} (h : f.step? uri = some f') : f'.pending + 1 = f.pending := by
  obtain ⟨symbol, container, stack, hstack, -, hstack'⟩ := of_step? h
  have hchildren : ((symbol.children.map fun child => (child, some symbol.name)).map Prod.fst) = symbol.children := by
    simp [Function.comp_def]
  rw [pending, pending, hstack, hstack', List.map_append, hchildren, Symbol.sizeAll_append, List.map_cons,
    Symbol.sizeAll, Symbol.size_eq, Nat.add_right_comm]

/-- Goes on until the stack is empty. -/
def finish (uri : Uri) (f : Flattening) : List FlatSymbol :=
  match _h : f.step? uri with
  | none => f.flat
  | some f' => f'.finish uri
termination_by f.pending
decreasing_by
  have := pending_of_step? _h
  omega

end Flattening

/-- An outline as a flat list. -/
def flatten (uri : Uri) (symbols : List Symbol) : List FlatSymbol :=
  -- the last symbol goes to the bottom of the stack
  (Flattening.push ⟨[], []⟩ (symbols.reverse.map fun symbol => (symbol, none))).finish uri

end Outline

end RubyServer
