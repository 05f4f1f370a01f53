import Mathlib.Data.List.Forall2
import RubyServer.Feature.Outline
import RubyServer.Proofs.Tree.Walk

/-!
# What an outline lists

A node has a title if it is of a kind that stands for a symbol and has the fields that the kind takes its name from
(`Titled`). It is listed if it has a title, lies below the root, is named like everything on the way down to it, and is
not below a constant that is listed (`Listed`). Of the places of the tree in pre-order, the flat outline has one entry
for each that is listed, and no other: its kind and name are the title, its range that of the node, and its container
the title of the nearest place above that is listed (`flatten_ofSource`).

The loop over a stack lists what a recursion over the symbols lists (`flattenAll`): each step keeps what is listed
together with what the recursion lists of the stack (`Flattening.outcome_of_step?`), and so does the whole run
(`flatten_eq`). The outline is nested and built by going down the tree, so the proof goes down with it. A place lets
through what is below it if it is the root or named, and no listed constant (`Passes`); below one that does not, nothing
is listed.
-/

namespace RubyServer

namespace Outline

open scoped Classical

/-! ## The loop over the stack -/

mutual

/-- A symbol and those inside it, each before its own. -/
def flattenOne (uri : Uri) (container : Option Text) : Symbol → List FlatSymbol
  | .mk name _ kind range _ children => ⟨name, kind, uri, range, container⟩ :: flattenAll uri (some name) children

/-- Several symbols and those inside them. -/
def flattenAll (uri : Uri) (container : Option Text) : List Symbol → List FlatSymbol
  | [] => []
  | symbol :: rest => flattenOne uri container symbol ++ flattenAll uri container rest

end

section Loop

variable (uri : Uri)

theorem flattenOne_eq (container : Option Text) (symbol : Symbol) : flattenOne uri container symbol =
    ⟨symbol.name, symbol.kind, uri, symbol.range, container⟩ :: flattenAll uri (some symbol.name) symbol.children := by
  cases symbol
  rw [flattenOne]
  rfl

theorem flattenAll_append (container : Option Text) (xs ys : List Symbol) :
    flattenAll uri container (xs ++ ys) = flattenAll uri container xs ++ flattenAll uri container ys := by
  induction xs with
  | nil => rfl
  | cons x xs ih => rw [List.cons_append, flattenAll, flattenAll, ih, List.append_assoc]

/-- Several symbols under one container, as they stand on a stack. -/
theorem flatMap_flattenOne (container : Option Text) (symbols : List Symbol) :
    ((symbols.map fun symbol => (symbol, container)).flatMap fun e => flattenOne uri e.2 e.1) =
      flattenAll uri container symbols := by
  induction symbols with
  | nil => rfl
  | cons symbol rest ih => rw [List.map_cons, List.flatMap_cons, ih, flattenAll]

namespace Flattening

/-- What a flattening comes to: what is listed, then what the recursion lists of the stack from the top on down. -/
def outcome (f : Flattening) : List FlatSymbol := f.flat ++ f.stack.flatMap fun e => flattenOne uri e.2 e.1

variable {uri} {f f' : Flattening}

/-- A step moves one entry from what is pending to what is listed. -/
theorem outcome_of_step? (h : f.step? uri = some f') : f'.outcome uri = f.outcome uri := by
  obtain ⟨symbol, container, stack, hstack, hflat, hstack'⟩ := of_step? h
  rw [outcome, outcome, hflat, hstack, hstack', List.flatMap_append, flatMap_flattenOne, List.flatMap_cons,
    flattenOne_eq, List.append_assoc, List.singleton_append, List.cons_append]

variable (uri f)

/-- The loop ends with what the recursion lists. -/
theorem finish_eq : f.finish uri = f.outcome uri := by
  fun_induction finish uri f with
  | case1 f h => rw [outcome, stack_of_step?_eq_none h, List.flatMap_nil, List.append_nil]
  | case2 f f' h ih => rw [ih, outcome_of_step? h]

end Flattening

/-- The flat list of an outline is its symbols in pre-order. -/
theorem flatten_eq (symbols : List Symbol) : flatten uri symbols = flattenAll uri none symbols := by
  rw [flatten, Flattening.finish_eq, Flattening.outcome, Flattening.stack_push, Flattening.flat_push, List.nil_append,
    List.append_nil, List.map_reverse, List.reverse_reverse, flatMap_flattenOne]

end Loop

/-! ## Titles -/

/-- The kind and name of a node that stands for a symbol. -/
inductive Titled (s : Source) (n : Node) : SymbolKind → Text → Prop where
  | classDef {x : Node} (hkind : n.kind = "class") (hx : n.child? "name" = some x) : Titled s n .classDef (s.nodeText x)
  | moduleDef {x : Node} (hkind : n.kind = "module") (hx : n.child? "name" = some x) :
    Titled s n .moduleDef (s.nodeText x)
  | method {x : Node} (hkind : n.kind = "method") (hx : n.child? "name" = some x) : Titled s n .method (s.nodeText x)
  | singletonClass {x : Node} (hkind : n.kind = "singleton_class") (hx : n.child? "value" = some x) :
    Titled s n .singletonClass ("class << ".toList ++ s.nodeText x)
  | singletonMethod {o x : Node} (hkind : n.kind = "singleton_method") (ho : n.child? "object" = some o)
    (hx : n.child? "name" = some x) : Titled s n .method (s.nodeText o ++ '.' :: s.nodeText x)
  | constant {x : Node} (hkind : n.kind = "assignment") (hx : n.child? "left" = some x) (hx' : x.kind = "constant") :
    Titled s n .constant (s.nodeText x)

section Titles

variable {s : Source} {n : Node} {kind kind' : SymbolKind} {name name' : Text}

theorem titled_of_headingBy? {h : Heading} {field : String} (hh : headingBy? s kind n field = some h)
    (htitle : ∀ x, n.child? field = some x → Titled s n kind (s.nodeText x)) : Titled s n h.kind h.name := by
  obtain ⟨x, hx, rfl⟩ := Option.map_eq_some_iff.mp hh
  exact htitle x hx

theorem titled_of_heading? {h : Heading} (hh : heading? s n = some h) : Titled s n h.kind h.name := by
  unfold heading? at hh
  split at hh
  · next hkind => exact titled_of_headingBy? hh fun x hx => .classDef hkind hx
  · next hkind => exact titled_of_headingBy? hh fun x hx => .moduleDef hkind hx
  · next hkind => exact titled_of_headingBy? hh fun x hx => .method hkind hx
  · next hkind =>
    obtain ⟨x, hx, rfl⟩ := Option.map_eq_some_iff.mp hh
    exact .singletonClass hkind hx
  · next hkind =>
    obtain ⟨o, ho, x, hx, rfl⟩ : ∃ o, n.child? "object" = some o ∧ ∃ x, n.child? "name" = some x ∧
        (⟨.method, x, s.nodeText o ++ '.' :: s.nodeText x⟩ : Heading) = h := by
      simpa [Option.bind_eq_some_iff] using hh
    exact .singletonMethod hkind ho hx
  · next hkind =>
    obtain ⟨x, hx, hx', rfl⟩ : ∃ x, n.child? "left" = some x ∧ x.kind = "constant" ∧
        (⟨.constant, x, s.nodeText x⟩ : Heading) = h := by
      simpa [Option.bind_eq_some_iff] using hh
    exact .constant hkind hx hx'
  · cases hh

/-- A node has a heading exactly if it has a title, and they agree. -/
theorem titled_iff : Titled s n kind name ↔ ∃ x, heading? s n = some ⟨kind, x, name⟩ := by
  constructor
  · rintro (⟨hkind, hx⟩ | ⟨hkind, hx⟩ | ⟨hkind, hx⟩ | ⟨hkind, hx⟩ | ⟨hkind, ho, hx⟩ | ⟨hkind, hx, hx'⟩)
    all_goals simp [heading?, headingBy?, *]
  · rintro ⟨x, hx⟩
    exact titled_of_heading? hx

theorem Titled.kind_eq (h : Titled s n kind name) (h' : Titled s n kind' name') : kind = kind' := by
  obtain ⟨x, hx⟩ := titled_iff.mp h
  obtain ⟨x', hx'⟩ := titled_iff.mp h'
  cases hx.symm.trans hx'
  rfl

end Titles

/-! ## Places that are listed -/

/-- Whether an outline lists the node at a place: it lies below the root and has a title, it and everything between it
and the root is named, and no constant above it is listed. -/
def Listed (s : Source) (c : Cursor) : Prop :=
  -- only the root has no path
  c.path ≠ [] ∧ c.node.isNamed ∧ (∃ kind name, Titled s c.node kind name) ∧
    (∀ a ∈ c.ancestors, a.path ≠ [] → a.node.isNamed) ∧
    ∀ a, (_ : a ∈ c.ancestors) → Listed s a → ¬ ∃ name, Titled s a.node .constant name
termination_by c.path.length
decreasing_by exact Cursor.length_path_of_mem_ancestors ‹_›

/-- The name of the nearest listed place of a lineage, nearest first, if there is one. -/
def NearestName (s : Source) (above : List Cursor) (name : Option Text) : Prop :=
  Option.Rel (fun a name => ∃ kind, Titled s a.node kind name) (above.find? (Listed s ·)) name

/-- The entry of a place in a flat outline. -/
structure Entry (s : Source) (uri : Uri) (c : Cursor) (e : FlatSymbol) : Prop where
  titled : Titled s c.node e.kind e.name
  uri_eq : e.uri = uri
  range_eq : e.range = (LineIndex.ofText s.text).range (s.span c.node)
  container : NearestName s c.ancestors e.container

/-- Whether a place lets through what is below it: it is the root or named, and it is no listed constant. -/
structure Passes (s : Source) (a : Cursor) : Prop where
  named : a.path ≠ [] → a.node.isNamed
  not_constant : Listed s a → ¬ ∃ name, Titled s a.node .constant name

/-- Whether every place down to `p` lets through what is below it, and `container` is the name that it goes under. -/
structure Opens (s : Source) (p : Cursor) (container : Option Text) : Prop where
  passes : ∀ a ∈ p.lineage, Passes s a
  container : NearestName s p.lineage container

section Places

variable {s : Source} {c p : Cursor} {container : Option Text} {h : Heading}

theorem listed_iff : Listed s c ↔
    c.path ≠ [] ∧ c.node.isNamed ∧ (∃ kind name, Titled s c.node kind name) ∧ ∀ a ∈ c.ancestors, Passes s a := by
  rw [Listed]
  constructor
  · rintro ⟨hpath, hnamed, htitle, habove, hconst⟩
    exact ⟨hpath, hnamed, htitle, fun a ha => ⟨habove a ha, hconst a ha⟩⟩
  · rintro ⟨hpath, hnamed, htitle, hpass⟩
    exact ⟨hpath, hnamed, htitle, fun a ha => (hpass a ha).named, fun a ha => (hpass a ha).not_constant⟩

theorem not_listed_root (root : Node) : ¬ Listed s ⟨root, []⟩ := fun h => (listed_iff.mp h).1 rfl

theorem not_listed_of_heading?_eq_none (hnone : heading? s c.node = none) : ¬ Listed s c := by
  intro hc
  obtain ⟨-, -, ⟨kind, name, htitle⟩, -⟩ := listed_iff.mp hc
  obtain ⟨x, hx⟩ := titled_iff.mp htitle
  cases hnone.symm.trans hx

/-- Nothing is listed below a place that lets nothing through. -/
theorem filter_listed_eq_nil (hc : ¬ Passes s c) : c.below.filter (Listed s ·) = [] := by
  refine List.filter_eq_nil_iff.mpr fun d hd hlisted => hc ?_
  exact (listed_iff.mp (of_decide_eq_true hlisted)).2.2.2 c (Cursor.mem_ancestors_of_mem_below hd)

/-- The root opens the tree, under no container. -/
theorem opens_root (root : Node) : Opens s ⟨root, []⟩ none := by
  have hroot : ¬ Listed s ⟨root, []⟩ := not_listed_root root
  refine ⟨fun a ha => ?_, ?_⟩
  · obtain rfl := List.mem_singleton.mp ha
    exact ⟨fun hpath => absurd rfl hpath, fun h => absurd h hroot⟩
  · rw [NearestName, Cursor.lineage, List.find?_cons_of_neg (by simpa using hroot)]
    exact .none

namespace Opens

variable (hp : Opens s p container) (hparent : c.parent? = some p) (hnamed : c.node.isNamed)

include hp hparent hnamed

/-- A named child with a heading is listed. -/
theorem listed (hh : heading? s c.node = some h) : Listed s c := by
  refine listed_iff.mpr ⟨?_, hnamed, ⟨_, _, titled_of_heading? hh⟩, ?_⟩
  · exact c.path_ne_nil_of_parent? hparent
  · rw [Cursor.ancestors_of_parent? hparent]
    exact hp.passes

/-- A named child that is no listed constant lets through what is below it. -/
theorem passes_child (hconst : Listed s c → ¬ ∃ name, Titled s c.node .constant name) :
    ∀ a ∈ c.lineage, Passes s a := by
  rw [Cursor.lineage, Cursor.ancestors_of_parent? hparent]
  exact List.forall_mem_cons.mpr ⟨⟨fun _ => hnamed, hconst⟩, hp.passes⟩

/-- Below a named child without a heading, the container is the same. -/
theorem through (hnone : heading? s c.node = none) : Opens s c container := by
  have hc := not_listed_of_heading?_eq_none hnone
  refine ⟨hp.passes_child hparent hnamed fun h => absurd h hc, ?_⟩
  rw [NearestName, Cursor.lineage, List.find?_cons_of_neg (by simpa using hc), Cursor.ancestors_of_parent? hparent]
  exact hp.container

/-- Below a named child with a heading that is no constant, the child is the container. -/
theorem inside (hh : heading? s c.node = some h) (hconst : h.kind ≠ .constant) : Opens s c (some h.name) := by
  have htitle := titled_of_heading? hh
  refine ⟨hp.passes_child hparent hnamed fun _ ⟨name, hname⟩ => hconst (htitle.kind_eq hname), ?_⟩
  rw [NearestName, Cursor.lineage, List.find?_cons_of_pos (by simpa using hp.listed hparent hnamed hh)]
  exact .some ⟨_, htitle⟩

/-- A listed constant lets nothing through. -/
theorem not_passes (hh : heading? s c.node = some h) (hconst : h.kind = .constant) : ¬ Passes s c := fun hc =>
  hc.not_constant (hp.listed hparent hnamed hh) ⟨h.name, hconst ▸ titled_of_heading? hh⟩

end Opens

end Places

/-! ## The outline -/

section Entries

variable {s : Source} {uri : Uri} {c p : Cursor} {container : Option Text}

/-- If the outline below a child of an open place has the right entries, so has the outline from the child on down. -/
theorem forall₂_child (hp : Opens s p container) (hparent : c.parent? = some p)
    (hbelow : ∀ inside, Opens s c inside → List.Forall₂ (Entry s uri) (c.below.filter (Listed s ·))
      (flattenAll uri inside (below s (LineIndex.ofText s.text) c.node))) :
    List.Forall₂ (Entry s uri) ((c :: c.below).filter (Listed s ·)) (flattenAll uri container
      (if c.node.isNamed then
        match heading? s c.node with
        | some h => [symbol s (LineIndex.ofText s.text) c.node h (below s (LineIndex.ofText s.text) c.node)]
        | none => below s (LineIndex.ofText s.text) c.node
      else [])) := by
  split
  case isFalse hnamed =>
    -- a token is no symbol and no way down
    have hpath := c.path_ne_nil_of_parent? hparent
    have hlisted : ¬ Listed s c := fun h => hnamed (listed_iff.mp h).2.1
    have hpass : ¬ Passes s c := fun h => hnamed (h.named hpath)
    rw [List.filter_cons_of_neg (by simpa using hlisted), filter_listed_eq_nil hpass]
    exact .nil
  case isTrue hnamed =>
    split
    case h_2 hnone =>
      -- no symbol: those below it go where it would have gone
      have hlisted := not_listed_of_heading?_eq_none hnone
      rw [List.filter_cons_of_neg (by simpa using hlisted)]
      exact hbelow container (hp.through hparent hnamed hnone)
    case h_1 h hh =>
      have hlisted := hp.listed hparent hnamed hh
      rw [List.filter_cons_of_pos (by simpa using hlisted), symbol, flattenAll, flattenAll, List.append_nil, flattenOne]
      refine .cons ⟨titled_of_heading? hh, rfl, rfl, ?_⟩ ?_
      · rw [Cursor.ancestors_of_parent? hparent]
        exact hp.container
      · split
        case isTrue hconst =>
          -- the symbol has none inside, and none is listed below
          rw [filter_listed_eq_nil (hp.not_passes hparent hnamed hh hconst)]
          exact .nil
        case isFalse hconst => exact hbelow _ (hp.inside hparent hnamed hh hconst)

mutual

/-- Below an open place, the outline has the entries of the places that are listed. -/
theorem forall₂_below (n : Node) (path : List Crumb) (container : Option Text) (hp : Opens s ⟨n, path⟩ container) :
    List.Forall₂ (Entry s uri) ((Cursor.below ⟨n, path⟩).filter (Listed s ·))
      (flattenAll uri container (below s (LineIndex.ofText s.text) n)) :=
  match n with
  | .mk l cs => forall₂_among l cs [] path container hp

theorem forall₂_among (l : Label) (cs before : List Node) (path : List Crumb) (container : Option Text)
    (hp : Opens s ⟨.mk l (before.reverse ++ cs), path⟩ container) :
    List.Forall₂ (Entry s uri) ((Cursor.visitedAmong (fun _ => .descend) l cs before path).filter (Listed s ·))
      (flattenAll uri container (among s (LineIndex.ofText s.text) cs)) :=
  match cs with
  | [] => .nil
  | child :: cs => by
    -- the child that is passed joins those before
    have hrest : Opens s ⟨.mk l ((child :: before).reverse ++ cs), path⟩ container := by
      rwa [List.reverse_cons, List.append_assoc]
    have hbelow := forall₂_below child (⟨l, before, cs⟩ :: path)
    rw [Cursor.visitedAmong, List.filter_append, among, flattenAll_append, Cursor.visited_eq_cons]
    exact List.rel_append (forall₂_child hp rfl hbelow) (forall₂_among l cs (child :: before) path container hrest)

end

/-- **The flat outline lists, in pre-order and once each, the places that are listed**, with the name of the nearest
listed place above as the container. -/
theorem flatten_ofSource (s : Source) (uri : Uri) :
    s.root.places.map Cursor.node = s.root.preorder ∧ s.root.places.Nodup ∧
      (∀ c ∈ s.root.places, [Cursor.ofRoot s.root] <:+ c.lineage) ∧
      List.Forall₂ (Entry s uri) (s.root.places.filter (Listed s ·)) (flatten uri (ofSource s)) := by
  refine ⟨s.root.map_node_places, s.root.nodup_places, fun c => Node.suffix_lineage_of_mem_places, ?_⟩
  have hroot : ¬ Listed s ⟨s.root, []⟩ := not_listed_root s.root
  rw [flatten_eq, ofSource_eq, Node.places, Cursor.visited_eq_cons, List.filter_cons_of_neg (by simpa using hroot)]
  exact forall₂_below s.root [] none (opens_root s.root)

end Entries

end Outline

end RubyServer
