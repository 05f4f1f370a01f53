import Mathlib.Logic.Relation
import RubyServer.Proofs.Tree.Traversal

/-!
# What a walk visits

From any node of a tree a walk calls any visitor as the traversal by recursion does, and it never leaves the subtree of that
node (`walk_traverses`). Where the visitor decides by the place alone whether to enter the children of a node, the places that
it visits are `visited`, and the walk is a fold over them (`walk_eq_foldl`).

A node is visited exactly if every node above it is entered (`exists_mem_visited_iff`). So the topmost nodes with a
property are those that have it and none of whose ancestors has it (`exists_mem_outermost_iff`), and everything visited is
a node of the tree (`mem_preorder_of_mem_visited`).

Equal nodes may stand at several places of a tree. A walk visits no place twice (`nodup_visited`), and one that enters
everything visits the nodes in pre-order (`map_node_visited`), so the places of a tree (`Node.places`) are its nodes in
pre-order, told apart by what is around them. Of these, any walk visits those that have only ancestors which it enters
(`Node.visited_eq_filter_places`).
-/

namespace RubyServer

theorem flatMap_filter_eq {α β : Type} (p : α → Bool) (f : α → List β) (l : List α) :
    (l.filter p).flatMap f = l.flatMap fun a => if p a then f a else [] := by
  induction l with
  | nil => rfl
  | cons a l ih => cases h : p a <;> simp [h, ih]

namespace Cursor

mutual

/-- The nodes that a walk visits from a node on down, each with its path. -/
def visited (answer : Cursor → Visit) : Node → List Crumb → List Cursor
  | .mk l cs, path =>
    ⟨.mk l cs, path⟩ ::
      match answer ⟨.mk l cs, path⟩ with
      | .descend => visitedAmong answer l cs [] path
      | .skip => []

/-- The nodes that a walk visits among siblings and below them; `before` holds the siblings already passed. -/
def visitedAmong (answer : Cursor → Visit) (l : Label) : List Node → List Node → List Crumb → List Cursor
  | [], _, _ => []
  | c :: cs, before, path => visited answer c (⟨l, before, cs⟩ :: path) ++ visitedAmong answer l cs (c :: before) path

end

/-! ## The walk as a fold -/

section Walk

variable {σ : Type} {visit : σ → Cursor → Visit × σ} {answer : Cursor → Visit}

mutual

/-- A visitor whose answers depend on the place alone is called at the nodes visited for these answers. -/
theorem calls_eq_visited (hvisit : ∀ s c, (visit s c).1 = answer c) (node : Node) (path : List Crumb) (s : σ) :
    calls visit node path s = visited answer node path :=
  match node with
  | .mk l cs => by
    rw [calls, visited, ← hvisit s]
    refine congrArg (_ :: ·) ?_
    cases visit s ⟨.mk l cs, path⟩ with
    | mk given s' =>
      cases given with
      | descend => exact callsAmong_eq_visitedAmong hvisit l cs [] path s'
      | skip => rfl

theorem callsAmong_eq_visitedAmong (hvisit : ∀ s c, (visit s c).1 = answer c) (l : Label) (cs before : List Node)
    (path : List Crumb) (s : σ) : callsAmong visit l cs before path s = visitedAmong answer l cs before path :=
  match cs with
  | [] => rfl
  | c :: cs => by
    rw [callsAmong, visitedAmong, calls_eq_visited hvisit c, callsAmong_eq_visitedAmong hvisit l cs]

end

/-- **A walk is a fold over the nodes it visits.** -/
theorem walk_eq_foldl (hvisit : ∀ s c, (visit s c).1 = answer c) (root : Node) (s : σ) :
    walk visit root s = (visited answer root []).foldl (fun s c => (visit s c).2) s := by
  rw [walk_eq_stateAfter, calls_eq_visited hvisit]
  rfl

/-- A walk that puts what it finds at each node in front of the rest finds it in the order of its visits. -/
theorem walk_gather {α : Type} {visit : List α → Cursor → Visit × List α} (answer : Cursor → Visit)
    (gain : Cursor → List α) (hvisit : ∀ found c, visit found c = (answer c, (gain c).reverse ++ found)) (root : Node) :
    (walk visit root []).reverse = (visited answer root []).flatMap gain := by
  have hfold (cs : List Cursor) (found : List α) :
      cs.foldl (fun found c => (visit found c).2) found = (cs.flatMap gain).reverse ++ found := by
    induction cs generalizing found with
    | nil => rfl
    | cons c cs ih => rw [List.foldl_cons, ih, hvisit, List.flatMap_cons, List.reverse_append, List.append_assoc]
  have hanswer : ∀ found c, (visit found c).1 = answer c := fun found c => by rw [hvisit]
  rw [walk_eq_foldl hanswer, hfold, List.append_nil, List.reverse_reverse]

end Walk

/-! ## Which nodes are visited -/

section Visited

variable {answer : Cursor → Visit} {enters : Node → Prop}

mutual

/-- A node is visited exactly if it is entered through all the nodes above it. -/
theorem exists_mem_visited_iff (h : ∀ c, answer c = .descend ↔ enters c.node) (node : Node) (path : List Crumb)
    (n : Node) : (∃ c ∈ visited answer node path, c.node = n) ↔
      Relation.ReflTransGen (fun parent child => enters parent ∧ child ∈ parent.children) node n :=
  match node with
  | .mk l cs => by
    have hbelow := exists_mem_visitedAmong_iff h l cs [] path n
    have henters := h ⟨.mk l cs, path⟩
    rw [visited, Relation.ReflTransGen.cases_head_iff]
    simp only [List.mem_cons, exists_eq_or_imp, and_assoc, exists_and_left]
    refine or_congr Iff.rfl ?_
    cases hanswer : answer ⟨.mk l cs, path⟩ with
    | descend => simpa [henters.mp hanswer, Node.children] using hbelow
    | skip =>
      have hnot : ¬ enters (.mk l cs) := fun he => by cases hanswer.symm.trans (henters.mpr he)
      simp [hnot]

theorem exists_mem_visitedAmong_iff (h : ∀ c, answer c = .descend ↔ enters c.node) (l : Label) (cs before : List Node)
    (path : List Crumb) (n : Node) : (∃ c ∈ visitedAmong answer l cs before path, c.node = n) ↔
      ∃ child ∈ cs, Relation.ReflTransGen (fun parent child => enters parent ∧ child ∈ parent.children) child n :=
  match cs with
  | [] => by simp [visitedAmong]
  | child :: cs => by
    have hchild := exists_mem_visited_iff h child (⟨l, before, cs⟩ :: path) n
    have hrest := exists_mem_visitedAmong_iff h l cs (child :: before) path n
    simp only [visitedAmong, List.mem_append, or_and_right, exists_or, List.mem_cons, exists_eq_left, hchild, hrest]

end

mutual

/-- Everything that a walk visits is a node of the tree. -/
theorem mem_preorder_of_mem_visited (answer : Cursor → Visit) (node : Node) (path : List Crumb) {c : Cursor}
    (hc : c ∈ visited answer node path) : c.node ∈ node.preorder :=
  match node with
  | .mk l cs => by
    rw [visited, List.mem_cons] at hc
    rw [Node.preorder]
    rcases hc with rfl | hc
    · exact List.mem_cons_self
    · split at hc
      · exact List.mem_cons_of_mem _ (mem_preorderAll_of_mem_visitedAmong answer l cs [] path hc)
      · cases hc

theorem mem_preorderAll_of_mem_visitedAmong (answer : Cursor → Visit) (l : Label) (cs before : List Node)
    (path : List Crumb) {c : Cursor} (hc : c ∈ visitedAmong answer l cs before path) : c.node ∈ Node.preorderAll cs :=
  match cs with
  | [] => by cases hc
  | child :: cs => by
    rw [visitedAmong, List.mem_append] at hc
    rw [Node.preorderAll, List.mem_append]
    exact hc.imp (mem_preorder_of_mem_visited answer child _) (mem_preorderAll_of_mem_visitedAmong answer l cs _ path)

end

end Visited

end Cursor

namespace Node

mutual

/-- The nodes of a tree are the root and what can be reached from it by going down. -/
theorem mem_preorder_iff (root n : Node) :
    n ∈ root.preorder ↔ Relation.ReflTransGen (fun parent child => child ∈ parent.children) root n :=
  match root with
  | .mk l cs => by
    rw [preorder, List.mem_cons, Relation.ReflTransGen.cases_head_iff, mem_preorderAll_iff cs n]
    simp [children, eq_comm]

theorem mem_preorderAll_iff (cs : List Node) (n : Node) : n ∈ preorderAll cs ↔
    ∃ child ∈ cs, Relation.ReflTransGen (fun parent child => child ∈ parent.children) child n :=
  match cs with
  | [] => by simp [preorderAll]
  | child :: cs => by
    rw [preorderAll, List.mem_append, mem_preorder_iff child n, mem_preorderAll_iff cs n]
    simp

end

theorem mem_preorder_of_mem_children {root n child : Node} (h : n ∈ root.preorder) (hchild : child ∈ n.children) :
    child ∈ root.preorder :=
  (mem_preorder_iff root child).mpr (((mem_preorder_iff root n).mp h).tail hchild)

/-- Whether a node of a tree has a property, and none of its ancestors has it. -/
def Topmost (p : Node → Bool) (root n : Node) : Prop :=
  p n = true ∧ Relation.ReflTransGen (fun parent child => p parent = false ∧ child ∈ parent.children) root n

/-- Where a node of a tree has a property, one has it that is not below another. -/
theorem exists_topmost (p : Node → Bool) {root n : Node} (hn : n ∈ root.preorder) (hp : p n = true) :
    ∃ m, Topmost p root m := by
  have hreach := (mem_preorder_iff root n).mp hn
  induction hreach using Relation.ReflTransGen.head_induction_on with
  | refl => exact ⟨n, hp, .refl⟩
  | @head parent child hchild hreach ih =>
    cases hparent : p parent with
    | true => exact ⟨parent, hparent, .refl⟩
    | false =>
      obtain ⟨m, hm, hpath⟩ := ih ((mem_preorder_iff child n).mpr hreach)
      exact ⟨m, hm, .head ⟨hparent, hchild⟩ hpath⟩

end Node

namespace Cursor

theorem outermost_eq (p : Node → Bool) (root : Node) : outermost p root =
    (visited (fun c => if p c.node then .skip else .descend) root []).filter fun c => p c.node := by
  have hgather := walk_gather (fun c => if p c.node then .skip else .descend) (fun c => if p c.node then [c] else [])
    (fun found c => by
      show (if p c.node then (Visit.skip, c :: found) else (.descend, found)) = _
      cases p c.node <;> simp) root
  unfold outermost
  rw [hgather, ← flatMap_filter_eq, List.flatMap_singleton']

/-- The outermost nodes with a property are those without an ancestor that has it. -/
theorem exists_mem_outermost_iff (p : Node → Bool) (root n : Node) :
    (∃ c ∈ outermost p root, c.node = n) ↔ Node.Topmost p root n := by
  have henters : ∀ c : Cursor, (if p c.node then Visit.skip else .descend) = .descend ↔ p c.node = false := by
    intro c
    cases p c.node <;> simp
  unfold Node.Topmost
  rw [outermost_eq, ← exists_mem_visited_iff henters root [] n]
  constructor
  · rintro ⟨c, hc, rfl⟩
    obtain ⟨hc, hp⟩ := List.mem_filter.mp hc
    exact ⟨hp, c, hc, rfl⟩
  · rintro ⟨hp, c, hc, rfl⟩
    exact ⟨c, List.mem_filter.mpr ⟨hc, hp⟩, rfl⟩

/-! ## Places -/

section Places

variable {answer : Cursor → Visit} {l : Label} {node : Node} {cs before : List Node} {path : List Crumb} {a c p : Cursor}

/-- The node under the cursor and its ancestors, nearest first. -/
def lineage (c : Cursor) : List Cursor := c :: c.ancestors

/-- The places below a cursor, each before those below it. -/
def below : Cursor → List Cursor
  | ⟨.mk l cs, path⟩ => visitedAmong (fun _ => .descend) l cs [] path

theorem visited_eq_cons (node : Node) (path : List Crumb) :
    visited (fun _ => .descend) node path = ⟨node, path⟩ :: below ⟨node, path⟩ := by
  obtain ⟨l, cs⟩ := node
  rw [visited, below]

theorem path_ne_nil_of_parent? (h : c.parent? = some p) : c.path ≠ [] := by
  intro hpath
  rw [parent?, hpath] at h
  cases h

theorem ancestors_of_parent? (h : c.parent? = some p) : c.ancestors = p.lineage := by
  rcases c with ⟨n, _ | ⟨crumb, path⟩⟩
  · cases h
  · cases h
    rfl

/-- The path to a node goes through its ancestors. -/
theorem path_suffix_of_mem_ancestors (h : a ∈ c.ancestors) : ∃ crumb, crumb :: a.path <:+ c.path := by
  obtain ⟨node, path⟩ := c
  induction path generalizing node with
  | nil => cases h
  | cons crumb path ih =>
    rcases List.mem_cons.mp h with rfl | h
    · exact ⟨crumb, List.suffix_rfl⟩
    · obtain ⟨crumb', hsuffix⟩ := ih _ h
      exact ⟨crumb', hsuffix.trans (List.suffix_cons _ _)⟩

theorem length_path_of_mem_ancestors (h : a ∈ c.ancestors) : a.path.length < c.path.length := by
  obtain ⟨crumb, hsuffix⟩ := path_suffix_of_mem_ancestors h
  exact hsuffix.length_le

mutual

/-- Whatever is visited from a node on down is the node itself or has it among its ancestors, followed by its own. -/
theorem eq_or_lineage_suffix_of_mem_visited (answer : Cursor → Visit) (node : Node) (path : List Crumb)
    (hc : c ∈ visited answer node path) : c = ⟨node, path⟩ ∨ lineage ⟨node, path⟩ <:+ c.ancestors :=
  match node with
  | .mk l cs => by
    rw [visited, List.mem_cons] at hc
    refine hc.imp_right fun hc => ?_
    split at hc
    · exact lineage_suffix_of_mem_visitedAmong answer l cs [] path hc
    · cases hc

theorem lineage_suffix_of_mem_visitedAmong (answer : Cursor → Visit) (l : Label) (cs before : List Node)
    (path : List Crumb) (hc : c ∈ visitedAmong answer l cs before path) :
    lineage ⟨.mk l (before.reverse ++ cs), path⟩ <:+ c.ancestors :=
  match cs with
  | [] => by cases hc
  | child :: cs => by
    rw [visitedAmong, List.mem_append] at hc
    rcases hc with hc | hc
    · rcases eq_or_lineage_suffix_of_mem_visited answer child _ hc with rfl | hsuffix
      · exact List.suffix_rfl
      · exact (List.suffix_cons _ _).trans hsuffix
    · have hrest := lineage_suffix_of_mem_visitedAmong answer l cs (child :: before) path hc
      rwa [List.reverse_cons, List.append_assoc] at hrest

end

theorem mem_ancestors_of_mem_below (h : a ∈ c.below) : c ∈ a.ancestors := by
  obtain ⟨⟨l, cs⟩, path⟩ := c
  exact (lineage_suffix_of_mem_visitedAmong _ l cs [] path h).subset List.mem_cons_self

mutual

/-- Once a walk has entered everything above a node, it visits the places from there on down that have only ancestors which
it enters. -/
theorem visited_eq_filter (answer : Cursor → Visit) (node : Node) (path : List Crumb)
    (h : ∀ a ∈ ancestors ⟨node, path⟩, answer a = .descend) : visited answer node path =
      (visited (fun _ => .descend) node path).filter fun c => ∀ a ∈ c.ancestors, answer a = .descend :=
  match node with
  | .mk l cs => by
    rw [visited, visited, List.filter_cons_of_pos (by simpa using h)]
    refine congrArg (_ :: ·) ?_
    cases hanswer : answer ⟨.mk l cs, path⟩ with
    | descend => exact visitedAmong_eq_filter answer l cs [] path (List.forall_mem_cons.mpr ⟨hanswer, h⟩)
    | skip =>
      -- what is below has the node among its ancestors
      refine (List.filter_eq_nil_iff.mpr fun c hc hall => ?_).symm
      have hmem := (lineage_suffix_of_mem_visitedAmong _ l cs [] path hc).subset List.mem_cons_self
      cases hanswer.symm.trans (of_decide_eq_true hall _ hmem)

theorem visitedAmong_eq_filter (answer : Cursor → Visit) (l : Label) (cs before : List Node) (path : List Crumb)
    (h : ∀ a ∈ lineage ⟨.mk l (before.reverse ++ cs), path⟩, answer a = .descend) : visitedAmong answer l cs before path =
      (visitedAmong (fun _ => .descend) l cs before path).filter fun c => ∀ a ∈ c.ancestors, answer a = .descend :=
  match cs with
  | [] => rfl
  | child :: cs => by
    have hrest : ∀ a ∈ lineage ⟨.mk l ((child :: before).reverse ++ cs), path⟩, answer a = .descend := by
      rwa [List.reverse_cons, List.append_assoc]
    rw [visitedAmong, visitedAmong, List.filter_append, visited_eq_filter answer child (⟨l, before, cs⟩ :: path) h,
      visitedAmong_eq_filter answer l cs (child :: before) path hrest]

end

theorem path_suffix_of_mem_visited (hc : c ∈ visited answer node path) : path <:+ c.path := by
  rcases eq_or_lineage_suffix_of_mem_visited answer node path hc with rfl | hsuffix
  · exact List.suffix_rfl
  · obtain ⟨crumb, hpath⟩ := path_suffix_of_mem_ancestors (hsuffix.subset List.mem_cons_self)
    exact (List.suffix_cons _ _).trans hpath

/-- What is visited among siblings is visited from one of them on down, with no fewer siblings before it. -/
theorem exists_crumb_of_mem_visitedAmong (hc : c ∈ visitedAmong answer l cs before path) :
    ∃ crumb, before.length ≤ crumb.before.length ∧ crumb :: path <:+ c.path := by
  induction cs generalizing before with
  | nil => cases hc
  | cons child cs ih =>
    rw [visitedAmong, List.mem_append] at hc
    rcases hc with hc | hc
    · exact ⟨_, Nat.le_refl _, path_suffix_of_mem_visited hc⟩
    · obtain ⟨crumb, hlen, hpath⟩ := ih hc
      exact ⟨crumb, Nat.le_of_succ_le hlen, hpath⟩

mutual

/-- A walk visits no place twice. -/
theorem nodup_visited (answer : Cursor → Visit) (node : Node) (path : List Crumb) : (visited answer node path).Nodup :=
  match node with
  | .mk l cs => by
    rw [visited, List.nodup_cons]
    split
    · refine ⟨fun hmem => ?_, nodup_visitedAmong answer l cs [] path⟩
      obtain ⟨crumb, -, hpath⟩ := exists_crumb_of_mem_visitedAmong hmem
      exact absurd hpath.length_le (Nat.not_succ_le_self _)
    · exact ⟨List.not_mem_nil, List.nodup_nil⟩

theorem nodup_visitedAmong (answer : Cursor → Visit) (l : Label) (cs before : List Node) (path : List Crumb) :
    (visitedAmong answer l cs before path).Nodup :=
  match cs with
  | [] => List.nodup_nil
  | child :: cs => by
    rw [visitedAmong, List.nodup_append]
    refine ⟨nodup_visited answer child _, nodup_visitedAmong answer l cs (child :: before) path, ?_⟩
    rintro c hc _ hc' rfl
    -- the two paths would have different siblings before the same place
    have hpath := path_suffix_of_mem_visited hc
    obtain ⟨crumb, hlen, hpath'⟩ := exists_crumb_of_mem_visitedAmong hc'
    have heq := (List.suffix_of_suffix_length_le hpath hpath' (Nat.le_refl _)).eq_of_length rfl
    cases heq
    exact absurd hlen (Nat.not_succ_le_self _)

end

mutual

theorem map_node_visited (node : Node) (path : List Crumb) :
    (visited (fun _ => .descend) node path).map Cursor.node = node.preorder :=
  match node with
  | .mk l cs => by rw [visited, List.map_cons, map_node_visitedAmong l cs [] path, Node.preorder]

theorem map_node_visitedAmong (l : Label) (cs before : List Node) (path : List Crumb) :
    (visitedAmong (fun _ => .descend) l cs before path).map Cursor.node = Node.preorderAll cs :=
  match cs with
  | [] => rfl
  | child :: cs => by
    rw [visitedAmong, List.map_append, map_node_visited child, map_node_visitedAmong l cs, Node.preorderAll]

end

end Places

/-! ## Any visitor -/

section AnyVisitor

universe u

variable {σ : Type u}

mutual

/-- The calls of a visitor are at places from the start node on down, in pre-order. -/
theorem calls_sublist (visit : σ → Cursor → Visit × σ) (node : Node) (path : List Crumb) (s : σ) :
    (calls visit node path s).Sublist (visited (fun _ => .descend) node path) :=
  match node with
  | .mk l cs => by
    rw [calls, visited]
    refine List.Sublist.cons_cons _ ?_
    split
    · exact callsAmong_sublist visit l cs [] path _
    · exact List.nil_sublist _

theorem callsAmong_sublist (visit : σ → Cursor → Visit × σ) (l : Label) (cs before : List Node) (path : List Crumb)
    (s : σ) : (callsAmong visit l cs before path s).Sublist (visitedAmong (fun _ => .descend) l cs before path) :=
  match cs with
  | [] => List.nil_sublist _
  | c :: cs => by
    rw [callsAmong, visitedAmong]
    exact (calls_sublist visit c _ s).append (callsAmong_sublist visit l cs (c :: before) path _)

end

/-- **A walk is a pruned pre-order traversal.** This is so from any place of a tree, with any visitor, whose answers may depend
on what it has seen so far. The loops of the walk end, and in one way only: they call the visitor at the places of the
traversal by recursion, in its order. The walk leaves the visitor in the state that these calls lead to, and one that lists
its calls lists these. Each of them is at the start node or below it. -/
theorem walk_traverses (visit : σ → Cursor → Visit × σ) (start : Cursor) (s : σ) :
    (∀ seen t, Runs visit start (.arriving (ofRoot start.node)) s seen t ↔
      seen = calls visit start.node start.path s ∧ t = walk (start.shown visit) start.node s) ∧
    walk (start.shown visit) start.node s = stateAfter visit s (calls visit start.node start.path s) ∧
    walk (start.shown (noting visit)) start.node ([], s) =
      (calls visit start.node start.path s, walk (start.shown visit) start.node s) ∧
    ∀ c ∈ calls visit start.node start.path s, c = start ∨ start ∈ c.ancestors := by
  refine ⟨fun seen t => ?_, walk_shown visit start s, ?_, fun c hc => ?_⟩
  · rw [walk_shown]
    exact runs_iff visit start s
  · rw [walk_shown, walk_shown, calls_noting, stateAfter_noting, List.nil_append]
  · have hmem := (calls_sublist visit start.node start.path s).subset hc
    refine (eq_or_lineage_suffix_of_mem_visited _ start.node start.path hmem).imp_right fun hsuffix => ?_
    exact hsuffix.subset List.mem_cons_self

end AnyVisitor

end Cursor

namespace Node

/-- The places of a tree, each before those below it. -/
def places (root : Node) : List Cursor := Cursor.visited (fun _ => .descend) root []

theorem map_node_places (root : Node) : root.places.map Cursor.node = root.preorder := Cursor.map_node_visited root []

theorem nodup_places (root : Node) : root.places.Nodup := Cursor.nodup_visited _ root []

theorem mem_preorder_of_mem_places {root : Node} {c : Cursor} (hc : c ∈ root.places) : c.node ∈ root.preorder :=
  Cursor.mem_preorder_of_mem_visited _ root [] hc

/-- A walk visits the places that have only ancestors which it enters. -/
theorem visited_eq_filter_places (answer : Cursor → Visit) (root : Node) :
    Cursor.visited answer root [] = root.places.filter fun c => ∀ a ∈ c.ancestors, answer a = .descend :=
  Cursor.visited_eq_filter answer root [] fun _ ha => by cases ha

/-- The outermost places with a property are those that have it and no ancestor that has it. -/
theorem outermost_eq_filter (p : Node → Bool) (root : Node) : Cursor.outermost p root =
    root.places.filter fun c => p c.node = true ∧ ∀ a ∈ c.ancestors, p a.node = false := by
  rw [Cursor.outermost_eq, visited_eq_filter_places, List.filter_filter]
  refine List.filter_congr fun c _ => ?_
  simp

theorem findKinds_eq_filter (root : Node) (kinds : List String) :
    Cursor.findKinds root kinds = root.places.filter fun c => c.node.isNamed && kinds.contains c.kind := by
  have hgather := Cursor.walk_gather (fun _ => .descend)
    (fun c => if c.node.isNamed && kinds.contains c.kind then [c] else [])
    (fun found c => by
      show (Visit.descend, if c.node.isNamed && kinds.contains c.kind then c :: found else found) = _
      split <;> rfl) root
  unfold Cursor.findKinds
  rw [hgather, ← flatMap_filter_eq, List.flatMap_singleton']
  rfl

/-- Every place of a tree is the root or lies below it. -/
theorem suffix_lineage_of_mem_places {root : Node} {c : Cursor} (hc : c ∈ root.places) :
    [Cursor.ofRoot root] <:+ c.lineage := by
  rcases Cursor.eq_or_lineage_suffix_of_mem_visited _ root [] hc with rfl | hsuffix
  · exact List.suffix_rfl
  · exact hsuffix.trans (List.suffix_cons _ _)

end Node

end RubyServer
