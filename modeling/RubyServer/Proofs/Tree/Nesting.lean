import RubyServer.Proofs.Text.Places
import RubyServer.Proofs.Tree.Walk
import RubyServer.Source

/-!
# Nodes inside each other

In the tree of a text the children of a node lie within it, one after the other (`Node.Nested`). Then of any two nodes the
one that comes first in pre-order contains the other or ends before it (`Node.pairwise_leads_preorder`).

A point is looked up by going down, at each level into the child that it is in. So a named leaf is found at its start, also
where another node ends there (`Source.namedAt_start`); only empty nodes could be in the way.
-/

namespace RubyServer

namespace Node

/-- Whether a node covers the stretch of text that another covers. -/
def Contains (a b : Node) : Prop := a.label.start ≤ b.label.start ∧ b.label.stop ≤ a.label.stop

/-- A tree in which no node ends before it begins, children lie within their parent, and siblings are in order and do not
overlap. -/
structure Nested (root : Node) : Prop where
  ordered : ∀ n ∈ root.preorder, n.label.start ≤ n.label.stop
  contains : ∀ n ∈ root.preorder, ∀ child ∈ n.children, n.Contains child
  apart : ∀ n ∈ root.preorder, n.children.Pairwise fun c d => c.label.stop ≤ d.label.start

instance (a b : Node) : Decidable (a.Contains b) := inferInstanceAs (Decidable (_ ∧ _))

instance (root : Node) : Decidable root.Nested :=
  decidable_of_iff ((∀ n ∈ root.preorder, n.label.start ≤ n.label.stop) ∧
      (∀ n ∈ root.preorder, ∀ child ∈ n.children, n.Contains child) ∧
      ∀ n ∈ root.preorder, n.children.Pairwise fun c d => c.label.stop ≤ d.label.start)
    ⟨fun h => ⟨h.1, h.2.1, h.2.2⟩, fun h => ⟨h.ordered, h.contains, h.apart⟩⟩

/-- How a node stands to one that follows it in pre-order: it contains it, and then is no leaf, or it ends before it. -/
def Leads (a b : Node) : Prop := a.children ≠ [] ∧ a.Contains b ∨ a.label.stop ≤ b.label.start

variable {root n c : Node}

theorem mem_preorder_self (n : Node) : n ∈ n.preorder := (mem_preorder_iff n n).mpr .refl

theorem preorder_subset_of_mem_children (h : c ∈ root.children) : c.preorder ⊆ root.preorder := fun n hn =>
  (mem_preorder_iff root n).mpr (.head h ((mem_preorder_iff c n).mp hn))

theorem mem_preorderAll {cs : List Node} : n ∈ preorderAll cs ↔ ∃ c ∈ cs, n ∈ c.preorder := by
  simp only [mem_preorderAll_iff, mem_preorder_iff]

namespace Nested

theorem child (h : root.Nested) (hc : c ∈ root.children) : c.Nested :=
  have hsub := preorder_subset_of_mem_children hc
  ⟨fun n hn => h.ordered n (hsub hn), fun n hn => h.contains n (hsub hn), fun n hn => h.apart n (hsub hn)⟩

/-- The root contains every node. -/
theorem contains_of_mem (h : root.Nested) (hn : n ∈ root.preorder) : root.Contains n := by
  have hreach := (mem_preorder_iff root n).mp hn
  induction hreach with
  | refl => exact ⟨Nat.le_refl _, Nat.le_refl _⟩
  | @tail m child hm hchild ih =>
    have hmem := (mem_preorder_iff root m).mpr hm
    obtain ⟨hstart, hstop⟩ := ih hmem
    obtain ⟨hstart', hstop'⟩ := h.contains m hmem child hchild
    exact ⟨hstart.trans hstart', hstop'.trans hstop⟩

end Nested

mutual

/-- **Of two nodes in pre-order, the first contains the second or ends before it.** -/
theorem pairwise_leads_preorder (node : Node) (h : node.Nested) : node.preorder.Pairwise Leads :=
  match node with
  | .mk l cs => by
    rw [preorder, List.pairwise_cons]
    refine ⟨fun n hn => Or.inl ⟨?_, ?_⟩, ?_⟩
    · rintro rfl
      cases hn
    · exact h.contains_of_mem (by rw [preorder]; exact List.mem_cons_of_mem _ hn)
    · exact pairwise_leads_preorderAll cs (fun c hc => h.child hc) (h.apart _ (mem_preorder_self _))

theorem pairwise_leads_preorderAll (cs : List Node) (h : ∀ c ∈ cs, c.Nested)
    (hapart : cs.Pairwise fun c d => c.label.stop ≤ d.label.start) : (preorderAll cs).Pairwise Leads :=
  match cs with
  | [] => .nil
  | c :: cs => by
    obtain ⟨hfirst, hrest⟩ := List.forall_mem_cons.mp h
    obtain ⟨hbefore, hapart⟩ := List.pairwise_cons.mp hapart
    rw [preorderAll, List.pairwise_append]
    refine ⟨pairwise_leads_preorder c hfirst, pairwise_leads_preorderAll cs hrest hapart, ?_⟩
    intro a ha b hb
    -- `a` ends within `c`, and `b` begins within a sibling of `c` that follows
    obtain ⟨d, hd, hb⟩ := mem_preorderAll.mp hb
    have hac := hfirst.contains_of_mem ha
    have hdb := (hrest d hd).contains_of_mem hb
    exact Or.inr (hac.2.trans ((hbefore d hd).trans hdb.1))

end

theorem Nested.pairwise_places (h : root.Nested) : root.places.Pairwise fun c d => c.node.Leads d.node := by
  have hpairs := pairwise_leads_preorder root h
  rwa [← map_node_places, List.pairwise_map] at hpairs

end Node

/-! ## The node at a point -/

namespace Cursor

mutual

/-- What is found below a node is the answer so far or a node of its tree. -/
theorem namedBelow_cases (span : Node → Span) (p : Point) (node : Node) (path : List Crumb) (answer : Cursor) :
    namedBelow span p node path answer = answer ∨ (namedBelow span p node path answer).node ∈ node.preorder :=
  match node with
  | .mk l cs => by
    rw [namedBelow, Node.preorder]
    exact (namedAmong_cases span p l cs [] path answer).imp_right (List.mem_cons_of_mem _)

theorem namedAmong_cases (span : Node → Span) (p : Point) (l : Label) (cs before : List Node) (path : List Crumb)
    (answer : Cursor) : namedAmong span p l cs before path answer = answer ∨
      (namedAmong span p l cs before path answer).node ∈ Node.preorderAll cs :=
  match cs with
  | [] => Or.inl rfl
  | child :: cs => by
    rw [namedAmong, Node.preorderAll]
    split
    · exact (namedAmong_cases span p l cs _ path answer).imp_right (List.mem_append_right _)
    · split
      · exact Or.inl rfl
      · simp only
        rcases namedBelow_cases span p child (⟨l, before, cs⟩ :: path)
          (if child.isNamed then ⟨child, ⟨l, before, cs⟩ :: path⟩ else answer) with heq | hmem
        · rw [heq]
          split
          · exact Or.inr (List.mem_append_left _ child.mem_preorder_self)
          · exact Or.inl rfl
        · exact Or.inr (List.mem_append_left _ hmem)

end

end Cursor

namespace Source

variable {s : Source} {n : Node} {k : Nat}

theorem namedAt?_eq (s : Source) (p : Point) : s.namedAt? p = s.root?.map fun _ => s.namedAt p := by
  unfold namedAt? namedAt root? root
  cases s.parse <;> rfl

theorem namedAt_mem_preorder (s : Source) (p : Point) : (s.namedAt p).node ∈ s.root.preorder := by
  rcases Cursor.namedBelow_cases s.span p s.root [] (Cursor.ofRoot s.root) with heq | hmem
  · rw [namedAt, Cursor.namedAt, heq]
    exact s.root.mem_preorder_self
  · exact hmem

/-- A named node is in a tree that is there. -/
theorem root?_of_mem_preorder (hn : n ∈ s.root.preorder) (hnamed : n.isNamed) : s.root? = some s.root := by
  obtain ⟨t, parse⟩ := s
  cases parse with
  | tree root => rfl
  | failed reason =>
    -- the node that stands in for the tree is not named
    obtain rfl := List.mem_singleton.mp hn
    cases hnamed

/-- A node is passed by from the offset on at which it ends, or from the next if it is empty. -/
theorem liesBefore_span_iff : Cursor.liesBefore (s.span n) (s.text.pointAt k) = true ↔
    if n.label.start = n.label.stop then n.label.stop < k else n.label.stop ≤ k := by
  simp only [Cursor.liesBefore, span, Text.pointAt_inj, Text.pointAt_lt_iff, Text.pointAt_le_iff]
  split <;> exact decide_eq_true_iff

section Leaf

variable {c : Cursor}

mutual

/-- Going down from a node leads to a named leaf that is below it, if it starts at the point. -/
theorem namedBelow_of_mem_below (node : Node) (path : List Crumb) (answer : Cursor) (hnested : node.Nested)
    (hwide : ∀ n ∈ node.preorder, n.label.start ≠ n.label.stop) (hc : c ∈ Cursor.below ⟨node, path⟩)
    (hleaf : c.node.children = []) (hnamed : c.node.isNamed) :
    Cursor.namedBelow s.span (s.text.pointAt c.node.label.start) node path answer = c :=
  match node with
  | .mk l cs => by
    rw [Cursor.namedBelow]
    have hsub : Node.preorderAll cs ⊆ (Node.mk l cs).preorder := by
      rw [Node.preorder]
      exact List.subset_cons_self _ _
    exact namedAmong_of_mem l cs [] path answer (fun d hd => hnested.child hd) (hnested.apart _ (Node.mem_preorder_self _))
      (fun n hn => hwide n (hsub hn)) hc hleaf hnamed

theorem namedAmong_of_mem (l : Label) (cs before : List Node) (path : List Crumb) (answer : Cursor)
    (hnested : ∀ d ∈ cs, d.Nested) (hapart : cs.Pairwise fun d e => d.label.stop ≤ e.label.start)
    (hwide : ∀ n ∈ Node.preorderAll cs, n.label.start ≠ n.label.stop)
    (hc : c ∈ Cursor.visitedAmong (fun _ => .descend) l cs before path) (hleaf : c.node.children = [])
    (hnamed : c.node.isNamed) :
    Cursor.namedAmong s.span (s.text.pointAt c.node.label.start) l cs before path answer = c :=
  match cs with
  | [] => by cases hc
  | child :: cs => by
    obtain ⟨hchild, hnested⟩ := List.forall_mem_cons.mp hnested
    obtain ⟨hbefore, hapart⟩ := List.pairwise_cons.mp hapart
    rw [Node.preorderAll] at hwide
    have hchild' := hwide child (List.mem_append_left _ child.mem_preorder_self)
    rw [Cursor.visitedAmong, List.mem_append] at hc
    rw [Cursor.namedAmong]
    rcases hc with hc | hc
    · -- the leaf is the child or below it, so the child neither ends before the point nor begins behind it
      have hmem := Cursor.mem_preorder_of_mem_visited _ child _ hc
      obtain ⟨hstart, hstop⟩ := hchild.contains_of_mem hmem
      have hlt : c.node.label.start < c.node.label.stop :=
        Nat.lt_of_le_of_ne (hchild.ordered _ hmem) (hwide _ (List.mem_append_left _ hmem))
      have hpast : ¬ Cursor.liesBefore (s.span child) (s.text.pointAt c.node.label.start) = true := by
        rw [liesBefore_span_iff, if_neg hchild']
        omega
      have hin : ¬ s.text.pointAt c.node.label.start < (s.span child).start := by
        rw [span, Text.pointAt_lt_iff]
        omega
      rw [if_neg hpast, if_neg hin]
      simp only
      rw [Cursor.visited_eq_cons, List.mem_cons] at hc
      rcases hc with rfl | hc
      · obtain ⟨l', cs'⟩ := child
        obtain rfl : cs' = [] := hleaf
        rw [Cursor.namedBelow, Cursor.namedAmong, if_pos hnamed]
      · exact namedBelow_of_mem_below child _ _ hchild (fun n hn => hwide n (List.mem_append_left _ hn)) hc hleaf hnamed
    · -- the leaf is below a later sibling, so the child ends before the point
      obtain ⟨d, hd, hmem⟩ := Node.mem_preorderAll.mp (Cursor.mem_preorderAll_of_mem_visitedAmong _ l cs _ path hc)
      obtain ⟨hstart, -⟩ := (hnested d hd).contains_of_mem hmem
      have hpast : Cursor.liesBefore (s.span child) (s.text.pointAt c.node.label.start) = true := by
        rw [liesBefore_span_iff, if_neg hchild']
        exact (hbefore d hd).trans hstart
      rw [if_pos hpast]
      exact namedAmong_of_mem l cs _ path answer hnested hapart (fun n hn => hwide n (List.mem_append_right _ hn)) hc hleaf
        hnamed

end

/-- **A named leaf is found at its start.** -/
theorem namedAt_start (hnested : s.root.Nested) (hwide : ∀ n ∈ s.root.preorder, n.label.start ≠ n.label.stop)
    (hc : c ∈ s.root.places) (hleaf : c.node.children = []) (hnamed : c.node.isNamed) :
    s.namedAt (s.text.pointAt c.node.label.start) = c := by
  rw [Node.places, Cursor.visited_eq_cons, List.mem_cons] at hc
  rw [namedAt, Cursor.namedAt]
  rcases hc with rfl | hc
  · cases hroot : s.root with
    | mk l cs =>
      rw [hroot] at hleaf
      obtain rfl : cs = [] := hleaf
      rw [Cursor.namedBelow, Cursor.namedAmong, Cursor.ofRoot]
  · exact namedBelow_of_mem_below s.root [] _ hnested hwide hc hleaf hnamed

end Leaf

end Source

end RubyServer
