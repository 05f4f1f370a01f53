import RubyServer.Proofs.Text.Sorting
import RubyServer.Proofs.Tree.Walk
import RubyServer.Source

/-!
# Which syntax errors are collected

Errors are collected by a walk that does not enter defects, nor subtrees without one, and there is no walk at all for a tree
without defects. Nothing is lost by this: above a defect every node has one below it (`Cursor.hasDefect_of_mem_ancestors`),
so that the walk comes to all defects that are not inside others, as one that enters everything else does (`walk_collects`).
-/

namespace RubyServer

namespace Node

mutual

/-- A tree has a defect if one of its nodes is one. -/
theorem hasDefect_iff (root : Node) : root.hasDefect = true ↔ ∃ n ∈ root.preorder, n.label.isDefect = true :=
  match root with
  | .mk l cs => by
    rw [hasDefect, Bool.or_eq_true, anyHasDefect_iff cs, preorder]
    simp only [List.mem_cons, or_and_right, exists_or, exists_eq_left]
    rfl

theorem anyHasDefect_iff (cs : List Node) :
    anyHasDefect cs = true ↔ ∃ n ∈ preorderAll cs, n.label.isDefect = true :=
  match cs with
  | [] => by simp [anyHasDefect, preorderAll]
  | c :: cs => by
    rw [anyHasDefect, Bool.or_eq_true, hasDefect_iff c, anyHasDefect_iff cs, preorderAll]
    simp only [List.mem_append, or_and_right, exists_or]

end

end Node

namespace Cursor

variable {a c : Cursor}

/-- A node is a node of each tree above it. -/
theorem mem_preorder_of_mem_ancestors (h : a ∈ c.ancestors) : c.node ∈ a.node.preorder := by
  obtain ⟨node, path⟩ := c
  induction path generalizing node with
  | nil => cases h
  | cons crumb path ih =>
    have hchild : node ∈ (Node.mk crumb.label (crumb.before.reverse ++ node :: crumb.after)).children :=
      List.mem_append_right _ List.mem_cons_self
    rcases List.mem_cons.mp h with rfl | h
    · exact (Node.mem_preorder_iff _ _).mpr (.single hchild)
    · exact Node.mem_preorder_of_mem_children (ih _ h) hchild

theorem hasDefect_of_mem_ancestors (h : a ∈ c.ancestors) (hc : c.node.label.isDefect = true) : a.node.hasDefect = true :=
  (Node.hasDefect_iff a.node).mpr ⟨c.node, mem_preorder_of_mem_ancestors h, hc⟩

/-- Whether a place holds a defect that is not inside another. -/
def OutermostDefect (c : Cursor) : Prop :=
  c.node.label.isDefect = true ∧ ∀ a ∈ c.ancestors, a.node.label.isDefect = false

instance (c : Cursor) : Decidable c.OutermostDefect := inferInstanceAs (Decidable (_ ∧ _))

end Cursor

namespace Source

variable {s : Source} {t : Text} {root : Node} {e : SyntaxError}

/-- The error that a defect is reported as. -/
def errorAt (s : Source) (n : Node) : SyntaxError :=
  if n.label.isMissing then .missing n.kind (s.span n) else s.unexpectedAt n

theorem errorAt_eq (s : Source) (n : Node) :
    (s.errorAt n).kind = (if n.label.isMissing then .missing n.kind else .unexpected) ∧ (s.errorAt n).span = s.span n := by
  unfold errorAt unexpectedAt
  simp only
  split
  · exact ⟨rfl, rfl⟩
  · split <;> exact ⟨rfl, rfl⟩

/-- A walk that puts the errors of defects in front of what it has found, enters none of them, and enters at least the other
nodes with a defect below them, finds the errors of the outermost defects in pre-order. -/
theorem walk_collects {visit : List SyntaxError → Cursor → Visit × List SyntaxError} (enters : Node → Bool)
    (hvisit : ∀ found c, visit found c =
      (if c.node.label.isDefect = false ∧ enters c.node = true then .descend else .skip,
        (if c.node.label.isDefect then [s.errorAt c.node] else []).reverse ++ found))
    (henters : ∀ n, n.hasDefect = true → enters n = true) :
    (Cursor.walk visit root []).reverse =
      (root.places.filter fun c => c.OutermostDefect).map fun c => s.errorAt c.node := by
  rw [Cursor.walk_gather _ _ hvisit, Node.visited_eq_filter_places, ← flatMap_filter_eq, List.filter_filter,
    List.map_eq_flatMap]
  refine congrArg (List.flatMap _) (List.filter_congr fun c _ => ?_)
  rw [Bool.eq_iff_iff, Bool.and_eq_true, decide_eq_true_iff, decide_eq_true_iff]
  refine and_congr_right fun hdefect => forall₂_congr fun a ha => ?_
  -- above a defect the walk enters whatever is not a defect itself
  have hentered := henters a.node (Cursor.hasDefect_of_mem_ancestors ha hdefect)
  simp [hentered]

/-- Collects errors in reverse, and enters every node that is not a defect. -/
def collectThroughout (s : Source) (found : List SyntaxError) (c : Cursor) : Visit × List SyntaxError :=
  if c.node.label.isMissing then (.skip, .missing c.kind (s.span c.node) :: found)
  else if c.node.label.isError then (.skip, s.unexpectedAt c.node :: found)
  else (.descend, found)

theorem walk_collect (s : Source) (root : Node) : (Cursor.walk s.collect root []).reverse =
    (root.places.filter fun c => c.OutermostDefect).map fun c => s.errorAt c.node := by
  refine walk_collects Node.hasDefect (fun found c => ?_) fun _ h => h
  cases hmissing : c.node.label.isMissing <;> cases herror : c.node.label.isError <;> cases hdefect : c.node.hasDefect <;>
    simp [collect, errorAt, Label.isDefect, Cursor.kind, hmissing, herror, hdefect]

theorem walk_collectThroughout (s : Source) (root : Node) : (Cursor.walk s.collectThroughout root []).reverse =
    (root.places.filter fun c => c.OutermostDefect).map fun c => s.errorAt c.node := by
  refine walk_collects (fun _ => true) (fun found c => ?_) fun _ _ => rfl
  cases hmissing : c.node.label.isMissing <;> cases herror : c.node.label.isError <;>
    simp [collectThroughout, errorAt, Label.isDefect, Cursor.kind, hmissing, herror]

/-- The errors of a source with a tree are those of the outermost defects of the tree. -/
theorem errors_eq (t : Text) (root : Node) : (Source.mk t root).errors =
    sortBy (fun a b => a.span.start ≤ b.span.start)
      ((root.places.filter fun c => c.OutermostDefect).map fun c => (Source.mk t root).errorAt c.node) := by
  unfold errors
  simp only
  split
  · rw [walk_collect]
  · next hsound =>
    have hnone : (root.places.filter fun c => c.OutermostDefect) = [] := by
      refine List.filter_eq_nil_iff.mpr fun c hc hdefect => hsound ?_
      exact (Node.hasDefect_iff root).mpr ⟨c.node, Node.mem_preorder_of_mem_places hc, (of_decide_eq_true hdefect).1⟩
    rw [hnone]
    rfl

theorem mem_errors_iff : e ∈ (Source.mk t root).errors ↔
    ∃ c ∈ root.places, c.OutermostDefect ∧ (Source.mk t root).errorAt c.node = e := by
  simp [errors_eq, mem_sortBy, and_assoc]

theorem hasErrors_iff (t : Text) (root : Node) :
    (Source.mk t root).hasErrors = true ↔ ∃ n ∈ root.preorder, n.label.isDefect = true := by
  have hsome : (Source.mk t root).hasErrors = true ↔ ∃ e, e ∈ (Source.mk t root).errors := by
    simp [hasErrors, List.eq_nil_iff_forall_not_mem]
  simp only [hsome, mem_errors_iff]
  constructor
  · rintro ⟨e, c, hc, hdefect, -⟩
    exact ⟨c.node, Node.mem_preorder_of_mem_places hc, hdefect.1⟩
  · rintro ⟨n, hn, hdefect⟩
    obtain ⟨m, hm⟩ := Node.exists_topmost (fun n => n.label.isDefect) hn hdefect
    obtain ⟨c, hc, -⟩ := (Cursor.exists_mem_outermost_iff _ root m).mpr hm
    obtain ⟨hc, hdefect⟩ := List.mem_filter.mp (Node.outermost_eq_filter _ root ▸ hc)
    exact ⟨_, c, hc, of_decide_eq_true hdefect, rfl⟩

/-- **No syntax error is lost.** The errors of a text with a tree are those of the missing tokens and error nodes that are
not inside others, one for each: a missing token under the name of its kind, and anything else as unexpected. They are
sorted by where they start, those that start together in pre-order, and they are what a walk finds that enters every node
but these. So there are errors exactly if some node of the tree is missing or an error node. -/
theorem errors_lossless (t : Text) (root : Node) :
    let s : Source := ⟨t, root⟩
    (∀ l, StablySorted (fun e => e.span.start)
      ((root.places.filter fun c => c.OutermostDefect).map fun c => s.errorAt c.node) l ↔ l = s.errors) ∧
    (∀ n, (s.errorAt n).kind = (if n.label.isMissing then .missing n.kind else .unexpected) ∧
      (s.errorAt n).span = s.span n) ∧
    s.errors = sortBy (fun a b => a.span.start ≤ b.span.start) (Cursor.walk s.collectThroughout root []).reverse ∧
    (s.hasErrors = true ↔ ∃ n ∈ root.preorder, n.label.isDefect = true) := by
  intro s
  refine ⟨fun l => ?_, errorAt_eq s, ?_, hasErrors_iff t root⟩
  · rw [errors_eq]
    exact stablySorted_sortBy_iff
  · rw [walk_collectThroughout]
    exact errors_eq t root

end Source

end RubyServer
