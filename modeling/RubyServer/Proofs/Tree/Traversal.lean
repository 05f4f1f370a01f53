import RubyServer.Tree.Cursor

/-!
# The loops of a walk

A walk is two loops around a cursor. The outer one visits a node and goes down to its first child, if the visitor enters the
node and there is one. Otherwise the inner one goes on to the next sibling, or up to the parent and on from there, until it is
back at the start node. `Cursor.Runs` says what these loops do by the moves of the cursor alone, with no bound on their turns.

Beside it stands the traversal by recursion on the tree: `Cursor.calls` lists the places at which a visitor is called, whose
answers may depend on all it has seen before. The loops go through a subtree exactly as the recursion does, and come back to
where they entered it (`Runs.through`). So they end, and there is one way to run them (`runs_iff`); `Cursor.walk` computes it,
since its bound on the visits is never met (`walk_shown`).
-/

namespace RubyServer

namespace Cursor

universe u

variable {σ : Type u}

/-! ## The traversal by recursion -/

/-- The state of a visitor after a list of calls. -/
def stateAfter (visit : σ → Cursor → Visit × σ) (s : σ) (seen : List Cursor) : σ :=
  seen.foldl (fun s c => (visit s c).2) s

mutual

/-- The places at which a visitor is called from a node on down: the node itself, and then what is below it, unless the
answer is to leave that out. -/
def calls (visit : σ → Cursor → Visit × σ) : Node → List Crumb → σ → List Cursor
  | .mk l cs, path, s =>
    ⟨.mk l cs, path⟩ ::
      match visit s ⟨.mk l cs, path⟩ with
      | (.descend, s) => callsAmong visit l cs [] path s
      | (.skip, _) => []

/-- The places at which a visitor is called among siblings and below them, one sibling after the other; `before` holds those
already passed. -/
def callsAmong (visit : σ → Cursor → Visit × σ) (l : Label) : List Node → List Node → List Crumb → σ → List Cursor
  | [], _, _, _ => []
  | c :: cs, before, path, s =>
    let first := calls visit c (⟨l, before, cs⟩ :: path) s
    first ++ callsAmong visit l cs (c :: before) path (stateAfter visit s first)

end

/-! ## The loops -/

/-- Where the loops stand: before the visit of a node, or with the node and everything below it done. -/
inductive Stage where
  | arriving (c : Cursor)
  | leaving (c : Cursor)

/-- Where a visit leads: to the first child, if the visitor enters the node and it has one. -/
def Stage.afterVisit (c : Cursor) : Visit → Stage
  | .skip => .leaving c
  | .descend =>
    match c.firstChild? with
    | some child => .arriving child
    | none => .leaving c

/-- One turn of the inner loop: to the next sibling, or else to the parent, which is done as well then. -/
def Stage.onward? (c : Cursor) : Option Stage :=
  match c.nextSibling? with
  | some sibling => some (.arriving sibling)
  | none => c.parent?.map .leaving

/-- The place in the whole tree of a place below `start`. -/
def within (start c : Cursor) : Cursor := ⟨c.node, c.path ++ start.path⟩

/-- How the loops run from a stage to their end: the places of the tree at which they call the visitor, and the state in
which they leave it. Their cursor begins at `start` and knows nothing of the tree around it. -/
inductive Runs (visit : σ → Cursor → Visit × σ) (start : Cursor) : Stage → σ → List Cursor → σ → Prop
  | call {c : Cursor} {s t : σ} {seen : List Cursor}
      (rest : Runs visit start (.afterVisit c (visit s (start.within c)).1) (visit s (start.within c)).2 seen t) :
      Runs visit start (.arriving c) s (start.within c :: seen) t
  | move {c : Cursor} {stage : Stage} {s t : σ} {seen : List Cursor} (next : Stage.onward? c = some stage)
      (rest : Runs visit start stage s seen t) : Runs visit start (.leaving c) s seen t
  | stop {c : Cursor} {s : σ} (last : Stage.onward? c = none) : Runs visit start (.leaving c) s [] s

namespace Stage

/-- Where the loops stand among siblings: before the first of those to come, or behind the parent if there is none. -/
def amid (l : Label) : List Node → List Node → List Crumb → Stage
  | [], before, path => .leaving ⟨.mk l before.reverse, path⟩
  | c :: cs, before, path => .arriving ⟨c, ⟨l, before, cs⟩ :: path⟩

theorem afterVisit_descend (l : Label) (cs : List Node) (path : List Crumb) :
    afterVisit ⟨.mk l cs, path⟩ .descend = amid l cs [] path := by
  cases cs <;> rfl

theorem onward?_cons (node : Node) (crumb : Crumb) (path : List Crumb) :
    onward? ⟨node, crumb :: path⟩ = some (amid crumb.label crumb.after (node :: crumb.before) path) := by
  obtain ⟨l, before, after⟩ := crumb
  cases after with
  | nil => simp [onward?, nextSibling?, parent?, amid]
  | cons sibling rest => rfl

end Stage

section Runs

variable {visit : σ → Cursor → Visit × σ} {start c : Cursor} {stage : Stage} {s t t' : σ} {seen seen' : List Cursor}

/-- There is one way to run the loops. -/
theorem Runs.unique (h : Runs visit start stage s seen t) (h' : Runs visit start stage s seen' t') :
    seen = seen' ∧ t = t' := by
  induction h generalizing seen' with
  | call _ ih =>
    obtain ⟨rest'⟩ := h'
    obtain ⟨rfl, rfl⟩ := ih rest'
    exact ⟨rfl, rfl⟩
  | move hnext _ ih =>
    cases h' with
    | move hnext' rest' =>
      cases hnext.symm.trans hnext'
      exact ih rest'
    | stop hlast => cases hnext.symm.trans hlast
  | stop hlast =>
    cases h' with
    | move hnext _ => cases hlast.symm.trans hnext
    | stop _ => exact ⟨rfl, rfl⟩

theorem stateAfter_append (s : σ) (seen seen' : List Cursor) :
    stateAfter visit s (seen ++ seen') = stateAfter visit (stateAfter visit s seen) seen' := List.foldl_append

mutual

/-- The loops go through a subtree by the calls of the recursion, and then stand behind the node at which they entered it.
What they do from there on is left open. -/
theorem Runs.through (node : Node) (path : List Crumb) (s : σ) {seen : List Cursor}
    (h : Runs visit start (.leaving ⟨node, path⟩) (stateAfter visit s (calls visit node (path ++ start.path) s)) seen t) :
    Runs visit start (.arriving ⟨node, path⟩) s (calls visit node (path ++ start.path) s ++ seen) t :=
  match node with
  | .mk l cs => by
    rw [calls] at h ⊢
    refine .call ?_
    show Runs visit start (.afterVisit ⟨.mk l cs, path⟩ (visit s ⟨.mk l cs, path ++ start.path⟩).1)
      (visit s ⟨.mk l cs, path ++ start.path⟩).2 _ t
    cases hvisit : visit s ⟨.mk l cs, path ++ start.path⟩ with
    | mk answer s' =>
      -- in `h` the answer decides twice: which calls there are, and in which state they leave the visitor
      rw [hvisit] at h
      rw [stateAfter, List.foldl_cons, hvisit] at h
      cases answer with
      | skip => exact h
      | descend =>
        rw [Stage.afterVisit_descend]
        exact Runs.among l cs [] path s' h

/-- The same among siblings, up to where the loops stand behind the parent. -/
theorem Runs.among (l : Label) (cs before : List Node) (path : List Crumb) (s : σ) {seen : List Cursor}
    (h : Runs visit start (.leaving ⟨.mk l (before.reverse ++ cs), path⟩)
      (stateAfter visit s (callsAmong visit l cs before (path ++ start.path) s)) seen t) :
    Runs visit start (.amid l cs before path) s (callsAmong visit l cs before (path ++ start.path) s ++ seen) t :=
  match cs with
  | [] => by
    rw [List.append_nil] at h
    exact h
  | c :: cs => by
    rw [callsAmong, stateAfter_append] at h
    rw [callsAmong, List.append_assoc]
    -- behind the first sibling, the inner loop leads to the others
    have hrest := Runs.among l cs (c :: before) path _ (by rwa [List.reverse_cons, List.append_assoc])
    exact Runs.through c (⟨l, before, cs⟩ :: path) s (.move (Stage.onward?_cons _ _ _) hrest)

end

/-- **The loops end, after the calls of the recursion.** -/
theorem runs_iff (visit : σ → Cursor → Visit × σ) (start : Cursor) (s : σ) :
    Runs visit start (.arriving (ofRoot start.node)) s seen t ↔
      seen = calls visit start.node start.path s ∧ t = stateAfter visit s (calls visit start.node start.path s) := by
  have hruns : Runs visit start (.arriving (ofRoot start.node)) s (calls visit start.node start.path s)
      (stateAfter visit s (calls visit start.node start.path s)) := by
    have h : Runs visit start (.arriving ⟨start.node, []⟩) s _ _ := Runs.through start.node [] s (.stop rfl)
    rwa [List.append_nil] at h
  constructor
  · exact fun h => h.unique hruns
  · rintro ⟨rfl, rfl⟩
    exact hruns

/-! ## The walk -/

/-- A walk goes on from the next place, if there is one. -/
theorem walkFrom_succ (fuel : Nat) (c : Cursor) (s : σ) : walkFrom visit (fuel + 1) c s =
    (c.next? (visit s c).1).elim (visit s c).2 fun d => walkFrom visit fuel d (visit s c).2 := by
  rw [walkFrom]
  cases hnext : c.next? (visit s c).1 <;> simp [hnext]

/-- A visitor of a whole tree, as a walk from `start` calls it. -/
def shown (start : Cursor) (visit : σ → Cursor → Visit × σ) (s : σ) (c : Cursor) : Visit × σ := visit s (start.within c)

/-- A bounded walk from where the loops stand. -/
def resume (visit : σ → Cursor → Visit × σ) (fuel : Nat) : Stage → σ → σ
  | .arriving c, s => walkFrom visit fuel c s
  | .leaving c, s => (afterSubtree? c.node c.path).elim s fun d => walkFrom visit fuel d s

theorem resume_afterVisit (fuel : Nat) (c : Cursor) (answer : Visit) (s : σ) :
    resume visit fuel (.afterVisit c answer) s = (c.next? answer).elim s fun d => walkFrom visit fuel d s := by
  cases answer with
  | skip => rfl
  | descend =>
    rw [next?, Stage.afterVisit]
    cases hchild : c.firstChild? <;> rfl

/-- A bounded walk goes on from where the inner loop leads, if it does. -/
theorem resume_leaving (fuel : Nat) (c : Cursor) (s : σ) :
    resume visit fuel (.leaving c) s = (Stage.onward? c).elim s fun stage => resume visit fuel stage s := by
  obtain ⟨node, _ | ⟨⟨l, before, after⟩, path⟩⟩ := c
  · rfl
  · cases after <;> rfl

/-- A bounded walk does what the loops do, if it may make as many visits as they make calls. -/
theorem Runs.resume_eq (h : Runs visit start stage s seen t) {fuel : Nat} (hfuel : seen.length ≤ fuel) :
    resume (start.shown visit) fuel stage s = t := by
  induction h generalizing fuel with
  | call _ ih =>
    cases fuel with
    | zero => cases hfuel
    | succ fuel =>
      rw [resume, walkFrom_succ, ← resume_afterVisit]
      exact ih (Nat.le_of_succ_le_succ hfuel)
  | move hnext _ ih =>
    rw [resume_leaving, hnext]
    exact ih hfuel
  | stop hlast =>
    rw [resume_leaving, hlast]
    rfl

mutual

/-- There are no more calls than nodes. -/
theorem length_calls_le (visit : σ → Cursor → Visit × σ) (node : Node) (path : List Crumb) (s : σ) :
    (calls visit node path s).length ≤ node.size :=
  match node with
  | .mk l cs => by
    rw [calls, Node.size, List.length_cons, Nat.add_comm 1]
    apply Nat.succ_le_succ
    split
    · exact length_callsAmong_le visit l cs [] path _
    · exact Nat.zero_le _

theorem length_callsAmong_le (visit : σ → Cursor → Visit × σ) (l : Label) (cs before : List Node) (path : List Crumb)
    (s : σ) : (callsAmong visit l cs before path s).length ≤ Node.sizeAll cs :=
  match cs with
  | [] => Nat.le_refl _
  | c :: cs => by
    rw [callsAmong, Node.sizeAll, List.length_append]
    exact Nat.add_le_add (length_calls_le visit c _ s) (length_callsAmong_le visit l cs _ path _)

end

/-- **A walk leaves the visitor as the recursion does**, from any node of a tree. -/
theorem walk_shown (visit : σ → Cursor → Visit × σ) (start : Cursor) (s : σ) :
    walk (start.shown visit) start.node s = stateAfter visit s (calls visit start.node start.path s) :=
  ((runs_iff visit start s).mpr ⟨rfl, rfl⟩).resume_eq (length_calls_le visit start.node start.path s)

theorem shown_ofRoot (visit : σ → Cursor → Visit × σ) (root : Node) : (ofRoot root).shown visit = visit := by
  funext s c
  exact congrArg (fun path => visit s ⟨c.node, path⟩) (List.append_nil c.path)

theorem walk_eq_stateAfter (visit : σ → Cursor → Visit × σ) (root : Node) (s : σ) :
    walk visit root s = stateAfter visit s (calls visit root [] s) := by
  have h := walk_shown visit (ofRoot root) s
  rwa [shown_ofRoot] at h

/-! ## Visitors that keep a record -/

/-- A visitor that also lists the places at which it is called. -/
def noting (visit : σ → Cursor → Visit × σ) (record : List Cursor × σ) (c : Cursor) : Visit × (List Cursor × σ) :=
  ((visit record.2 c).1, record.1 ++ [c], (visit record.2 c).2)

theorem stateAfter_noting (visit : σ → Cursor → Visit × σ) (noted : List Cursor) (s : σ) (seen : List Cursor) :
    stateAfter (noting visit) (noted, s) seen = (noted ++ seen, stateAfter visit s seen) := by
  induction seen generalizing noted s with
  | nil =>
    rw [List.append_nil]
    rfl
  | cons c seen ih =>
    have h := ih (noted ++ [c]) (visit s c).2
    rwa [List.append_assoc] at h

mutual

theorem calls_noting (visit : σ → Cursor → Visit × σ) (node : Node) (path : List Crumb) (noted : List Cursor) (s : σ) :
    calls (noting visit) node path (noted, s) = calls visit node path s :=
  match node with
  | .mk l cs => by
    rw [calls, calls, noting]
    refine congrArg (_ :: ·) ?_
    cases visit s ⟨.mk l cs, path⟩ with
    | mk answer s' =>
      cases answer with
      | descend => exact callsAmong_noting visit l cs [] path _ s'
      | skip => rfl

theorem callsAmong_noting (visit : σ → Cursor → Visit × σ) (l : Label) (cs before : List Node) (path : List Crumb)
    (noted : List Cursor) (s : σ) :
    callsAmong (noting visit) l cs before path (noted, s) = callsAmong visit l cs before path s :=
  match cs with
  | [] => rfl
  | c :: cs => by
    rw [callsAmong, callsAmong, calls_noting visit c _ noted s, stateAfter_noting, callsAmong_noting visit l cs]

end

end Runs

end Cursor

end RubyServer
