import Mathlib.Data.List.Forall2
import RubyServer.Lint.Rule
import RubyServer.Proofs.Tree.Walk

/-!
# Methods defined twice

A definition is known in its scope by a key (`Defines`). Among the named children of a scope, a definition is a
redefinition if one of the children before it has the same key (`Member.Repeats`), and its diagnostic cites the first of
these (`Member.Reports`). The rule goes through a scope once and keeps a table of the keys so far. The table knows the row
of the first definition of every key (`Knows`), which each child keeps true; so what is reported in a scope is decided by
its own children alone, and the walk puts scope after scope (`duplicateMethod_reports`).
-/

namespace RubyServer

namespace Rule

open scoped Classical

variable {s : Source} {n : Node} {nodes earlier : List Node} {key : String} {name first : Node}

/-! ## Definitions -/

/-- The definition of a method: the key by which it is known in its scope, and the node of its name. A method of an object
goes by the text of the object, a dot and its name, with `self` for an object that is not written. -/
inductive Defines (s : Source) (n : Node) : String → Node → Prop where
  | method {name : Node} (hkind : n.kind = "method") (hname : n.child? "name" = some name) :
    Defines s n (String.ofList (s.nodeText name)) name
  | ofObject {object name : Node} (hkind : n.kind = "singleton_method") (hobject : n.child? "object" = some object)
    (hname : n.child? "name" = some name) :
    Defines s n (String.ofList (s.nodeText object) ++ "." ++ String.ofList (s.nodeText name)) name
  | ofSelf {name : Node} (hkind : n.kind = "singleton_method") (hobject : n.child? "object" = none)
    (hname : n.child? "name" = some name) : Defines s n ("self" ++ "." ++ String.ofList (s.nodeText name)) name

theorem defines_iff : Defines s n key name ↔ definition? s n = some (key, name) := by
  constructor
  · rintro (⟨hkind, hname⟩ | ⟨hkind, hobject, hname⟩ | ⟨hkind, hobject, hname⟩)
    · simp [definition?, hkind, hname]
    · simp [definition?, hkind, hobject, hname]
    · simp only [definition?, hkind, hobject, hname, Option.map_some]
  · intro h
    unfold definition? at h
    split at h
    · next hkind =>
      obtain ⟨name', hname, heq⟩ := Option.map_eq_some_iff.mp h
      cases heq
      exact .method hkind hname
    · next hkind =>
      obtain ⟨name', hname, heq⟩ := Option.map_eq_some_iff.mp h
      cases heq
      cases hobject : n.child? "object" with
      | some object => exact .ofObject hkind hobject hname
      | none => exact .ofSelf hkind hobject hname
    · cases h

/-- A node defines one key. -/
theorem Defines.unique {key' : String} {name' : Node} (h : Defines s n key name) (h' : Defines s n key' name') :
    key = key' ∧ name = name' := by
  rw [defines_iff] at h h'
  rwa [h, Option.some.injEq, Prod.mk.injEq] at h'

/-- The name in the first of several nodes that define a key. -/
def FirstOf (s : Source) (nodes : List Node) (key : String) (name : Node) : Prop :=
  ∃ front n back, nodes = front ++ n :: back ∧ Defines s n key name ∧ ∀ m ∈ front, ∀ x, ¬ Defines s m key x

theorem FirstOf.exists_mem (h : FirstOf s nodes key name) : ∃ n ∈ nodes, ∃ x, Defines s n key x := by
  obtain ⟨front, n, back, rfl, hdef, -⟩ := h
  exact ⟨n, by simp, name, hdef⟩

/-- One more node is the first to define a key if none before it does. -/
theorem firstOf_concat : FirstOf s (nodes ++ [n]) key name ↔
    FirstOf s nodes key name ∨ (∀ m ∈ nodes, ∀ x, ¬ Defines s m key x) ∧ Defines s n key name := by
  constructor
  · rintro ⟨front, m, back, heq, hdef, hfront⟩
    rcases List.eq_nil_or_concat' back with rfl | ⟨back, last, rfl⟩
    · obtain ⟨rfl, hlast⟩ := List.append_inj' heq rfl
      cases hlast
      exact Or.inr ⟨hfront, hdef⟩
    · rw [← List.cons_append, ← List.append_assoc] at heq
      obtain ⟨rfl, -⟩ := List.append_inj' heq rfl
      exact Or.inl ⟨front, m, back, rfl, hdef, hfront⟩
  · rintro (⟨front, m, back, rfl, hdef, hfront⟩ | ⟨hnone, hdef⟩)
    · exact ⟨front, m, back ++ [n], by simp, hdef, hfront⟩
    · exact ⟨nodes, n, [], rfl, hdef, hnone⟩

theorem exists_firstOf_iff : (∃ name, FirstOf s nodes key name) ↔ ∃ n ∈ nodes, ∃ x, Defines s n key x := by
  constructor
  · rintro ⟨name, h⟩
    exact h.exists_mem
  · rintro ⟨n, hn, x, hdef⟩
    -- the first of the nodes for which there is a name at all
    induction nodes with
    | nil => cases hn
    | cons m nodes ih =>
      by_cases hm : ∃ x, Defines s m key x
      · obtain ⟨x, hm⟩ := hm
        exact ⟨x, [], m, nodes, rfl, hm, fun _ h => (by cases h)⟩
      · rcases List.mem_cons.mp hn with rfl | hn
        · exact absurd ⟨x, hdef⟩ hm
        · obtain ⟨name, front, n', back, rfl, hdef', hfront⟩ := ih hn
          refine ⟨name, m :: front, n', back, rfl, hdef', ?_⟩
          rintro m' hm' x' hx'
          rcases List.mem_cons.mp hm' with rfl | hm'
          · exact hm ⟨x', hx'⟩
          · exact hfront m' hm' x' hx'

/-! ## Redefinitions -/

/-- A node among its siblings: those before it, and the node itself. -/
structure Member where
  earlier : List Node
  node : Node

namespace Member

/-- Siblings in order, each with those before it; `earlier` holds the ones already passed. -/
def after (earlier : List Node) : List Node → List Member
  | [] => []
  | n :: rest => ⟨earlier, n⟩ :: after (earlier ++ [n]) rest

/-- Whether a node defines a key that one of its siblings before it defines. -/
def Repeats (s : Source) (m : Member) : Prop :=
  ∃ key name, Defines s m.node key name ∧ ∃ n ∈ m.earlier, ∃ x, Defines s n key x

/-- The diagnostic for a redefinition: it lies at the name, and cites the line of the name in the first definition. -/
def Reports (s : Source) (m : Member) (d : Diagnostic) : Prop :=
  ∃ key name first, Defines s m.node key name ∧ FirstOf s m.earlier key first ∧
    d = { severity := .warning
          concern := .duplicateMethod
          message := "Method `" ++ key ++ "` is defined more than once in this scope (first defined on line " ++
            toString ((s.span first).start.row + 1) ++ ")."
          rule := duplicateMethod.id
          span := s.span name }

end Member

/-- A table of keys that has the row of the first definition of each. -/
def Knows (s : Source) (nodes : List Node) (seen : List (String × Nat)) : Prop :=
  ∀ key row, seen.lookup key = some row ↔ ∃ first, FirstOf s nodes key first ∧ (s.span first).start.row = row

theorem knows_nil (s : Source) : Knows s [] [] := by
  intro key row
  constructor
  · rintro ⟨⟩
  · rintro ⟨first, ⟨front, n, back, heq, -⟩, -⟩
    simp at heq

section Step

variable {seen : List (String × Nat)} (h : Knows s earlier seen)

include h

theorem Knows.lookup_eq_none (hnone : seen.lookup key = none) : ∀ m ∈ earlier, ∀ x, ¬ Defines s m key x := by
  intro m hm x hdef
  obtain ⟨first, hfirst⟩ := exists_firstOf_iff.mpr ⟨m, hm, x, hdef⟩
  have hlookup := (h key _).mpr ⟨first, hfirst, rfl⟩
  rw [hnone] at hlookup
  cases hlookup

/-- A node that defines nothing leaves the table right. -/
theorem Knows.pass (hdef : definition? s n = none) : Knows s (earlier ++ [n]) seen := by
  intro key row
  rw [h key row]
  have hnot : ∀ first, ¬ Defines s n key first := by
    intro first hfirst
    rw [defines_iff, hdef] at hfirst
    cases hfirst
  simp only [firstOf_concat, hnot, and_false, or_false]

/-- A redefinition leaves the table right. -/
theorem Knows.again {row : Nat} (hdef : Defines s n key name) (hlookup : seen.lookup key = some row) :
    Knows s (earlier ++ [n]) seen := by
  intro key' row'
  rw [h key' row']
  have hlate : ∀ first, ¬ ((∀ m ∈ earlier, ∀ x, ¬ Defines s m key' x) ∧ Defines s n key' first) := by
    rintro first ⟨hnone, hdef'⟩
    obtain ⟨rfl, -⟩ := hdef.unique hdef'
    obtain ⟨_, hfirst, -⟩ := (h key row).mp hlookup
    obtain ⟨m, hm, x, hx⟩ := hfirst.exists_mem
    exact hnone m hm x hx
  simp only [firstOf_concat, hlate, or_false]

/-- The first definition of a key is entered into the table. -/
theorem Knows.enter (hdef : Defines s n key name) (hlookup : seen.lookup key = none) :
    Knows s (earlier ++ [n]) ((key, (s.span name).start.row) :: seen) := by
  intro key' row'
  have hnone := h.lookup_eq_none hlookup
  simp only [firstOf_concat, List.lookup_cons]
  by_cases hkey : key' = key
  · subst hkey
    have hno : ∀ first, ¬ FirstOf s earlier key' first := by
      intro first hfirst
      obtain ⟨m, hm, x, hx⟩ := hfirst.exists_mem
      exact hnone m hm x hx
    simp only [beq_self_eq_true, Option.some.injEq, hno, false_or]
    constructor
    · rintro rfl
      exact ⟨name, ⟨hnone, hdef⟩, rfl⟩
    · rintro ⟨first, ⟨-, hfirst⟩, hrow⟩
      rw [← (hdef.unique hfirst).2] at hrow
      exact hrow
  · have hnot : ∀ first, ¬ Defines s n key' first := fun first hfirst => hkey (hdef.unique hfirst).1.symm
    rw [beq_false_of_ne hkey]
    simp only [h key' row', hnot, and_false, or_false]

end Step

/-- What the rule finds among siblings from one on, if its table is right so far. -/
theorem forall₂_redefinitions {seen : List (String × Nat)} (rest : List Node) (h : Knows s earlier seen) :
    List.Forall₂ (Member.Reports s) ((Member.after earlier rest).filter (Member.Repeats s ·))
      (redefinitions seen ((rest.filterMap (definition? s)).map fun d => (d.1, s.span d.2))) := by
  induction rest generalizing earlier seen with
  | nil => exact .nil
  | cons n rest ih =>
    rw [Member.after]
    cases hdef : definition? s n with
    | none =>
      have hnot : ¬ Member.Repeats s ⟨earlier, n⟩ := by
        rintro ⟨key, name, hdefines, -⟩
        rw [defines_iff, hdef] at hdefines
        cases hdefines
      rw [List.filterMap_cons_none hdef, List.filter_cons_of_neg (by simpa using hnot)]
      exact ih (h.pass hdef)
    | some definition =>
      obtain ⟨key, name⟩ := definition
      have hdefines : Defines s n key name := defines_iff.mpr hdef
      rw [List.filterMap_cons_some hdef, List.map_cons, redefinitions]
      cases hlookup : seen.lookup key with
      | some row =>
        obtain ⟨first, hfirst, rfl⟩ := (h key row).mp hlookup
        rw [List.filter_cons_of_pos (by simpa using ⟨key, name, hdefines, hfirst.exists_mem⟩)]
        exact .cons ⟨key, name, first, hdefines, hfirst, rfl⟩ (ih (h.again hdefines hlookup))
      | none =>
        have hnot : ¬ Member.Repeats s ⟨earlier, n⟩ := by
          rintro ⟨key', name', hdefines', m, hm, x, hx⟩
          obtain ⟨rfl, -⟩ := hdefines.unique hdefines'
          exact h.lookup_eq_none hlookup m hm x hx
        rw [List.filter_cons_of_neg (by simpa using hnot)]
        exact ih (h.enter hdefines hlookup)

/-- What the rule finds at one node, for itself. -/
theorem forall₂_redefinitionsIn (s : Source) (n : Node) :
    List.Forall₂ (Member.Reports s)
      (if n.kind = "program" ∨ n.kind = "body_statement" then
        (Member.after [] n.namedChildren).filter (Member.Repeats s ·) else [])
      (redefinitionsIn s n) := by
  unfold redefinitionsIn
  by_cases hscope : n.kind = "program" ∨ n.kind = "body_statement"
  · rw [if_pos hscope, if_pos (by simpa [scopeKinds] using hscope)]
    exact forall₂_redefinitions n.namedChildren (knows_nil s)
  · rw [if_neg hscope, if_neg (by simpa [scopeKinds] using hscope)]
    exact .nil

/-- **The rule on methods reports the redefinitions.** It does not fail. Of the scopes of a source in pre-order, and in each
of them of its named children in order, it reports once each that defines a key which a named child of the same scope
before it defines: at its name, and citing the line of the name in the first of these. -/
theorem duplicateMethod_reports (limit : Nat) (s : Source) :
    ∃ found, duplicateMethod.check limit s = .ok found ∧
      List.Forall₂ (Member.Reports s)
        ((s.root.preorder.filter fun n => n.kind = "program" ∨ n.kind = "body_statement").flatMap fun scope =>
          (Member.after [] scope.namedChildren).filter (Member.Repeats s ·)) found := by
  have hgather := Cursor.walk_gather (fun _ => .descend) (fun c => redefinitionsIn s c.node) (fun _ _ => rfl) s.root
  have hnodes : (Cursor.visited (fun _ => .descend) s.root []).flatMap (fun c => redefinitionsIn s c.node) =
      s.root.preorder.flatMap (redefinitionsIn s) := by
    rw [← Cursor.map_node_visited s.root [], List.flatMap_map]
  refine ⟨_, check_duplicateMethod limit s, ?_⟩
  rw [hgather, hnodes, flatMap_filter_eq]
  induction s.root.preorder with
  | nil => exact .nil
  | cons n nodes ih =>
    rw [List.flatMap_cons, List.flatMap_cons]
    exact List.rel_append (by simpa using forall₂_redefinitionsIn s n) ih

end Rule

end RubyServer
