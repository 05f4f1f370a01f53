import RubyServer.Feature.Outline
import RubyServer.Proofs.Tree.Nesting

/-!
# Symbols inside each other

An outline skips the nodes that are no symbols, so a symbol and those inside it, or two symbols side by side, may come from
nodes at any distance in the tree. Their ranges are nested like the nodes nevertheless (`Outline.wellNested_ofSource`): the
symbols that come from a row of nodes lie within these nodes (`Outline.Fits`), which is all that has to be known of them to
set them beside others or inside one.
-/

namespace RubyServer

/-- Whether a range lies inside another and does not end before it begins. -/
structure Range.Within (inner outer : Range) : Prop where
  start_le : outer.start ≤ inner.start
  ordered : inner.start ≤ inner.stop
  le_stop : inner.stop ≤ outer.stop

theorem Range.Within.trans {a b c : Range} (hab : a.Within b) (hbc : b.Within c) : a.Within c :=
  ⟨Position.le_trans hbc.start_le hab.start_le, hab.ordered, Position.le_trans hab.le_stop hbc.le_stop⟩

/-- Symbols that are well nested at every level: each has its name and the symbols inside it within its range, and none
begins before the one in front of it has ended. -/
inductive Symbol.WellNested : List Symbol → Prop where
  | intro {symbols : List Symbol} (inOrder : symbols.Pairwise fun x y => x.range.stop ≤ y.range.start)
    (selection : ∀ x ∈ symbols, x.selection.Within x.range)
    (children : ∀ x ∈ symbols, ∀ y ∈ x.children, y.range.Within x.range)
    (inside : ∀ x ∈ symbols, WellNested x.children) : WellNested symbols

namespace Outline

variable {s : Source} {n : Node} {h : Heading}

/-! ## Names -/

/-- A symbol is named by one of the children of its node. -/
theorem nameNode_mem_children (hh : heading? s n = some h) : h.nameNode ∈ n.children := by
  suffices hfield : ∃ field, n.child? field = some h.nameNode by
    obtain ⟨field, hchild⟩ := hfield
    exact List.mem_of_find?_eq_some hchild
  have hby {kind : SymbolKind} {field : String} (hh : headingBy? s kind n field = some h) :
      ∃ field, n.child? field = some h.nameNode := by
    obtain ⟨x, hx, rfl⟩ := Option.map_eq_some_iff.mp hh
    exact ⟨field, hx⟩
  unfold heading? at hh
  split at hh
  · exact hby hh
  · exact hby hh
  · exact hby hh
  · obtain ⟨x, hx, rfl⟩ := Option.map_eq_some_iff.mp hh
    exact ⟨_, hx⟩
  · obtain ⟨o, -, x, hx, rfl⟩ : ∃ o, n.child? "object" = some o ∧ ∃ x, n.child? "name" = some x ∧
        (⟨.method, x, s.nodeText o ++ '.' :: s.nodeText x⟩ : Heading) = h := by
      simpa [Option.bind_eq_some_iff] using hh
    exact ⟨_, hx⟩
  · obtain ⟨x, hx, -, rfl⟩ : ∃ x, n.child? "left" = some x ∧ x.kind = "constant" ∧
        (⟨.constant, x, s.nodeText x⟩ : Heading) = h := by
      simpa [Option.bind_eq_some_iff] using hh
    exact ⟨_, hx⟩
  · cases hh

/-! ## Ranges -/

/-- The range of a node in the editor's terms. -/
def rangeOf (s : Source) (n : Node) : Range := (LineIndex.ofText s.text).range (s.span n)

/-- Symbols that come from a row of nodes: they are well nested, and each lies within one of the nodes. -/
structure Fits (s : Source) (nodes : List Node) (symbols : List Symbol) : Prop where
  nested : Symbol.WellNested symbols
  within : ∀ x ∈ symbols, ∃ n ∈ nodes, x.range.Within (rangeOf s n)

section Fits

variable {nodes : List Node} {symbols : List Symbol} (hsize : s.text.byteSize < UInt32.size)

include hsize

theorem within_of_contains {m : Node} (hcontains : n.Contains m) (hordered : m.label.start ≤ m.label.stop) :
    (rangeOf s m).Within (rangeOf s n) :=
  ⟨LineIndex.position_le hsize hcontains.1, LineIndex.position_le hsize hordered,
    LineIndex.position_le hsize hcontains.2⟩

omit hsize in
theorem fits_nil (s : Source) (nodes : List Node) : Fits s nodes [] :=
  ⟨.intro .nil (by simp) (by simp) (by simp), by simp⟩

/-- What fits into a node in front of others goes in front of what fits into these. -/
theorem Fits.append {xs ys : List Symbol} (hxs : Fits s [n] xs) (hys : Fits s nodes ys)
    (hbefore : ∀ m ∈ nodes, n.label.stop ≤ m.label.start) : Fits s (n :: nodes) (xs ++ ys) := by
  obtain ⟨⟨horder, hselection, hchildren, hinside⟩, hwithin⟩ := hxs
  obtain ⟨⟨horder', hselection', hchildren', hinside'⟩, hwithin'⟩ := hys
  refine ⟨.intro (List.pairwise_append.mpr ⟨horder, horder', ?_⟩) ?_ ?_ ?_, ?_⟩
  · -- between the two lies the end of the one node and the beginning of another
    intro x hx y hy
    obtain ⟨n', hn', hxn⟩ := hwithin x hx
    obtain ⟨m, hm, hym⟩ := hwithin' y hy
    obtain rfl := List.mem_singleton.mp hn'
    have hgap := LineIndex.position_le hsize (hbefore m hm)
    exact Position.le_trans hxn.le_stop (Position.le_trans hgap hym.start_le)
  · exact List.forall_mem_append.mpr ⟨hselection, hselection'⟩
  · exact List.forall_mem_append.mpr ⟨hchildren, hchildren'⟩
  · exact List.forall_mem_append.mpr ⟨hinside, hinside'⟩
  · refine List.forall_mem_append.mpr ⟨fun x hx => ?_, fun y hy => ?_⟩
    · obtain ⟨n', hn', hxn⟩ := hwithin x hx
      exact ⟨n', List.mem_cons.mpr (Or.inl (List.mem_singleton.mp hn')), hxn⟩
    · obtain ⟨m, hm, hym⟩ := hwithin' y hy
      exact ⟨m, List.mem_cons_of_mem _ hm, hym⟩

/-- What fits into the children of a node fits into the node. -/
theorem Fits.parent (hnested : n.Nested) (hfits : Fits s n.children symbols) : Fits s [n] symbols := by
  refine ⟨hfits.nested, fun x hx => ⟨n, List.mem_singleton_self n, ?_⟩⟩
  obtain ⟨m, hm, hxm⟩ := hfits.within x hx
  have hself := n.mem_preorder_self
  have hordered := hnested.ordered m (Node.mem_preorder_of_mem_children hself hm)
  exact hxm.trans (within_of_contains hsize (hnested.contains n hself m hm) hordered)

/-- The symbol of a node fits into it if the symbols inside do. -/
theorem fits_symbol (hnested : n.Nested) (hh : heading? s n = some h) (hfits : Fits s [n] symbols) :
    Fits s [n] [symbol s (LineIndex.ofText s.text) n h symbols] := by
  have hself := n.mem_preorder_self
  have hname := nameNode_mem_children hh
  have hordered := hnested.ordered _ (Node.mem_preorder_of_mem_children hself hname)
  have hinside : Fits s [n] (if h.kind = .constant then [] else symbols) := by
    split
    · exact fits_nil s [n]
    · exact hfits
  refine ⟨.intro (List.pairwise_singleton _ _) ?_ ?_ ?_, ?_⟩ <;> intro x hx <;> obtain rfl := List.mem_singleton.mp hx
  · exact within_of_contains hsize (hnested.contains n hself _ hname) hordered
  · intro y hy
    obtain ⟨m, hm, hwithin⟩ := hinside.within y hy
    obtain rfl := List.mem_singleton.mp hm
    exact hwithin
  · exact hinside.nested
  · exact ⟨n, List.mem_singleton_self n, within_of_contains hsize ⟨Nat.le_refl _, Nat.le_refl _⟩ (hnested.ordered n hself)⟩

end Fits

/-! ## The outline -/

section Below

variable (hsize : s.text.byteSize < UInt32.size)

include hsize

mutual

/-- The symbols below a node fit into it. -/
theorem fits_below (n : Node) (hnested : n.Nested) : Fits s [n] (below s (LineIndex.ofText s.text) n) :=
  match n with
  | .mk l cs => by
    have hapart := hnested.apart _ (Node.mem_preorder_self _)
    rw [below]
    exact Fits.parent hsize hnested (fits_among cs (fun c hc => hnested.child hc) hapart)

theorem fits_among (cs : List Node) (hnested : ∀ c ∈ cs, c.Nested)
    (hapart : cs.Pairwise fun c d => c.label.stop ≤ d.label.start) :
    Fits s cs (among s (LineIndex.ofText s.text) cs) :=
  match cs with
  | [] => fits_nil s []
  | c :: cs => by
    obtain ⟨hc, hrest⟩ := List.forall_mem_cons.mp hnested
    obtain ⟨hbefore, hapart⟩ := List.pairwise_cons.mp hapart
    rw [among]
    refine Fits.append hsize ?_ (fits_among cs hrest hapart) hbefore
    have hbelow := fits_below c hc
    split
    · split
      · next h hh => exact fits_symbol hsize hc hh hbelow
      · exact hbelow
    · exact fits_nil s [c]

end

end Below

/-- **Outlines are well nested.** In a text of less than 2^32 bytes, if the nodes of the tree are nested, so are the ranges
of its outline at every level. -/
theorem wellNested_ofSource (hsize : s.text.byteSize < UInt32.size) (hnested : s.root.Nested) :
    Symbol.WellNested (ofSource s) := by
  rw [ofSource_eq]
  exact (fits_below hsize s.root hnested).nested

/-- A class with a constant and, inside a condition, a method. Its name takes two bytes and one code unit. -/
def guardedMethod : Source where
  text := "class É\n  X = 1\n  if é\n    def m\n    end\n  end\nend\n".toList
  parse := .tree <| .mk ⟨"program", true, false, false, 0, 53, none⟩
    [.mk ⟨"class", true, false, false, 0, 52, none⟩
      [.mk ⟨"class", false, false, false, 0, 5, none⟩ [],
        .mk ⟨"constant", true, false, false, 6, 8, some "name"⟩ [],
        .mk ⟨"body_statement", true, false, false, 11, 48, some "body"⟩
          [.mk ⟨"assignment", true, false, false, 11, 16, none⟩
            [.mk ⟨"constant", true, false, false, 11, 12, some "left"⟩ [],
              .mk ⟨"integer", true, false, false, 15, 16, some "right"⟩ []],
            .mk ⟨"if", true, false, false, 19, 48, none⟩
              [.mk ⟨"identifier", true, false, false, 22, 24, some "condition"⟩ [],
                .mk ⟨"then", true, false, false, 24, 42, some "consequence"⟩
                  [.mk ⟨"method", true, false, false, 29, 42, none⟩
                    [.mk ⟨"identifier", true, false, false, 33, 34, some "name"⟩ []]]]],
        .mk ⟨"end", false, false, false, 49, 52, none⟩ []]]

/-- The method goes into the class, after the constant. -/
theorem wellNested_ofSource_guardedMethod :
    (ofSource guardedMethod).map (fun x => (x.range, x.selection, x.children.map fun y => (y.range, y.selection))) =
        [(⟨⟨0, 0⟩, ⟨6, 3⟩⟩, ⟨⟨0, 6⟩, ⟨0, 7⟩⟩, [(⟨⟨1, 2⟩, ⟨1, 7⟩⟩, ⟨⟨1, 2⟩, ⟨1, 3⟩⟩), (⟨⟨3, 4⟩, ⟨4, 7⟩⟩, ⟨⟨3, 8⟩, ⟨3, 9⟩⟩)])] ∧
      Symbol.WellNested (ofSource guardedMethod) :=
  ⟨by decide +kernel, wellNested_ofSource (by decide +kernel) (by decide +kernel)⟩

end Outline

end RubyServer
