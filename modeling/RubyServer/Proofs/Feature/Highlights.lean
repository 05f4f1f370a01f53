import RubyServer.Feature.Highlight
import RubyServer.Proofs.Tree.Nesting

/-!
# Highlights are the same from each of them

The highlights of a name are the nodes of its kind with its text (`Highlight.occurrences_eq`). A name is found at its start
(`Highlight.nameAt?_start`) and its start is found from the position that is reported (`LineIndex.point_position`), so each
of the highlights leads to all of them (`Highlight.occurrences_class`). As names are leaves, no two of them share any text,
and the highlights come in the order of the text.
-/

namespace RubyServer

/-- A source whose nodes are nested and not empty, and whose names are named leaves of whole characters. -/
structure Source.Legible (s : Source) : Prop where
  nested : s.root.Nested
  wide : ∀ n ∈ s.root.preorder, n.label.start ≠ n.label.stop
  named : ∀ n ∈ s.root.preorder, Highlight.isName n → n.isNamed
  leaf : ∀ n ∈ s.root.preorder, Highlight.isName n → n.children = []
  start : ∀ n ∈ s.root.preorder, Highlight.isName n → s.text.IsBoundary n.label.start
  stop : ∀ n ∈ s.root.preorder, Highlight.isName n → s.text.IsBoundary n.label.stop

namespace Highlight

variable {s : Source} {p : Point} {q : Position} {n target : Node} {c : Cursor}

/-- Whether a node is of the kind of a target and has its text. -/
def alike (s : Source) (target n : Node) : Bool := n.kind = target.kind ∧ s.nodeText n = s.nodeText target

/-- The highlight of a place. -/
def ofPlace (s : Source) (c : Cursor) : Highlight := ⟨(LineIndex.ofText s.text).range (s.span c.node), usageOf c⟩

theorem isName_of_alike (h : alike s target n = true) (htarget : isName target) : isName n := by
  obtain ⟨hkind, -⟩ := of_decide_eq_true h
  rwa [isName, hkind]

/-- Nodes that are alike have the same nodes alike to them. -/
theorem alike_congr (h : alike s target n = true) : alike s n = alike s target := by
  obtain ⟨hkind, htext⟩ := of_decide_eq_true h
  funext m
  rw [alike, alike, hkind, htext]

/-! ## The name at a point -/

/-- What is found at a point is a name of the tree. -/
theorem nameAt?_eq_some (h : nameAt? s p = some n) : isName n ∧ n ∈ s.root.preorder := by
  have hon : ∃ p', nameOn? s p' = some n := by
    rcases Option.or_eq_some_iff.mp h with h | ⟨-, h⟩
    · exact ⟨_, h⟩
    · split at h
      · cases h
      · exact ⟨_, h⟩
  obtain ⟨p', hon⟩ := hon
  obtain ⟨hfound, hname⟩ := Option.filter_eq_some_iff.mp hon
  rw [Source.namedAt?_eq, Option.map_map] at hfound
  obtain ⟨root, -, rfl⟩ := Option.map_eq_some_iff.mp hfound
  exact ⟨hname, s.namedAt_mem_preorder p'⟩

/-- A name is found at its start. -/
theorem nameAt?_start (h : s.Legible) (hc : c ∈ s.root.places) (hname : isName c.node) :
    nameAt? s (s.text.pointAt c.node.label.start) = some c.node := by
  have hmem := Node.mem_preorder_of_mem_places hc
  have hroot := Source.root?_of_mem_preorder hmem (h.named _ hmem hname)
  have hfound := Source.namedAt_start h.nested h.wide hc (h.leaf _ hmem hname) (h.named _ hmem hname)
  rw [nameAt?, nameOn?, Source.namedAt?_eq, hroot, Option.map_some, Option.map_some, hfound, Option.filter_some_pos hname,
    Option.some_or]

/-! ## Occurrences -/

theorem occurrences_of_none (h : nameAt? s ((LineIndex.ofText s.text).point q) = none) : occurrences s q = [] := by
  unfold occurrences
  split
  · rfl
  · simp only [h]

/-- The highlights of a name are the places of nodes like it, in pre-order. -/
theorem occurrences_eq (h : s.Legible) (htarget : nameAt? s ((LineIndex.ofText s.text).point q) = some target) :
    occurrences s q = (s.root.places.filter fun c => alike s target c.node).map (ofPlace s) := by
  obtain ⟨hname, hmem⟩ := nameAt?_eq_some htarget
  rw [occurrences, Source.root?_of_mem_preorder hmem (h.named _ hmem hname)]
  simp only [htarget]
  rw [Node.findKinds_eq_filter, List.filter_filter]
  refine congrArg (List.map (ofPlace s)) (List.filter_congr fun c hc => ?_)
  rw [Bool.eq_iff_iff]
  constructor
  · intro hfound
    have hparts : c.node.isNamed ∧ c.node.kind = target.kind ∧ s.nodeText c.node = s.nodeText target := by
      simpa [Cursor.kind, and_comm, and_assoc] using hfound
    exact decide_eq_true hparts.2
  · intro halike
    have hnamed := h.named _ (Node.mem_preorder_of_mem_places hc) (isName_of_alike halike hname)
    simpa [alike, Cursor.kind, hnamed, and_comm] using halike

/-- The highlights of a name are in the order of the text, and none begins before the one in front of it has ended. -/
theorem pairwise_filter_places (hsize : s.text.byteSize < UInt32.size) (h : s.Legible) (htarget : isName target) :
    ((s.root.places.filter fun c => alike s target c.node).map (ofPlace s)).Pairwise
      fun a b => a.range.start < b.range.start ∧ a.range.stop ≤ b.range.start := by
  rw [List.pairwise_map]
  refine (h.nested.pairwise_places.filter _).imp_of_mem fun {a b} ha hb hleads => ?_
  obtain ⟨ha, hlike⟩ := List.mem_filter.mp ha
  obtain ⟨hb, hlike'⟩ := List.mem_filter.mp hb
  have hmem := Node.mem_preorder_of_mem_places ha
  have hmem' := Node.mem_preorder_of_mem_places hb
  have hname := isName_of_alike hlike htarget
  have hname' := isName_of_alike hlike' htarget
  -- a name is a leaf, so that it contains no other
  have hstop : a.node.label.stop ≤ b.node.label.start :=
    hleads.resolve_left fun hinner => hinner.1 (h.leaf _ hmem hname)
  have hlt : a.node.label.start < a.node.label.stop := Nat.lt_of_le_of_ne (h.nested.ordered _ hmem) (h.wide _ hmem)
  exact ⟨LineIndex.position_lt hsize (h.start _ hmem hname) (h.start _ hmem' hname') (Nat.lt_of_lt_of_le hlt hstop),
    LineIndex.position_le hsize hstop⟩

/-- **Highlights are the same from each of them.** In a text of less than 2^32 bytes, in a source whose nodes are nested and
not empty and whose names are named leaves of whole characters, whatever position is asked about: the highlights at the
start of any highlight are the same list; no highlight occurs twice, they are in the order of the text; and they are those
of all nodes of the kind of the name that is found, with its text. -/
theorem occurrences_class (hsize : s.text.byteSize < UInt32.size) (h : s.Legible) (q : Position) :
    (∀ found ∈ occurrences s q, occurrences s found.range.start = occurrences s q) ∧
    (occurrences s q).Nodup ∧
    (occurrences s q).Pairwise (fun a b => a.range.start < b.range.start ∧ a.range.stop ≤ b.range.start) ∧
    ∀ target, nameAt? s ((LineIndex.ofText s.text).point q) = some target →
      target ∈ s.root.preorder ∧ (occurrences s q).map Highlight.range =
        (s.root.preorder.filter fun n => n.kind = target.kind ∧ s.nodeText n = s.nodeText target).map
          fun n => (LineIndex.ofText s.text).range (s.span n) := by
  cases htarget : nameAt? s ((LineIndex.ofText s.text).point q) with
  | none => simp [occurrences_of_none htarget]
  | some target =>
    obtain ⟨hname, hmem⟩ := nameAt?_eq_some htarget
    have heq := occurrences_eq h htarget
    have hpairs := pairwise_filter_places hsize h hname
    rw [← heq] at hpairs
    refine ⟨fun found hfound => ?_, ?_, hpairs, ?_⟩
    · rw [heq] at hfound ⊢
      obtain ⟨c, hc, rfl⟩ := List.mem_map.mp hfound
      obtain ⟨hc, hlike⟩ := List.mem_filter.mp hc
      have hname' := isName_of_alike hlike hname
      have hstart := h.start _ (Node.mem_preorder_of_mem_places hc) hname'
      have hback : nameAt? s ((LineIndex.ofText s.text).point (ofPlace s c).range.start) = some c.node := by
        rw [← nameAt?_start h hc hname']
        exact congrArg (nameAt? s) (LineIndex.point_position hsize hstart)
      rw [occurrences_eq h hback, alike_congr hlike]
    · refine hpairs.imp fun hab hsame => ?_
      rw [hsame] at hab
      exact Position.lt_irrefl _ hab.1
    · intro target' htarget'
      cases htarget'
      refine ⟨hmem, ?_⟩
      rw [heq, List.map_map, ← s.root.map_node_places, List.filter_map, List.map_map]
      rfl

/-- An assignment of a name of two bytes to itself, after a character of two code units. -/
def echoed : Source where
  text := "'😀';é=é".toList
  parse := .tree <| .mk ⟨"program", true, false, false, 0, 12, none⟩
    [.mk ⟨"string", true, false, false, 0, 6, none⟩ [.mk ⟨"string_content", true, false, false, 1, 5, none⟩ []],
      .mk ⟨";", false, false, false, 6, 7, none⟩ [],
      .mk ⟨"assignment", true, false, false, 7, 12, none⟩
        [.mk ⟨"identifier", true, false, false, 7, 9, some "left"⟩ [], .mk ⟨"=", false, false, false, 9, 10, none⟩ [],
          .mk ⟨"identifier", true, false, false, 10, 12, some "right"⟩ []]]

/-- A cursor right after the first name finds both, and so does one at the start of the second. -/
theorem occurrences_class_echoed :
    occurrences echoed ⟨0, 6⟩ = [⟨⟨⟨0, 5⟩, ⟨0, 6⟩⟩, .write⟩, ⟨⟨⟨0, 7⟩, ⟨0, 8⟩⟩, .read⟩] ∧
      occurrences echoed ⟨0, 7⟩ = occurrences echoed ⟨0, 6⟩ := by
  have hfound : occurrences echoed ⟨0, 6⟩ = [⟨⟨⟨0, 5⟩, ⟨0, 6⟩⟩, .write⟩, ⟨⟨⟨0, 7⟩, ⟨0, 8⟩⟩, .read⟩] := by decide +kernel
  have hlegible : echoed.Legible :=
    ⟨by decide +kernel, by decide +kernel, by decide +kernel, by decide +kernel, by decide +kernel, by decide +kernel⟩
  exact ⟨hfound, (occurrences_class (by decide +kernel) hlegible ⟨0, 6⟩).1 ⟨⟨⟨0, 7⟩, ⟨0, 8⟩⟩, .read⟩ (by simp [hfound])⟩

end Highlight

end RubyServer
