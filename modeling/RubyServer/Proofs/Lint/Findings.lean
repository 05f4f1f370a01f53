import RubyServer.Proofs.Lint.TrailingBlanks
import RubyServer.Proofs.Source.Errors

/-!
# What the standard rules find

None of the standard rules fails, each puts its own id on what it finds (`finds_of_mem_standard`), and all of them report
one of two kinds of span (`Source.Reportable`): that of a node, for syntax errors and for names of methods, or a stretch
of one line.
-/

namespace RubyServer

/-- The spans that rules report: those of nodes, and stretches of lines. -/
inductive Source.Reportable (s : Source) : Span → Prop
  | node {n : Node} : n ∈ s.root.preorder → Reportable s (s.span n)
  | line {row : Nat} {front part rest : Text} : s.line? row = some (front ++ (part ++ rest)) →
      Reportable s (.onRow row front.byteSize (front ++ part).byteSize)

namespace Source

variable {s : Source} {row : Nat} {line front : Text}

/-- From the start of a line. -/
theorem reportable_start (h : s.line? row = some line) (hfront : front <+: line) :
    s.Reportable (.onRow row 0 front.byteSize) := by
  obtain ⟨rest, rfl⟩ := hfront
  show s.Reportable (.onRow row (Text.byteSize []) (Text.byteSize ([] ++ front)))
  exact .line h

/-- To the end of a line. -/
theorem reportable_stop (h : s.line? row = some line) (hfront : front <+: line) :
    s.Reportable (.onRow row front.byteSize line.byteSize) := by
  obtain ⟨part, rfl⟩ := hfront
  rw [← List.append_nil part] at h
  exact .line h

/-! ## Syntax errors -/

/-- A syntax error is found at a node of the tree. A failure of the parser is found where the stand-in for the tree is. -/
theorem exists_node_of_mem_errors {e : SyntaxError} (h : e ∈ s.errors) : ∃ n ∈ s.root.preorder, e.span = s.span n := by
  obtain ⟨t, parse⟩ := s
  cases parse with
  | failed reason =>
    obtain rfl := List.mem_singleton.mp h
    refine ⟨_, List.mem_cons_self, ?_⟩
    rw [span, Node.label, Text.pointAt_zero]
    rfl
  | tree root =>
    obtain ⟨c, hc, -, rfl⟩ := mem_errors_iff.mp h
    exact ⟨c.node, Node.mem_preorder_of_mem_places hc, (errorAt_eq _ c.node).2⟩

end Source

namespace Rule

variable {s : Source} {d : Diagnostic} {limit row : Nat} {line : Text} {literals : List Span}

/-! ## Rules on lines -/

theorem longLine?_finds (hline : s.line? row = some line) (h : longLine? limit row line = some d) :
    d.rule = lineLength.id ∧ s.Reportable d.span := by
  unfold longLine? at h
  simp only at h
  split at h
  · cases h
  · cases h
    exact ⟨rfl, Source.reportable_stop hline (List.take_prefix limit line)⟩

theorem trailing?_finds (hline : s.line? row = some line) (h : trailing? literals row line = some d) :
    d.rule = trailingWhitespace.id ∧ s.Reportable d.span := by
  obtain ⟨gone, hgone, -⟩ := line.exists_trimPadding
  unfold trailing? at h
  split at h
  · cases h
  · simp only at h
    split at h
    · cases h
      exact ⟨rfl, Source.reportable_stop hline ⟨gone, hgone.symm⟩⟩
    · cases h

theorem tabbed?_finds (hline : s.line? row = some line) (h : tabbed? literals row line = some d) :
    d.rule = tabIndentation.id ∧ s.Reportable d.span := by
  unfold tabbed? at h
  split at h
  · cases h
  · split at h
    · cases h
      exact ⟨rfl, Source.reportable_start hline (List.takeWhile_prefix isPadding)⟩
    · cases h

/-- A rule on lines finds what its check of a line finds. -/
theorem onLines_finds {check : Nat → Text → Option Diagnostic} {id : String}
    (hcheck : ∀ row line d, s.line? row = some line → check row line = some d → d.rule = id ∧ s.Reportable d.span)
    (hd : d ∈ onLines check s) : d.rule = id ∧ s.Reportable d.span := by
  obtain ⟨row, line, hline, h⟩ := mem_onLines.mp hd
  exact hcheck row line d hline h

/-- The end of the last line. -/
theorem unfinished_finds (hd : d ∈ unfinished s.text) : d.rule = finalNewline.id ∧ s.Reportable d.span := by
  unfold unfinished at hd
  split at hd
  · cases hd
  · next hopen =>
    -- a text that is not empty has a line
    have hlines : s.text.lines ≠ [] := by
      intro hnone
      have hlast := Text.getElem?_linesOfRows s.text.rows (s.text.rows.length - 1)
      obtain ⟨closed, -, hrows, -⟩ := s.text.exists_rows_append
      rw [show Text.linesOfRows s.text.rows = [] from hnone] at hlast
      have hempty : s.text.lastRow = [] := by simpa [hrows] using hlast
      simp only [Bool.or_eq_true, List.isEmpty_iff, not_or] at hopen
      obtain ⟨front, c, hfront⟩ := (List.eq_nil_or_concat' s.text).resolve_left hopen.1
      have hc : c ≠ '\n' := by
        rintro rfl
        exact hopen.2 (by simp [Text.endsWith, hfront])
      rw [hfront, Text.lastRow_append (by simpa using Ne.symm hc)] at hempty
      simp at hempty
    obtain ⟨init, line, hline⟩ := (List.eq_nil_or_concat' s.text.lines).resolve_left hlines
    have hat : s.line? (s.text.lines.length - 1) = some line := by simp [Source.line?, hline]
    rw [List.mem_singleton.mp hd]
    refine ⟨rfl, ?_⟩
    simpa [hline] using Source.reportable_stop hat List.prefix_rfl

/-! ## Methods defined twice -/

theorem mem_redefinitions {defs : List (String × Span)} {seen : List (String × Nat)}
    (h : d ∈ redefinitions seen defs) : ∃ key first span, (key, span) ∈ defs ∧ d = redefinition key first span := by
  induction defs generalizing seen with
  | nil => cases h
  | cons definition defs ih =>
    obtain ⟨key, span⟩ := definition
    have htail {seen} (h : d ∈ redefinitions seen defs) :
        ∃ key' first span', (key', span') ∈ (key, span) :: defs ∧ d = redefinition key' first span' := by
      obtain ⟨key', first, span', hmem, heq⟩ := ih h
      exact ⟨key', first, span', List.mem_cons_of_mem _ hmem, heq⟩
    rw [redefinitions] at h
    split at h
    · next first _ =>
      rcases List.mem_cons.mp h with rfl | h
      · exact ⟨key, first, span, List.mem_cons_self, rfl⟩
      · exact htail h
    · exact htail h

/-- The name of a definition is a child of it. -/
theorem mem_children_of_definition? {n name : Node} {key : String} (h : definition? s n = some (key, name)) :
    name ∈ n.children := by
  have hchild : n.child? "name" = some name := by
    unfold definition? at h
    split at h
    · obtain ⟨name', hname, heq⟩ := Option.map_eq_some_iff.mp h
      cases heq
      exact hname
    · obtain ⟨name', hname, heq⟩ := Option.map_eq_some_iff.mp h
      cases heq
      exact hname
    · cases h
  exact List.mem_of_find?_eq_some hchild

/-- A redefinition is found at the name of a method in the tree. -/
theorem redefinitionsIn_finds {scope : Node} (hscope : scope ∈ s.root.preorder)
    (h : d ∈ redefinitionsIn s scope) : d.rule = duplicateMethod.id ∧ s.Reportable d.span := by
  unfold redefinitionsIn at h
  split at h
  · obtain ⟨key, first, span, hmem, rfl⟩ := mem_redefinitions h
    obtain ⟨⟨key', name⟩, hname, heq⟩ := List.mem_map.mp hmem
    cases heq
    obtain ⟨n, hn, hdefinition⟩ := List.mem_filterMap.mp hname
    have hn : n ∈ s.root.preorder := Node.mem_preorder_of_mem_children hscope (List.mem_filter.mp hn).1
    exact ⟨rfl, .node (Node.mem_preorder_of_mem_children hn (mem_children_of_definition? hdefinition))⟩
  · cases h

/-! ## All of them -/

/-- **What the standard rules find.** None of them fails, and whatever one finds bears its id and is the span of a node or
a stretch of a line. -/
theorem finds_of_mem_standard {r : Rule} (hr : r ∈ standard) (limit : Nat) (s : Source) :
    ∃ found, r.check limit s = .ok found ∧ ∀ d ∈ found, d.rule = r.id ∧ s.Reportable d.span := by
  simp only [standard, List.mem_cons, List.not_mem_nil, or_false] at hr
  rcases hr with rfl | rfl | rfl | rfl | rfl | rfl
  · refine ⟨_, rfl, fun d hd => ?_⟩
    obtain ⟨e, he, rfl⟩ := List.mem_map.mp hd
    obtain ⟨n, hn, hspan⟩ := Source.exists_node_of_mem_errors he
    refine ⟨rfl, ?_⟩
    rw [show (ofSyntaxError e).span = s.span n from hspan]
    exact .node hn
  · exact ⟨_, rfl, fun d hd => onLines_finds (fun _ _ _ => longLine?_finds) hd⟩
  · exact ⟨_, rfl, fun d hd => onLines_finds (fun _ _ _ => trailing?_finds) hd⟩
  · exact ⟨_, rfl, fun d hd => onLines_finds (fun _ _ _ => tabbed?_finds) hd⟩
  · exact ⟨_, rfl, fun d hd => unfinished_finds hd⟩
  · have hgather := Cursor.walk_gather (fun _ => .descend) (fun c => redefinitionsIn s c.node) (fun _ _ => rfl) s.root
    refine ⟨_, check_duplicateMethod limit s, fun d hd => ?_⟩
    rw [hgather] at hd
    obtain ⟨c, hc, hd⟩ := List.mem_flatMap.mp hd
    exact redefinitionsIn_finds (Cursor.mem_preorder_of_mem_visited _ _ _ hc) hd

end Rule

end RubyServer
