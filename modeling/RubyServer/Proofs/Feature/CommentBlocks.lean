import RubyServer.Proofs.Feature.Folds

/-!
# Blocks of comments

A comment has a line to itself if there is nothing but white space before it on the row where it starts; what is asked of the
line without its terminator is the same of the row (`Text.exists_line`). The folds of comments are the longest runs of such
comments, in pre-order, in which each starts on the row after the one on which the last has ended, if they have more than
one row (`Fold.comment_blocks`).
-/

namespace RubyServer

/-- A list cut into its longest runs: within a run each item follows the one before it, and no run begins with an item that
follows the last one of the run before. -/
structure MaximalRuns {α : Type} (Follows : α → α → Prop) (l : List α) (runs : List (List α)) : Prop where
  flatten_eq : runs.flatten = l
  nil_notMem : [] ∉ runs
  linked : ∀ run ∈ runs, run.IsChain Follows
  parted : runs.IsChain fun a b => ∃ ha hb, ¬ Follows (a.getLast ha) (b.head hb)

theorem maximalRuns_iff {α : Type} {follows : α → α → Bool} {l : List α} {runs : List (List α)} :
    MaximalRuns (fun a b => follows a b = true) l runs ↔ l.splitBy follows = runs := by
  rw [List.splitBy_eq_iff]
  simp only [← Bool.not_eq_true]
  constructor
  · rintro ⟨hflatten, hnil, hlinked, hparted⟩
    exact ⟨hflatten.symm, hnil, hlinked, hparted⟩
  · rintro ⟨hflatten, hnil, hlinked, hparted⟩
    exact ⟨hflatten.symm, hnil, hlinked, hparted⟩

namespace Text

/-! ## What stands before a place on its line -/

theorem all_takeBytes_concat {c : Char} {p : Char → Bool} (hc : p c = true) (n : Nat) (t : Text) :
    (takeBytes n (t ++ [c])).all p = (takeBytes n t).all p := by
  induction t generalizing n with
  | nil =>
    simp only [List.nil_append, takeBytes]
    split <;> simp [hc]
  | cons d t ih =>
    rw [List.cons_append, takeBytes, takeBytes]
    split
    · rw [List.all_cons, List.all_cons, ih]
    · rfl

/-- A carriage return at the end is a blank like others. -/
theorem all_takeBytes_dropFinal (n : Nat) (t : Text) :
    (takeBytes n (dropFinal '\r' t)).all isBlank = (takeBytes n t).all isBlank := by
  unfold dropFinal
  split
  · next hend =>
    obtain ⟨init, rfl⟩ := List.getLast?_eq_some_iff.mp (beq_iff_eq.mp hend)
    rw [List.dropLast_concat, all_takeBytes_concat (by decide)]
  · rfl

/-- The line of a place: there is none if the place is on the empty row after the last line feed; otherwise the line has
blanks up to the place if the row has. -/
theorem exists_line (before after : Text) :
    (lines (before ++ after))[before.count '\n']? = none ∧ after = [] ∨
      ∃ line, (lines (before ++ after))[before.count '\n']? = some line ∧
        (takeBytes before.lastRow.byteSize line).all isBlank = before.lastRow.all isBlank := by
  obtain ⟨closed, hlen, -, happend⟩ := before.exists_rows_append
  obtain ⟨first, rest, hafter⟩ := List.exists_cons_of_ne_nil (split_ne_nil '\n' after)
  have hrows := happend after first rest hafter
  have hrow : (rows (before ++ after))[before.count '\n']? = some (before.lastRow ++ first) := by
    simp [hrows, ← hlen]
  rw [lines, getElem?_linesOfRows, hrow, Option.bind_some]
  split
  · next hlast =>
    split
    · next hempty =>
      -- the last row is empty, so the text ends here
      obtain rfl : rest = [] := by
        rw [hrows, List.length_append, List.length_cons, hlen] at hlast
        exact List.length_eq_zero_iff.mp (by omega)
      have hjoin := joinRows_rows after
      rw [show rows after = [first] from hafter, joinRows] at hjoin
      rw [List.isEmpty_iff, List.append_eq_nil_iff] at hempty
      exact Or.inl ⟨rfl, hjoin.symm.trans hempty.2⟩
    · exact Or.inr ⟨_, rfl, by rw [takeBytes_append]⟩
  · exact Or.inr ⟨_, rfl, by rw [all_takeBytes_dropFinal, takeBytes_append]⟩

end Text

namespace Fold

variable {s : Source} {n : Node}

/-! ## Comments on their own lines -/

/-- Whether nothing but blanks stands before a node on the row where it starts. -/
def blankBefore (s : Source) (n : Node) : Bool := (s.text.takeBytes n.label.start).lastRow.all isBlank

/-- The comments of a source that have a line to themselves, in pre-order. Nothing inside a comment is one, and the empty row
after the last line feed is no line. -/
def ownComments (s : Source) : List Cursor :=
  s.root.places.filter fun c => c.kind = "comment" ∧ (∀ a ∈ c.ancestors, a.kind ≠ "comment") ∧
    blankBefore s c.node ∧ (s.span c.node).start.row < s.lineCount

theorem startsLine_iff (h : s.text.IsBoundary n.label.start) :
    startsLine s (s.span n).start = true ↔ blankBefore s n ∧ (s.span n).start.row < s.lineCount := by
  obtain ⟨before, after, htext, hstart⟩ := h
  have hpoint : (s.span n).start = ⟨before.count '\n', before.lastRow.byteSize⟩ := by
    rw [Source.span, ← hstart, htext, Text.pointAt_byteSize]
  have hbefore : s.text.takeBytes n.label.start = before := by
    rw [← hstart, htext, Text.takeBytes_append]
  have hline := Text.exists_line before after
  rw [← htext] at hline
  rw [startsLine, blankBefore, hbefore, hpoint, Source.line?, Source.lineCount]
  rcases hline with ⟨hnone, -⟩ | ⟨line, hsome, hblank⟩
  · have hlen := List.getElem?_eq_none_iff.mp hnone
    simp only [hnone]
    constructor
    · rintro ⟨⟩
    · rintro ⟨-, hlt⟩
      omega
  · obtain ⟨hlen, -⟩ := List.getElem?_eq_some_iff.mp hsome
    simp only [hsome, hblank]
    exact ⟨fun h => ⟨h, hlen⟩, fun h => h.1⟩

/-- A node that is not empty starts on a line. -/
theorem row_lt_lineCount (hstart : s.text.IsBoundary n.label.start) (hstop : s.text.IsBoundary n.label.stop)
    (hlt : n.label.start < n.label.stop) : (s.span n).start.row < s.lineCount := by
  obtain ⟨before, after, htext, hbefore⟩ := hstart
  obtain ⟨before', after', htext', hbefore'⟩ := hstop
  have hpoint : (s.span n).start.row = before.count '\n' := by
    rw [Source.span, ← hbefore, htext, Text.pointAt_byteSize]
  rw [hpoint, Source.lineCount]
  rcases Text.exists_line before after with ⟨-, rfl⟩ | ⟨line, hsome, -⟩
  · -- then the node would end behind the end of the text
    have hle := Text.byteSize_le_of_isPrefix ⟨after', htext'.symm⟩
    rw [htext, List.append_nil] at hle
    omega
  · rw [← htext] at hsome
    exact (List.getElem?_eq_some_iff.mp hsome).1

theorem filter_isOwn (h : ∀ n ∈ s.root.preorder, s.text.IsBoundary n.label.start) :
    (seen s).filter (isOwn s) = ownComments s := by
  rw [seen, List.filter_filter, ownComments]
  refine List.filter_congr fun c hc => ?_
  have hline := startsLine_iff (h _ (Node.mem_preorder_of_mem_places hc))
  rw [Bool.eq_iff_iff, Bool.and_eq_true, isOwn_iff, decide_eq_true_eq, decide_eq_true_eq, hline]
  tauto

/-- **The folds of comments are the longest runs of comments.** In a text of less than 2^32 bytes whose nodes begin and end
between characters, the comments on their own lines are cut in one way into the longest runs in which each comment starts
on the row after the one where the last has ended, and the folds of comments are, once each, the runs of more than one row,
from their first row to their last. If no comment is empty or inside another, these are all comments that have nothing but
blanks before them. -/
theorem comment_blocks (hsize : s.text.byteSize < UInt32.size)
    (hbounds : ∀ n ∈ s.root.preorder, s.text.IsBoundary n.label.start ∧ s.text.IsBoundary n.label.stop) :
    (∃ runs, (∀ parts, MaximalRuns (fun c d => (s.span c.node).stop.row + 1 = (s.span d.node).start.row) (ownComments s)
          parts ↔ parts = runs) ∧
      ((all s).filter isComment).Perm ((runs.filter fun run => firstRow s run < lastRow s run).map fun run =>
        ⟨firstRow s run, lastRow s run, .comment⟩)) ∧
    ((∀ c ∈ s.root.places, c.kind = "comment" →
        c.node.label.start < c.node.label.stop ∧ ∀ a ∈ c.ancestors, a.kind ≠ "comment") →
      ownComments s = s.root.places.filter fun c => c.kind = "comment" ∧ blankBefore s c.node) := by
  refine ⟨⟨(ownComments s).splitBy (follows s), fun parts => ?_, ?_⟩, fun hplain => ?_⟩
  · rw [← maximalRuns_iff.trans eq_comm]
    simp only [follows, decide_eq_true_eq]
  · rw [← filter_isOwn fun n hn => (hbounds n hn).1]
    exact filter_comment_eq hsize
  · refine List.filter_congr fun c hc => ?_
    obtain ⟨hstart, hstop⟩ := hbounds _ (Node.mem_preorder_of_mem_places hc)
    have hline := row_lt_lineCount hstart hstop
    rw [decide_eq_decide]
    constructor
    · rintro ⟨hkind, -, hblank, -⟩
      exact ⟨hkind, hblank⟩
    · rintro ⟨hkind, hblank⟩
      obtain ⟨hlt, houtside⟩ := hplain c hc hkind
      exact ⟨hkind, houtside, hblank, hline hlt⟩

/-- Two comments, one behind code, and one over three rows with another after it at the end of the text. -/
def scatteredComments : Source where
  text := "# a\n# b\nx # t\n=begin\nc\n=end\n# d".toList
  parse := .tree <| .mk ⟨"program", true, false, false, 0, 31, none⟩
    [.mk ⟨"comment", true, false, false, 0, 3, none⟩ [], .mk ⟨"comment", true, false, false, 4, 7, none⟩ [],
      .mk ⟨"identifier", true, false, false, 8, 9, none⟩ [], .mk ⟨"comment", true, false, false, 10, 13, none⟩ [],
      .mk ⟨"comment", true, false, false, 14, 27, none⟩ [], .mk ⟨"comment", true, false, false, 28, 31, none⟩ []]

/-- There are two blocks: the comment behind code is in neither. -/
theorem comment_blocks_scatteredComments :
    (∃ runs, MaximalRuns (fun c d => (scatteredComments.span c.node).stop.row + 1 = (scatteredComments.span d.node).start.row)
        (ownComments scatteredComments) runs ∧
      ((runs.filter fun run => firstRow scatteredComments run < lastRow scatteredComments run).map fun run =>
        (⟨firstRow scatteredComments run, lastRow scatteredComments run, .comment⟩ : Fold)).Perm
          [⟨0, 1, .comment⟩, ⟨3, 6, .comment⟩]) ∧
    (ownComments scatteredComments).map (fun c => c.node.label.start) = [0, 4, 14, 28] := by
  have hsize : scatteredComments.text.byteSize < UInt32.size := by decide +kernel
  have hbounds : ∀ n ∈ scatteredComments.root.preorder, scatteredComments.text.IsBoundary n.label.start ∧
      scatteredComments.text.IsBoundary n.label.stop := by decide +kernel
  have hall : (all scatteredComments).filter isComment = [⟨0, 1, .comment⟩, ⟨3, 6, .comment⟩] := by decide +kernel
  obtain ⟨⟨runs, hruns, hperm⟩, -⟩ := comment_blocks hsize hbounds
  exact ⟨⟨runs, (hruns runs).mpr rfl, hall ▸ hperm.symm⟩, by decide +kernel⟩

end Fold

end RubyServer
