import RubyServer.Proofs.Feature.Ranges

/-!
# Diagnostics lie in the document

Every span that is reported is between two offsets of the text, in order (`Source.Reportable.exists_offsets`): the ends of a
node, or the ends of a stretch of a line. The position of an offset is on a row of the text and not past its end
(`LineIndex.position_inside`), also where the offset is inside a character, and positions are in the order of the offsets
(`LineIndex.position_le`). So the range of every diagnostic is a range of the document (`Notice.range_inside`).
-/

namespace RubyServer

/-- A range of a text: it ends where it starts or further down, on rows that the text has and not past their ends. -/
structure Range.Inside (range : Range) (t : Text) : Prop where
  ordered : range.start ≤ range.stop
  start : ∃ row, t.rows[range.start.line]? = some row ∧ range.start.character ≤ row.unitSize
  stop : ∃ row, t.rows[range.stop.line]? = some row ∧ range.stop.character ≤ row.unitSize

/-- No node of a source ends before it begins. -/
def Source.Ordered (s : Source) : Prop := ∀ n ∈ s.root.preorder, n.label.start ≤ n.label.stop

variable {s : Source} {span : Span}

/-- The range between two offsets is a range of the text. -/
theorem LineIndex.inside_of_le {t : Text} {m n : Nat} (h : t.byteSize < UInt32.size) (hmn : m ≤ n) :
    ((ofText t).range ⟨t.pointAt m, t.pointAt n⟩).Inside t :=
  ⟨position_le h hmn, position_inside h m, position_inside h n⟩

/-- A stretch of a text is between two offsets. -/
theorem Span.Covers.exists_offsets {t : Text} {a b : Nat} (h : span.Covers t a b) :
    ∃ m n, m ≤ n ∧ span = ⟨t.pointAt m, t.pointAt n⟩ := by
  have hstart : span.start = t.pointAt (Text.byteSize (t.take a)) := h.start
  have hstop : span.stop = t.pointAt (Text.byteSize (t.take b)) := h.stop
  have hle := Text.byteSize_le_of_isPrefix (List.take_prefix_take_left h.ordered (l := t))
  exact ⟨_, _, hle, by rw [← hstart, ← hstop]⟩

/-- What rules report is between two offsets. -/
theorem Source.Reportable.exists_offsets (hordered : s.Ordered) (h : s.Reportable span) :
    ∃ m n, m ≤ n ∧ span = ⟨s.text.pointAt m, s.text.pointAt n⟩ := by
  cases h with
  | node hn => exact ⟨_, _, hordered _ hn, rfl⟩
  | line hline =>
    obtain ⟨a, b, hcovers⟩ := Source.exists_covers_of_line? hline
    exact hcovers.exists_offsets

/-- **Diagnostics lie in the document.** In a text of less than 2^32 bytes, if no node ends before it begins, every
diagnostic of a run of the standard rules, whatever the configuration, has a range that ends where it starts or further
down, on rows of the text and not past their ends. -/
theorem Notice.range_inside (hsize : s.text.byteSize < UInt32.size) (hordered : s.Ordered) {c : LintConfig}
    {found : List Diagnostic} (hrun : Lint.run c Rule.standard s = .ok found) :
    ∀ notice ∈ Notice.ofDiagnostics s.text found, notice.range.Inside s.text := by
  intro notice hnotice
  obtain ⟨d, hd, rfl⟩ := List.mem_map.mp hnotice
  show ((LineIndex.ofText s.text).range d.span).Inside s.text
  obtain ⟨m, n, hmn, hspan⟩ : ∃ m n, m ≤ n ∧ d.span = ⟨s.text.pointAt m, s.text.pointAt n⟩ := by
    rcases Lint.span_of_mem_run hrun hd with hzero | hreportable
    · rw [hzero]
      exact (Span.covers_append [] [] s.text).exists_offsets
    · exact hreportable.exists_offsets hordered
  rw [hspan]
  exact LineIndex.inside_of_le hsize hmn

/-- Two rows without a line feed at the end. The parser finds an error that ends inside the second character. -/
def tornError : Source where
  text := ['é', '😀', ' ', '\r', '\n', '\t', 'x']
  parse := .tree <| .mk ⟨"program", true, false, false, 0, 11, none⟩
    [.mk ⟨"ERROR", true, true, false, 0, 4, none⟩ [], .mk ⟨"identifier", true, false, false, 10, 11, none⟩ []]

/-- The error comes out up to the first character; one line is too long and has a blank at its end, the other begins with a
tab and is not closed. -/
theorem range_inside_tornError : ∃ found, Lint.run { maxLineLength := 2 } Rule.standard tornError = .ok found ∧
    (Notice.ofDiagnostics tornError.text found).map Notice.range =
      [⟨⟨0, 0⟩, ⟨0, 1⟩⟩, ⟨⟨0, 3⟩, ⟨0, 4⟩⟩, ⟨⟨0, 3⟩, ⟨0, 4⟩⟩, ⟨⟨1, 0⟩, ⟨1, 1⟩⟩, ⟨⟨1, 2⟩, ⟨1, 2⟩⟩] ∧
    ∀ notice ∈ Notice.ofDiagnostics tornError.text found, notice.range.Inside tornError.text := by
  have hranges : (Lint.run { maxLineLength := 2 } Rule.standard tornError).toOption.map
      (fun found => (Notice.ofDiagnostics tornError.text found).map Notice.range) =
      some [⟨⟨0, 0⟩, ⟨0, 1⟩⟩, ⟨⟨0, 3⟩, ⟨0, 4⟩⟩, ⟨⟨0, 3⟩, ⟨0, 4⟩⟩, ⟨⟨1, 0⟩, ⟨1, 1⟩⟩, ⟨⟨1, 2⟩, ⟨1, 2⟩⟩] := by decide +kernel
  have hordered : tornError.Ordered := by
    unfold Source.Ordered
    decide
  cases hrun : Lint.run { maxLineLength := 2 } Rule.standard tornError with
  | error e =>
    rw [hrun] at hranges
    cases hranges
  | ok found =>
    rw [hrun] at hranges
    exact ⟨found, rfl, Option.some.inj hranges, Notice.range_inside (by decide) hordered hrun⟩

end RubyServer
