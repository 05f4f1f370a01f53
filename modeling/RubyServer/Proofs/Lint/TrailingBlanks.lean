import RubyServer.Proofs.Lint.Indentation
import RubyServer.Proofs.Text.Columns

/-!
# Blanks at the end of a row, reported and cut

The formatter cuts a row in two: it keeps the front, laid out as indentation or content, and takes away the blanks at
the end, the carriage return aside (`Format.Cuts`, `Format.cuts_iff`). On rows that a literal goes on after nothing is
taken away. The lint rule looks at lines and not at rows, which makes no difference to the blanks at their ends unless
the text ends in a carriage return (`Text.getElem?_lines_iff`). So the rule reports, once each and in order, the rows
that the formatter takes something away from, and its spans are what is taken away (`trailingWhitespace_cuts`).
-/

namespace RubyServer

namespace Text

variable {t line : Text} {n : Nat}

/-- The blanks at the end of a line, and the line without them. -/
theorem exists_trimPadding (line : Text) :
    ∃ gone, line = trimPadding line ++ gone ∧ ∀ a ∈ gone, isPadding a = true := by
  refine ⟨(line.reverse.takeWhile isPadding).reverse, ?_, ?_⟩
  · unfold trimPadding trimEnd
    rw [← List.reverse_append, List.takeWhile_append_dropWhile, List.reverse_reverse]
  · intro a ha
    exact List.mem_takeWhile_imp (List.mem_reverse.mp ha)

theorem dropFinal_of_getLast? {c : Char} (h : t.getLast? ≠ some c) : dropFinal c t = t :=
  if_neg (by simpa [endsWith] using h)

/-- Only what is behind a character that is no carriage return can be one at the end. -/
theorem dropFinal_content {c : Char} (front back : Text) (hc : c ≠ '\r') :
    dropFinal '\r' (front ++ c :: back) = front ++ c :: dropFinal '\r' back := by
  obtain rfl | ⟨back, d, rfl⟩ := List.eq_nil_or_concat' back
  · exact dropFinal_of_getLast? (by simpa using hc)
  · unfold dropFinal endsWith
    rw [← List.cons_append, ← List.append_assoc, List.getLast?_concat, List.getLast?_concat]
    split
    · rw [List.dropLast_concat, List.dropLast_concat]
    · simp

/-- Where a text does not end in a carriage return, its lines that are not empty are its rows without theirs. -/
theorem getElem?_lines_iff (h : t.getLast? ≠ some '\r') (hline : line ≠ []) :
    t.lines[n]? = some line ↔ ∃ raw, t.rows[n]? = some raw ∧ dropFinal '\r' raw = line := by
  obtain ⟨closed, -, hrows, -⟩ := t.exists_rows_append
  unfold lines
  rw [getElem?_linesOfRows]
  cases hraw : t.rows[n]? with
  | none => simp
  | some raw =>
    simp only [Option.bind_some, Option.some.injEq, exists_eq_left']
    split
    · next hlast =>
      -- the last row does not end in a carriage return, since the text does not
      obtain rfl : raw = t.lastRow := by
        have hn : n = closed.length := by simpa [hrows] using hlast
        simpa [hrows, hn] using hraw.symm
      have hcr : t.lastRow.getLast? ≠ some '\r' := by
        intro hcr
        obtain ⟨front, hfront⟩ := t.lastRow_suffix
        rw [hfront, List.getLast?_append, hcr] at h
        exact h rfl
      rw [dropFinal_of_getLast? hcr]
      split
      · next hempty =>
        rw [List.isEmpty_iff.mp hempty]
        simpa using hline.symm
      · simp
    · simp

end Text

/-! ## The rule -/

namespace Rule

variable {check : Nat → Text → Option Diagnostic} {literals : List Span} {line : Text} {row : Nat} {span : Span}

/-- A rule on lines finds at most one thing on each, from the first line to the last. -/
theorem pairwise_onLines (hrow : ∀ row line d, check row line = some d → d.span.start.row = row) (s : Source) :
    ((onLines check s).map fun d => d.span.start.row).Pairwise (· < ·) := by
  unfold onLines
  rw [List.pairwise_map, List.pairwise_filterMap]
  have hrows : s.text.lines.zipIdx.Pairwise fun a b => a.2 < b.2 := by
    rw [← List.pairwise_map (f := Prod.snd), List.zipIdx_map_snd]
    exact List.pairwise_lt_range'
  refine hrows.imp ?_
  intro a b hlt d hd d' hd'
  rw [hrow _ _ d hd, hrow _ _ d' hd']
  exact hlt

/-- The span of trailing blanks: from the end of the trimmed line to the end of the line. -/
theorem exists_trailing?_iff : (∃ d, trailing? literals row line = some d ∧ d.span = span) ↔
    Source.isOpenRow literals row = false ∧ Text.byteSize (Text.trimPadding line) < Text.byteSize line ∧
      span = .onRow row (Text.byteSize (Text.trimPadding line)) (Text.byteSize line) := by
  unfold trailing?
  split
  · next hopen => simp [hopen]
  · next hopen =>
    simp only
    split
    · next hlt => simp [hopen, hlt, eq_comm]
    · next hlt => simp [hlt]

/-- What the rule reports. -/
theorem reports_trailing_iff {s : Source} {start stop : Nat} :
    (∃ d ∈ onLines (trailing? literals) s, d.span = .onRow row start stop) ↔
      ∃ line, s.text.lines[row]? = some line ∧ Source.isOpenRow literals row = false ∧
        Text.byteSize (Text.trimPadding line) < Text.byteSize line ∧ start = Text.byteSize (Text.trimPadding line) ∧
        stop = Text.byteSize line := by
  constructor
  · rintro ⟨d, hd, hspan⟩
    obtain ⟨row', line, hline, hcheck⟩ := mem_onLines.mp hd
    obtain ⟨hopen, hlt, heq⟩ := exists_trailing?_iff.mp ⟨d, hcheck, hspan⟩
    cases heq
    exact ⟨line, hline, hopen, hlt, rfl, rfl⟩
  · rintro ⟨line, hline, hopen, hlt, rfl, rfl⟩
    obtain ⟨d, hcheck, hspan⟩ := exists_trailing?_iff.mpr ⟨hopen, hlt, rfl⟩
    exact ⟨d, mem_onLines.mpr ⟨row, line, hline, hcheck⟩, hspan⟩

end Rule

/-! ## The formatter -/

namespace Format

variable {literals : List Span} {raw front gone : Text} {s : Source} {n : Nat}

/-- A line with its indentation expanded, unless its beginning is content. -/
def laidOut (literals : List Span) (width n : Nat) (line : Text) : Text :=
  if Source.isContinuedRow literals n then line else expand width line

/-- The formatter takes `gone` away from the end of a row, the carriage return aside: what it makes of the row, at
whatever width, is the front of it, laid out, and the carriage return. -/
structure Cuts (s : Source) (n : Nat) (raw front gone : Text) : Prop where
  isRow : s.text.rows[n]? = some raw
  parts : raw = front ++ (gone ++ (splitReturn raw).2)
  rest : ∀ width, row s.literalSpans width raw n = laidOut s.literalSpans width n front ++ (splitReturn raw).2

/-- What the formatter keeps of a row, the carriage return aside. -/
def kept (literals : List Span) (raw : Text) (n : Nat) : Text :=
  if Source.isOpenRow literals n then Text.dropFinal '\r' raw else Text.trimPadding (Text.dropFinal '\r' raw)

theorem row_eq_laidOut (literals : List Span) (width : Nat) (raw : Text) (n : Nat) :
    row literals width raw n = laidOut literals width n (kept literals raw n) ++ (splitReturn raw).2 :=
  row_eq literals width raw n

theorem dropFinal_append_return (raw : Text) : Text.dropFinal '\r' raw ++ (splitReturn raw).2 = raw := by
  unfold Text.dropFinal splitReturn
  split
  · next h =>
    obtain ⟨front, rfl⟩ := List.getLast?_eq_some_iff.mp (beq_iff_eq.mp h)
    rw [List.dropLast_concat]
  · exact List.append_nil raw

/-- At width one, expanding changes no length. -/
theorem length_laidOut_one (literals : List Span) (n : Nat) (line : Text) :
    (laidOut literals 1 n line).length = line.length := by
  unfold laidOut
  split
  · rfl
  · have hcount (u : Text) : u.countP (· ≠ '\t') + u.count '\t' = u.length := by
      rw [u.length_eq_countP_add_countP (· ≠ '\t'), List.count]
      simp [beq_eq_decide]
    have hsplit := congrArg List.length (List.takeWhile_append_dropWhile (p := isPadding) (l := line))
    unfold expand
    rw [List.length_append, length_expanded, Nat.mul_one, hcount, ← hsplit, List.length_append, Text.indentation]

/-- The formatter cuts a row in one way. -/
theorem cuts_iff : Cuts s n raw front gone ↔
    s.text.rows[n]? = some raw ∧ front = kept s.literalSpans raw n ∧ Text.dropFinal '\r' raw = front ++ gone := by
  have hraw := dropFinal_append_return raw
  constructor
  · rintro ⟨hrow, hparts, hrest⟩
    have hline : Text.dropFinal '\r' raw = front ++ gone := by
      rw [← List.append_assoc] at hparts
      exact List.append_cancel_right (hraw.trans hparts)
    have hkept : ∃ gone', Text.dropFinal '\r' raw = kept s.literalSpans raw n ++ gone' := by
      unfold kept
      split
      · exact ⟨[], (List.append_nil _).symm⟩
      · obtain ⟨gone', heq, -⟩ := Text.exists_trimPadding (Text.dropFinal '\r' raw)
        exact ⟨gone', heq⟩
    obtain ⟨gone', hline'⟩ := hkept
    -- both are what the row begins with, and of the same length
    have hlen : front.length = (kept s.literalSpans raw n).length := by
      have hone := hrest 1
      rw [row_eq_laidOut] at hone
      have hlen := congrArg List.length (List.append_cancel_right hone)
      rw [length_laidOut_one, length_laidOut_one] at hlen
      exact hlen.symm
    exact ⟨hrow, (List.append_inj (hline.symm.trans hline') hlen).1, hline⟩
  · rintro ⟨hrow, rfl, hline⟩
    refine ⟨hrow, ?_, fun width => row_eq_laidOut s.literalSpans width raw n⟩
    rw [← List.append_assoc, ← hline, hraw]

/-- Something is taken away from a row exactly if no literal goes on after it and there are blanks at its end. -/
theorem cuts_iff_of_ne_nil (hgone : gone ≠ []) : Cuts s n raw front gone ↔
    s.text.rows[n]? = some raw ∧ Source.isOpenRow s.literalSpans n = false ∧
      front = Text.trimPadding (Text.dropFinal '\r' raw) ∧ Text.dropFinal '\r' raw = front ++ gone := by
  rw [cuts_iff]
  unfold kept
  cases hopen : Source.isOpenRow s.literalSpans n with
  | false => simp
  | true =>
    simp only [↓reduceIte, Bool.true_eq_false, false_and, and_false, iff_false, not_and]
    rintro - rfl heq
    exact hgone (by simpa using heq)

end Format

/-- **The rule on trailing blanks and the formatter agree.** In a text that does not end in a carriage return, the rule
reports rows in order and each at most once, always a stretch of one row; and a stretch of a row is reported exactly if
it is what the formatter takes away from the end of that row, blanks alone and at least one of them. -/
theorem trailingWhitespace_cuts {s : Source} (h : s.text.getLast? ≠ some '\r') (limit : Nat) :
    ∃ found, Rule.trailingWhitespace.check limit s = .ok found ∧
      (found.map fun d => d.span.start.row).Pairwise (· < ·) ∧
      (∀ d ∈ found, ∃ row start stop, d.span = .onRow row start stop) ∧
      ∀ row start stop, (∃ d ∈ found, d.span = .onRow row start stop) ↔
        ∃ raw front gone, Format.Cuts s row raw front gone ∧ gone ≠ [] ∧ (∀ c ∈ gone, isPadding c = true) ∧
          start = front.byteSize ∧ stop = (front ++ gone).byteSize ∧ raw.slice? start stop = some gone := by
  refine ⟨_, rfl, Rule.pairwise_onLines ?_ s, ?_, ?_⟩
  · intro row line d hd
    obtain ⟨-, -, hspan⟩ := Rule.exists_trailing?_iff.mp ⟨d, hd, rfl⟩
    rw [hspan]
    rfl
  · intro d hd
    obtain ⟨row, line, -, hcheck⟩ := Rule.mem_onLines.mp hd
    obtain ⟨-, -, hspan⟩ := Rule.exists_trailing?_iff.mp ⟨d, hcheck, rfl⟩
    exact ⟨_, _, _, hspan⟩
  · intro row start stop
    rw [Rule.reports_trailing_iff]
    constructor
    · rintro ⟨line, hline, hopen, hlt, rfl, rfl⟩
      obtain ⟨gone, hgone, hblank⟩ := line.exists_trimPadding
      have hne : gone ≠ [] := by
        rintro rfl
        rw [List.append_nil] at hgone
        rw [← hgone] at hlt
        omega
      have hline' : line ≠ [] := by
        rintro rfl
        simp [Text.byteSize] at hlt
      obtain ⟨raw, hraw, rfl⟩ := (Text.getElem?_lines_iff h hline').mp hline
      have hcuts := (Format.cuts_iff_of_ne_nil hne).mpr ⟨hraw, hopen, rfl, hgone⟩
      have hslice := Text.slice?_append (Text.trimPadding (Text.dropFinal '\r' raw)) gone (Format.splitReturn raw).2
      rw [← hcuts.parts, ← hgone] at hslice
      exact ⟨raw, _, gone, hcuts, hne, hblank, rfl, congrArg Text.byteSize hgone, hslice⟩
    · rintro ⟨raw, front, gone, hcuts, hne, -, rfl, rfl, -⟩
      obtain ⟨hraw, hopen, rfl, hgone⟩ := (Format.cuts_iff_of_ne_nil hne).mp hcuts
      have hline : Text.dropFinal '\r' raw ≠ [] := by
        rw [hgone]
        simp [hne]
      have hat := (Text.getElem?_lines_iff h hline).mpr ⟨raw, hraw, rfl⟩
      refine ⟨_, hat, hopen, ?_, rfl, congrArg Text.byteSize hgone.symm⟩
      have hpos := List.length_pos_iff.mpr hne
      have hsize := Text.length_le_byteSize gone
      have hsum := congrArg Text.byteSize hgone
      rw [Text.byteSize_append] at hsum
      omega

/-- Three rows that end in blanks, two of them before a CRLF; a string goes on after the second. -/
def blankEnds : Source where
  text := "a \r\n\"b \nc\"\t\r\n".toList
  parse := .tree <| .mk ⟨"program", true, false, false, 0, 13, none⟩
    [.mk ⟨"identifier", true, false, false, 0, 1, none⟩ [], .mk ⟨"string", true, false, false, 4, 10, none⟩ []]

/-- The tab after the string is taken away, and the blank inside it is not. -/
theorem trailingWhitespace_cuts_blankEnds :
    (∃ raw front gone, Format.Cuts blankEnds 2 raw front gone ∧ raw.slice? 2 3 = some gone ∧ gone ≠ []) ∧
      ¬ ∃ raw front gone, Format.Cuts blankEnds 1 raw front gone ∧ gone = [' '] := by
  have hend : blankEnds.text.getLast? ≠ some '\r' := by decide
  obtain ⟨found, hcheck, -, -, hiff⟩ := trailingWhitespace_cuts hend 120
  have hspans : found.map Diagnostic.span = [.onRow 0 1 2, .onRow 2 2 3] := by
    obtain rfl := Except.ok.inj hcheck
    decide
  have hreported (span : Span) : (∃ d ∈ found, d.span = span) ↔ span ∈ [Span.onRow 0 1 2, .onRow 2 2 3] := by
    rw [← hspans, List.mem_map]
  constructor
  · obtain ⟨raw, front, gone, hcuts, hne, -, -, -, hslice⟩ := (hiff 2 2 3).mp ((hreported _).mpr (by simp))
    exact ⟨raw, front, gone, hcuts, hslice, hne⟩
  · rintro ⟨raw, front, gone, hcuts, rfl⟩
    have hslice := Text.slice?_append front [' '] (Format.splitReturn raw).2
    rw [← hcuts.parts] at hslice
    have hmem := (hreported _).mp
      ((hiff 1 _ _).mpr ⟨raw, front, [' '], hcuts, by simp, by simp [isPadding], rfl, rfl, hslice⟩)
    simp [Span.onRow] at hmem

end RubyServer
