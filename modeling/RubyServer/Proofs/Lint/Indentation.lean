import Mathlib.Data.List.Basic
import Mathlib.Data.List.TakeWhile
import RubyServer.Feature.Format
import RubyServer.Lint.Rule
import RubyServer.Proofs.Text.Rows

/-!
# Tabs in indentation, reported and expanded

The lint rule on tabs and the formatter both look at the blanks that a row begins with. The formatter leaves them alone
where they are content, on rows that a literal began before; it expands their tabs everywhere else, unless nothing but
blanks stands on the row, which then go (`expands_iff`). The rule leaves out the rows that a literal goes on after
(`reports_tabIndentation`), as is right for blanks at the end of a row. The two differ on the first row of a literal and
on its last: the rule is silent about the indentation of the first, and reports the content of the last
(`reports_tabIndentation_iff`).
-/

namespace RubyServer

namespace Text

variable {front line rest t : Text} {c : Char}

/-! ## Leading blanks -/

/-- A line that holds more than blanks: the blanks it begins with, and what follows them. -/
theorem exists_content (h : line.all isPadding = false) :
    ∃ front c rest, line = front ++ c :: rest ∧ (∀ a ∈ front, isPadding a = true) ∧ isPadding c = false := by
  induction line with
  | nil => cases h
  | cons a line ih =>
    by_cases ha : isPadding a = true
    · rw [List.all_cons, ha, Bool.true_and] at h
      obtain ⟨front, c, rest, rfl, hfront, hc⟩ := ih h
      exact ⟨a :: front, c, rest, rfl, List.forall_mem_cons.mpr ⟨ha, hfront⟩, hc⟩
    · exact ⟨[], a, line, rfl, fun _ hm => (by cases hm), Bool.not_eq_true _ ▸ ha⟩

theorem indentation_content (hfront : ∀ a ∈ front, isPadding a = true) (hc : isPadding c = false) :
    indentation (front ++ c :: rest) = front := by
  unfold indentation
  rw [List.takeWhile_append_of_pos hfront, List.takeWhile_cons_of_neg (by simp [hc]), List.append_nil]

theorem trimPadding_content (front rest : Text) (hc : isPadding c = false) :
    trimPadding (front ++ c :: rest) = front ++ c :: trimPadding rest := by
  unfold trimPadding trimEnd
  rw [List.reverse_append, List.reverse_cons, List.append_assoc, List.singleton_append, List.dropWhile_append]
  split
  · next hempty =>
    rw [List.dropWhile_cons_of_neg (by simp [hc]), List.isEmpty_iff.mp hempty]
    simp
  · simp

theorem trimPadding_blank (h : line.all isPadding = true) : trimPadding line = [] := by
  unfold trimPadding trimEnd
  rw [List.reverse_eq_nil_iff, List.dropWhile_eq_nil_iff]
  intro a hm
  exact List.all_eq_true.mp h a (List.mem_reverse.mp hm)

/-- Blanks at the end do not count as indentation only where there is nothing else. -/
theorem indentation_trimPadding (line : Text) :
    indentation (trimPadding line) = if line.all isPadding then [] else indentation line := by
  split
  · next h =>
    rw [trimPadding_blank h]
    rfl
  · next h =>
    obtain ⟨front, c, rest, rfl, hfront, hc⟩ := exists_content (Bool.not_eq_true _ ▸ h)
    rw [trimPadding_content front rest hc, indentation_content hfront hc, indentation_content hfront hc]

/-- A carriage return at the end is no blank, so it leaves the indentation as it is. -/
theorem indentation_dropFinal (t : Text) : indentation (dropFinal '\r' t) = indentation t := by
  unfold dropFinal
  split
  · next h =>
    obtain ⟨front, rfl⟩ := List.getLast?_eq_some_iff.mp (beq_iff_eq.mp h)
    unfold indentation
    rw [List.dropLast_concat, List.takeWhile_append]
    split
    · next hlen =>
      rw [show ['\r'].takeWhile isPadding = [] from rfl, List.append_nil]
      exact (List.takeWhile_prefix isPadding).eq_of_length hlen
    · rfl
  · rfl

/-! ## Lines and rows -/

/-- Looking for a tab in the indentation, lines are as good as rows. -/
theorem tab_mem_line_iff (t : Text) (n : Nat) :
    (∃ line, t.lines[n]? = some line ∧ '\t' ∈ indentation line) ↔
      ∃ raw, t.rows[n]? = some raw ∧ '\t' ∈ indentation raw := by
  unfold lines
  rw [getElem?_linesOfRows]
  cases hraw : t.rows[n]? with
  | none => simp
  | some raw =>
    simp only [Option.bind_some, Option.some.injEq, exists_eq_left']
    split
    · split
      · next hempty =>
        rw [List.isEmpty_iff.mp hempty]
        simp [indentation]
      · simp
    · simp [indentation_dropFinal]

end Text

/-! ## The rule -/

/-- Whether a rule reports something that begins on a row. -/
def Rule.Reports (rule : Rule) (limit : Nat) (s : Source) (row : Nat) : Prop :=
  ∃ found, rule.check limit s = .ok found ∧ ∃ d ∈ found, d.span.start.row = row

/-- A rule on lines finds what it finds on one of them. -/
theorem Rule.mem_onLines {check : Nat → Text → Option Diagnostic} {s : Source} {d : Diagnostic} :
    d ∈ onLines check s ↔ ∃ row line, s.line? row = some line ∧ check row line = some d := by
  unfold onLines
  rw [List.mem_filterMap]
  constructor
  · rintro ⟨⟨line, row⟩, hmem, hcheck⟩
    exact ⟨row, line, List.mem_zipIdx_iff_getElem?.mp hmem, hcheck⟩
  · rintro ⟨row, line, hline, hcheck⟩
    exact ⟨(line, row), List.mem_zipIdx_iff_getElem?.mpr hline, hcheck⟩

/-- Whether a row is a line with a tab among its leading blanks. -/
def Source.Tabbed (s : Source) (row : Nat) : Prop := ∃ line, s.line? row = some line ∧ '\t' ∈ Text.indentation line

theorem Rule.exists_tabbed?_iff {literals : List Span} {row : Nat} {line : Text} :
    (∃ d, tabbed? literals row line = some d) ↔ Source.isOpenRow literals row = false ∧ '\t' ∈ Text.indentation line := by
  unfold tabbed?
  split
  · next h => simp [h]
  · next h =>
    split
    · next htab => simpa [h] using htab
    · next htab => simpa [h] using htab

theorem Rule.row_of_tabbed? {literals : List Span} {row : Nat} {line : Text} {d : Diagnostic}
    (h : tabbed? literals row line = some d) : d.span.start.row = row := by
  unfold tabbed? at h
  split at h
  · cases h
  · split at h
    · cases h
      rfl
    · cases h

/-- The rule reports tabs in the indentation of every row that no literal goes on after. -/
theorem reports_tabIndentation (limit : Nat) (s : Source) (row : Nat) :
    Rule.tabIndentation.Reports limit s row ↔ s.Tabbed row ∧ Source.isOpenRow s.literalSpans row = false := by
  constructor
  · rintro ⟨found, hfound, d, hd, rfl⟩
    cases hfound
    obtain ⟨n, line, hline, hd⟩ := Rule.mem_onLines.mp hd
    rw [Rule.row_of_tabbed? hd]
    obtain ⟨hopen, htab⟩ := Rule.exists_tabbed?_iff.mp ⟨d, hd⟩
    exact ⟨⟨line, hline, htab⟩, hopen⟩
  · rintro ⟨⟨line, hline, htab⟩, hopen⟩
    obtain ⟨d, hd⟩ := Rule.exists_tabbed?_iff.mpr ⟨hopen, htab⟩
    exact ⟨_, rfl, d, Rule.mem_onLines.mpr ⟨row, line, hline, hd⟩, Rule.row_of_tabbed? hd⟩

/-! ## The formatter -/

namespace Format

/-- Whether the formatter takes the blanks that a row begins with for indentation: the width decides what becomes of
the row. -/
def Expands (s : Source) (n : Nat) : Prop :=
  ∃ raw, s.text.rows[n]? = some raw ∧
    ∃ width width', row s.literalSpans width raw n ≠ row s.literalSpans width' raw n

/-- Whether nothing but blanks stands on a row. -/
def Bare (s : Source) (n : Nat) : Prop :=
  ∃ raw, s.text.rows[n]? = some raw ∧ (Text.dropFinal '\r' raw).all isPadding = true

/-- Each tab of an indentation takes as many places as the width says. -/
theorem length_expanded (width : Nat) (indentation : Text) :
    (indentation.flatMap fun c => if c = '\t' then List.replicate width ' ' else [' ']).length =
      indentation.countP (· ≠ '\t') + indentation.count '\t' * width := by
  induction indentation with
  | nil => simp
  | cons c indentation ih =>
    rw [List.flatMap_cons, List.length_append, ih]
    by_cases hc : c = '\t'
    · subst hc
      simp [Nat.succ_mul]
      omega
    · simp [hc]
      omega

theorem eq_space_of_mem_expanded {width : Nat} {indentation : Text} {c : Char}
    (h : c ∈ indentation.flatMap fun c => if c = '\t' then List.replicate width ' ' else [' ']) : c = ' ' := by
  obtain ⟨d, -, hc⟩ := List.mem_flatMap.mp h
  split at hc
  · exact List.eq_of_mem_replicate hc
  · exact List.mem_singleton.mp hc

theorem expand_of_not_mem {line : Text} (h : '\t' ∉ Text.indentation line) (width width' : Nat) :
    expand width line = expand width' line := by
  unfold expand
  congr 1
  apply List.flatMap_congr
  intro c hm
  have hc : c ≠ '\t' := fun e => h (e ▸ hm)
  rw [if_neg hc, if_neg hc]

/-- The width matters exactly if there is a tab to expand. -/
theorem expand_ne_iff {line : Text} :
    (∃ width width', expand width line ≠ expand width' line) ↔ '\t' ∈ Text.indentation line := by
  constructor
  · rintro ⟨width, width', hne⟩
    by_contra h
    exact hne (expand_of_not_mem h width width')
  · intro h
    refine ⟨0, 1, fun heq => ?_⟩
    have hlen := congrArg List.length heq
    unfold expand at hlen
    rw [List.length_append, List.length_append, length_expanded, length_expanded] at hlen
    have hpos : 0 < (Text.indentation line).count '\t' := List.count_pos_iff.mpr h
    omega

/-- A row is trimmed unless a literal goes on after it, and expanded unless a literal began before it. -/
theorem row_eq (literals : List Span) (width : Nat) (raw : Text) (n : Nat) :
    row literals width raw n =
      (if Source.isContinuedRow literals n then
          if Source.isOpenRow literals n then Text.dropFinal '\r' raw else Text.trimPadding (Text.dropFinal '\r' raw)
        else expand width
          (if Source.isOpenRow literals n then Text.dropFinal '\r' raw else Text.trimPadding (Text.dropFinal '\r' raw)))
        ++ (splitReturn raw).2 := by
  have hsplit : (splitReturn raw).1 = Text.dropFinal '\r' raw := by
    unfold splitReturn Text.dropFinal
    split <;> rfl
  unfold row
  simp only [hsplit]

theorem expands_iff (s : Source) (n : Nat) :
    Expands s n ↔ s.Tabbed n ∧ Source.isContinuedRow s.literalSpans n = false ∧
      (Bare s n → Source.isOpenRow s.literalSpans n = true) := by
  unfold Source.Tabbed Source.line?
  rw [Text.tab_mem_line_iff]
  unfold Expands Bare
  cases hraw : s.text.rows[n]? with
  | none => simp
  | some raw =>
    simp only [Option.some.injEq, exists_eq_left', row_eq, ne_eq, List.append_left_inj]
    cases hcont : Source.isContinuedRow s.literalSpans n with
    | true => simp
    | false =>
      simp only [Bool.false_eq_true, ↓reduceIte, true_and]
      refine expand_ne_iff.trans ?_
      cases hopen : Source.isOpenRow s.literalSpans n with
      | true => simp [Text.indentation_dropFinal]
      | false =>
        simp only [Bool.false_eq_true, ↓reduceIte, imp_false, Text.indentation_trimPadding]
        split
        · next hbare => simp [hbare]
        · next hbare => simp [hbare, Text.indentation_dropFinal]

end Format

/-! ## The two side by side -/

/-- **Where the rule on tabs and the formatter part.** The rule reports a row with a tab in its indentation exactly if no
literal goes on after the row. The formatter expands such a row exactly if no literal began before it, rows that hold
nothing but blanks apart. So the rule reports what is indentation, and not the content of a literal, exactly on the rows
where both come to the same: a literal goes on after the row if and only if one began before it. -/
theorem reports_tabIndentation_iff (limit : Nat) (s : Source) (row : Nat) :
    (Rule.tabIndentation.Reports limit s row ↔ s.Tabbed row ∧ ¬ Source.isOpenRow s.literalSpans row = true) ∧
    (Format.Expands s row ↔ s.Tabbed row ∧ ¬ Source.isContinuedRow s.literalSpans row = true ∧
      (Format.Bare s row → Source.isOpenRow s.literalSpans row = true)) ∧
    ((Rule.tabIndentation.Reports limit s row ↔
        s.Tabbed row ∧ ¬ Source.isContinuedRow s.literalSpans row = true) ↔
      (s.Tabbed row →
        (Source.isOpenRow s.literalSpans row = true ↔ Source.isContinuedRow s.literalSpans row = true))) := by
  have hreports := reports_tabIndentation limit s row
  have hexpands := Format.expands_iff s row
  simp only [← Bool.not_eq_true] at hreports hexpands
  refine ⟨hreports, hexpands, ?_⟩
  rw [hreports, and_congr_right_iff]
  exact imp_congr_right fun _ => not_iff_not

/-- A string over two rows, both of which begin with a tab: the first is indented by it, the second has it as content. -/
def twoRowString : Source where
  text := "\tx = \"a\n\tb\"\n".toList
  parse := .tree <| .mk ⟨"program", true, false, false, 1, 12, none⟩
    [.mk ⟨"assignment", true, false, false, 1, 11, none⟩
      [.mk ⟨"identifier", true, false, false, 1, 2, some "left"⟩ [], .mk ⟨"=", false, false, false, 3, 4, none⟩ [],
        .mk ⟨"string", true, false, false, 5, 11, some "right"⟩
          [.mk ⟨"\"", false, false, false, 5, 6, none⟩ [], .mk ⟨"string_content", true, false, false, 6, 10, none⟩ [],
            .mk ⟨"\"", false, false, false, 10, 11, none⟩ []]]]

/-- The rule reports the content and not the indentation. -/
theorem reports_tabIndentation_twoRowString :
    (¬ Rule.tabIndentation.Reports 120 twoRowString 0 ∧ Format.Expands twoRowString 0) ∧
      Rule.tabIndentation.Reports 120 twoRowString 1 ∧ ¬ Format.Expands twoRowString 1 := by
  obtain ⟨hreports, hexpands, -⟩ := reports_tabIndentation_iff 120 twoRowString 0
  obtain ⟨hreports', hexpands', -⟩ := reports_tabIndentation_iff 120 twoRowString 1
  have htabbed : twoRowString.Tabbed 0 := ⟨"\tx = \"a".toList, by decide, by decide⟩
  have htabbed' : twoRowString.Tabbed 1 := ⟨"\tb\"".toList, by decide, by decide⟩
  refine ⟨⟨?_, ?_⟩, ?_, ?_⟩
  · rw [hreports]
    exact fun h => h.2 (by decide)
  · exact hexpands.mpr ⟨htabbed, by decide, fun _ => by decide⟩
  · exact hreports'.mpr ⟨htabbed', by decide⟩
  · rw [hexpands']
    exact fun h => h.2.1 (by decide)

end RubyServer
