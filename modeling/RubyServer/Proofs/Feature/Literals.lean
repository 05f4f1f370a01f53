import RubyServer.Proofs.Lint.TrailingBlanks
import RubyServer.Proofs.Text.Places
import RubyServer.Proofs.Tree.Walk

/-!
# Formatting leaves literals alone

The formatter works on one row at a time. On a row that a literal goes on after, everything behind the start of the
literal stays; on a row that a literal began before, everything up to its end; and a stretch of one row stays if it begins
behind the indentation and ends in a character that is neither a blank nor a carriage return (`Format.exists_row_eq`).
Rows that go at the end of the text are void, so none of them is above such a stretch (`Format.exists_dropVoid_eq`). Put
together, the rows of a literal read the same in the formatted text, and begin on the same row (`text_keeps_literal`).
-/

namespace RubyServer

namespace Text

/-- Where a stretch of characters is found again in another text: it begins on the same row, and the rows that it covers
are the same as far as they belong to it. -/
structure Reappears (part : Text) (span : Span) (t u : Text) : Prop where
  place : ∃ before after, u = before ++ (part ++ after) ∧ before.count '\n' = span.start.row
  onRow : span.start.row = span.stop.row → ∃ front back front' back',
    t.rows[span.start.row]? = some (front ++ (part ++ back)) ∧ front.byteSize = span.start.column ∧
      u.rows[span.start.row]? = some (front' ++ (part ++ back'))
  first : span.start.row < span.stop.row → ∃ front front' back,
    t.rows[span.start.row]? = some (front ++ back) ∧ front.byteSize = span.start.column ∧
      u.rows[span.start.row]? = some (front' ++ back)
  between : ∀ n, span.start.row < n → n < span.stop.row → ∃ row, t.rows[n]? = some row ∧ u.rows[n]? = some row
  last : span.start.row < span.stop.row → ∃ front back back',
    t.rows[span.stop.row]? = some (front ++ back) ∧ front.byteSize = span.stop.column ∧
      u.rows[span.stop.row]? = some (front ++ back')

/-- The rows of a stretch are the same wherever it stands, as far as they belong to it. -/
theorem reappears_of_count_eq {before part after before' after' : Text} (h : before'.count '\n' = before.count '\n') :
    Reappears part ⟨pointAt (before ++ (part ++ after)) before.byteSize,
      pointAt (before ++ (part ++ after)) (before ++ part).byteSize⟩
      (before ++ (part ++ after)) (before' ++ (part ++ after')) := by
  have hstart := pointAt_byteSize before (part ++ after)
  have hstop := pointAt_byteSize (before ++ part) after
  rw [List.append_assoc, List.count_append] at hstop
  rw [hstart, hstop]
  obtain ⟨closed, back, rest, hlen, hsingle, hseveral⟩ := exists_rows_between before part after
  obtain ⟨closed', back', rest', hlen', hsingle', hseveral'⟩ := exists_rows_between before' part after'
  rw [h] at hlen'
  rw [← hlen] at hlen' ⊢
  obtain ⟨init, hinit, hpart, -⟩ := part.exists_rows_append
  cases init with
  | nil =>
    -- the stretch is on one row
    have hfeed : '\n' ∉ part := List.count_eq_zero.mp hinit.symm
    rw [lastRow_of_notMem hfeed] at hpart
    rw [← hinit]
    refine ⟨⟨before', after', rfl, h.trans hlen.symm⟩, ?_, ?_, ?_, ?_⟩
    · rintro -
      refine ⟨before.lastRow, back, before'.lastRow, back', ?_, rfl, ?_⟩
      · simp [hsingle _ hpart]
      · simp [hsingle' _ hpart, ← hlen']
    · simp
    · simp only [List.length_nil, Nat.add_zero]
      omega
    · simp
  | cons first middle =>
    -- the stretch is on several rows, those in the middle all its own
    have hfeed : '\n' ∈ part := List.count_pos_iff.mp (by rw [← hinit]; exact Nat.succ_pos _)
    rw [lastRow_append_of_mem hfeed, ← hinit]
    have hrows := hseveral first middle part.lastRow hpart
    have hrows' := hseveral' first middle part.lastRow hpart
    refine ⟨⟨before', after', rfl, h.trans hlen.symm⟩, ?_, ?_, ?_, ?_⟩
    · simp
    · rintro -
      refine ⟨before.lastRow, before'.lastRow, first, ?_, rfl, ?_⟩
      · simp [hrows]
      · simp [hrows', ← hlen']
    · simp only [List.length_cons]
      intro n hlt hgt
      obtain ⟨i, rfl⟩ := Nat.exists_eq_add_of_lt hlt
      have hi : i < middle.length := by omega
      have hmiddle (front : List Text) (first final : Text) (rest : List Text) :
          (front ++ first :: (middle ++ final :: rest))[front.length + i + 1]? = some middle[i] := by
        rw [List.getElem?_append_right (by omega), show front.length + i + 1 - front.length = i + 1 by omega,
          List.getElem?_cons_succ, List.getElem?_append_left hi, List.getElem?_eq_getElem hi]
      refine ⟨middle[i], ?_, ?_⟩
      · rw [hrows, hmiddle]
      · rw [hrows', ← hlen', hmiddle]
    · rintro -
      refine ⟨part.lastRow, back, back', ?_, rfl, ?_⟩
      · simp [hrows]
      · simp [hrows', ← hlen']

end Text

namespace Source

variable {spans : List Span} {l : Span} {n : Nat}

theorem isOpenRow_of_mem (h : l ∈ spans) (hstart : l.start.row ≤ n) (hstop : n < l.stop.row) :
    isOpenRow spans n = true :=
  List.any_eq_true.mpr ⟨l, h, by simp [hstart, hstop]⟩

theorem isContinuedRow_of_mem (h : l ∈ spans) (hstart : l.start.row < n) (hstop : n ≤ l.stop.row) :
    isContinuedRow spans n = true :=
  List.any_eq_true.mpr ⟨l, h, by simp [hstart, hstop]⟩

end Source

namespace Format

variable {literals : List Span} {raw front part back : Text} {n : Nat}

/-! ## One row -/

/-- Expanding the indentation changes nothing behind it. -/
theorem exists_expand_eq {line rest : Text} (width : Nat) (h : line ++ rest = front ++ back)
    (hindent : (Text.indentation line).length ≤ front.length) : ∃ front', expand width line ++ rest = front' ++ back := by
  have hline : Text.indentation line ++ (line.dropWhile isPadding ++ rest) = front ++ back := by
    rw [← h, ← List.append_assoc]
    exact congrArg (· ++ rest) List.takeWhile_append_dropWhile
  have hfront : Text.indentation line <+: front :=
    List.prefix_of_prefix_length_le ⟨_, hline⟩ (List.prefix_append front back) hindent
  obtain ⟨between, rfl⟩ := hfront
  rw [List.append_assoc] at hline
  unfold expand
  rw [List.append_assoc, List.append_cancel_left hline, ← List.append_assoc]
  exact ⟨_, rfl⟩

theorem indentation_kept_length_le (literals : List Span) (raw : Text) (n : Nat) :
    (Text.indentation (kept literals raw n)).length ≤ (Text.indentation raw).length := by
  unfold kept
  split
  · rw [Text.indentation_dropFinal]
  · rw [Text.indentation_trimPadding]
    split
    · exact Nat.zero_le _
    · rw [Text.indentation_dropFinal]

/-- What is kept of a row, up to the end of the row or up to a character that is neither a blank nor a carriage
return. -/
theorem exists_kept_eq (hraw : raw = front ++ (part ++ back)) (hend : Source.isOpenRow literals n = true ∨
      ∃ c, part.getLast? = some c ∧ isPadding c = false ∧ c ≠ '\r') :
    ∃ back', kept literals raw n ++ (splitReturn raw).2 = front ++ (part ++ back') ∧
      (Source.isOpenRow literals n = true → back' = back) := by
  unfold kept
  cases hopen : Source.isOpenRow literals n with
  | true =>
    simp only [↓reduceIte, dropFinal_append_return]
    exact ⟨back, hraw, fun _ => rfl⟩
  | false =>
    rw [hopen] at hend
    obtain ⟨c, hlast, hpad, hc⟩ := hend.resolve_left (by simp)
    -- the return and the blanks that go are behind the last character of the stretch
    obtain ⟨init, rfl⟩ := List.getLast?_eq_some_iff.mp hlast
    have hparts : raw = (front ++ init) ++ c :: back := by simp [hraw]
    simp only [Bool.false_eq_true, ↓reduceIte, false_implies, and_true]
    refine ⟨Text.trimPadding (Text.dropFinal '\r' back) ++ (splitReturn raw).2, ?_⟩
    rw [hparts, Text.dropFinal_content _ _ hc, Text.trimPadding_content _ _ hpad]
    simp

/-- **One row.** A stretch of a row stays on it, if a literal began before the row or the stretch begins behind the
indentation, and if a literal goes on after the row or the stretch ends in a character that is neither a blank nor a
carriage return. -/
theorem exists_row_eq (width : Nat) (hraw : raw = front ++ (part ++ back))
    (hstart : Source.isContinuedRow literals n = true ∨ (Text.indentation raw).length ≤ front.length)
    (hend : Source.isOpenRow literals n = true ∨ ∃ c, part.getLast? = some c ∧ isPadding c = false ∧ c ≠ '\r') :
    ∃ front' back', row literals width raw n = front' ++ (part ++ back') ∧
      (Source.isContinuedRow literals n = true → front' = front) ∧
      (Source.isOpenRow literals n = true → back' = back) := by
  obtain ⟨back', hkept, hback⟩ := exists_kept_eq hraw hend
  rw [row_eq_laidOut]
  unfold laidOut
  cases hcontinued : Source.isContinuedRow literals n with
  | true => exact ⟨front, back', hkept, fun _ => rfl, hback⟩
  | false =>
    rw [hcontinued] at hstart
    have hindent := (indentation_kept_length_le literals raw n).trans (hstart.resolve_left (by simp))
    obtain ⟨front', hrow⟩ := exists_expand_eq width hkept hindent
    exact ⟨front', back', hrow, by simp, hback⟩

/-- On a row that a literal goes on after, everything stays up to the end. -/
theorem exists_row_eq_of_open (width : Nat) (hopen : Source.isOpenRow literals n = true)
    (hindent : (Text.indentation (front ++ part)).length ≤ front.length) :
    ∃ front', row literals width (front ++ part) n = front' ++ part := by
  have hraw : front ++ part = front ++ (part ++ []) := by rw [List.append_nil]
  obtain ⟨front', back', hrow, -, hback⟩ := exists_row_eq width hraw (.inr hindent) (.inl hopen)
  rw [hback hopen, List.append_nil] at hrow
  exact ⟨front', hrow⟩

/-- On a row that a literal began before, everything stays from the start. -/
theorem exists_row_eq_of_continued (width : Nat) (hcontinued : Source.isContinuedRow literals n = true)
    (hend : ∃ c, part.getLast? = some c ∧ isPadding c = false ∧ c ≠ '\r') :
    ∃ back', row literals width (part ++ back) n = part ++ back' := by
  have hraw : part ++ back = [] ++ (part ++ back) := rfl
  obtain ⟨front', back', hrow, hfront, -⟩ := exists_row_eq width hraw (.inl hcontinued) (.inr hend)
  rw [hfront hcontinued] at hrow
  exact ⟨back', hrow⟩

/-- On a row that a literal began before and goes on after, everything stays. -/
theorem row_eq_self (width : Nat) (raw : Text) (hcontinued : Source.isContinuedRow literals n = true)
    (hopen : Source.isOpenRow literals n = true) : row literals width raw n = raw := by
  have hraw : raw = [] ++ ([] ++ raw) := rfl
  obtain ⟨front', back', hrow, hfront, hback⟩ := exists_row_eq width hraw (.inl hcontinued) (.inl hopen)
  rw [hfront hcontinued, hback hopen] at hrow
  exact hrow

/-- What is left of a row, its carriage return aside, was there before, save for spaces. -/
theorem mem_laidOut_kept {width : Nat} {c : Char} (h : c ∈ laidOut literals width n (kept literals raw n)) :
    c = ' ' ∨ c ∈ Text.dropFinal '\r' raw := by
  have hkept {c : Char} (hc : c ∈ kept literals raw n) : c ∈ Text.dropFinal '\r' raw := by
    unfold kept at hc
    split at hc
    · exact hc
    · obtain ⟨gone, hgone, -⟩ := Text.exists_trimPadding (Text.dropFinal '\r' raw)
      rw [hgone]
      exact List.mem_append_left _ hc
  unfold laidOut at h
  split at h
  · exact .inr (hkept h)
  · rcases List.mem_append.mp h with hc | hc
    · exact .inl (eq_space_of_mem_expanded hc)
    · exact .inr (hkept ((List.dropWhile_suffix _).subset hc))

theorem linefeed_notMem_row (literals : List Span) (width : Nat) (h : '\n' ∉ raw) (n : Nat) :
    '\n' ∉ row literals width raw n := by
  rw [row_eq_laidOut, List.mem_append, not_or]
  constructor
  · intro hm
    rcases mem_laidOut_kept hm with hspace | hline
    · cases hspace
    · rw [← dropFinal_append_return raw] at h
      exact h (List.mem_append_left _ hline)
  · unfold splitReturn
    split <;> simp

/-! ## All rows -/

/-- Rows, formatted, of which the first is row `n` of a text. -/
def rowsFrom (literals : List Span) (width n : Nat) (raws : List Text) : List Text :=
  (raws.zipIdx n).map fun (raw, n) => row literals width raw n

theorem rowsFrom_cons (literals : List Span) (width n : Nat) (raw : Text) (raws : List Text) :
    rowsFrom literals width n (raw :: raws) = row literals width raw n :: rowsFrom literals width (n + 1) raws := rfl

theorem rowsFrom_append (literals : List Span) (width n : Nat) (raws raws' : List Text) :
    rowsFrom literals width n (raws ++ raws') =
      rowsFrom literals width n raws ++ rowsFrom literals width (n + raws.length) raws' := by
  unfold rowsFrom
  rw [List.zipIdx_append, List.map_append]

theorem length_rowsFrom (literals : List Span) (width n : Nat) (raws : List Text) :
    (rowsFrom literals width n raws).length = raws.length := by
  simp [rowsFrom]

theorem linefeed_notMem_rowsFrom (literals : List Span) (width n : Nat) {raws : List Text}
    (h : ∀ raw ∈ raws, '\n' ∉ raw) : ∀ row ∈ rowsFrom literals width n raws, '\n' ∉ row := by
  unfold rowsFrom
  rw [List.forall_mem_map]
  rintro ⟨raw, m⟩ hmem
  exact linefeed_notMem_row literals width (h raw (List.fst_mem_of_mem_zipIdx hmem)) m

/-- Rows in the middle of a literal stay as they are. -/
theorem rowsFrom_eq_self (width : Nat) {raws : List Text}
    (h : ∀ m, n ≤ m → m < n + raws.length →
      Source.isContinuedRow literals m = true ∧ Source.isOpenRow literals m = true) :
    rowsFrom literals width n raws = raws := by
  induction raws generalizing n with
  | nil => rfl
  | cons raw raws ih =>
    rw [List.length_cons] at h
    obtain ⟨hstart, hend⟩ := h n le_rfl (by omega)
    rw [rowsFrom_cons, row_eq_self width raw hstart hend, ih fun m hle hlt => h m (by omega) (by omega)]

/-- Rows are dropped behind the last one that is not void. -/
theorem exists_dropVoid_eq {row : Text} (h : isVoid row = false) (before after : List Text) :
    ∃ after', dropVoid (before ++ row :: after) = before ++ row :: after' := by
  show ∃ after', (before ++ row :: after).rdropWhile isVoid = _
  induction after using List.reverseRecOn with
  | nil => exact ⟨[], List.rdropWhile_concat_neg _ _ _ (by simp [h])⟩
  | append_singleton after next ih =>
    rw [← List.cons_append, ← List.append_assoc, List.rdropWhile_concat]
    split
    · exact ih
    · exact ⟨after ++ [next], by simp⟩

theorem isVoid_eq_false {row : Text} {c : Char} (hm : c ∈ row) (hc : c ≠ '\r') : isVoid row = false := by
  unfold isVoid
  rw [List.all_eq_false]
  exact ⟨c, hm, by simpa using hc⟩

variable {s : Source} {width : Nat}

/-- The formatted text has its rows up to one that is not void. -/
theorem exists_text_eq_joinRows {before after : List Text} {row : Text}
    (h : rowsFrom s.literalSpans width 0 s.text.rows = before ++ row :: after) (hrow : isVoid row = false) :
    ∃ after', text s width = Text.joinRows (before ++ row :: after') ++ ['\n'] := by
  obtain ⟨after', hdrop⟩ := exists_dropVoid_eq hrow before after
  refine ⟨after', ?_⟩
  show close (dropVoid (rowsFrom s.literalSpans width 0 s.text.rows)) = _
  rw [h, hdrop]
  unfold close
  rw [if_neg (by simp)]

/-! ## Stretches of text -/

variable {before after : Text} {c : Char}

/-- Where a formatted text is cut within a row: the line feeds before the cut are those of the rows above. -/
theorem count_joinRows_rowsFrom {closed rest : List Text}
    (h : rowsFrom s.literalSpans width 0 s.text.rows = rowsFrom s.literalSpans width 0 closed ++ (front ++ back) :: rest) :
    (Text.joinRows (rowsFrom s.literalSpans width 0 closed ++ [front])).count '\n' = closed.length := by
  have hfeed := linefeed_notMem_rowsFrom s.literalSpans width 0 fun _ => Text.linefeed_notMem_of_mem_rows (t := s.text)
  rw [h] at hfeed
  have hclosed := fun row hm => hfeed row (List.mem_append_left _ hm)
  have hrow := hfeed _ (List.mem_append_right _ List.mem_cons_self)
  rw [(Text.joinRows_concat hclosed fun hm => hrow (List.mem_append_left _ hm)).1, length_rowsFrom]

/-- **A stretch of text** stays, and stays on its rows, if it is on the rows of a literal, begins behind the indentation
of its first row, and ends in a character that is neither a blank nor part of a line end. -/
theorem exists_text_eq {span : Span} (hspan : span ∈ s.literalSpans) (htext : s.text = before ++ (part ++ after))
    (hstart : span.start.row = before.count '\n') (hstop : span.stop.row = before.count '\n' + part.count '\n')
    (hindent : ∀ raw, s.text.rows[before.count '\n']? = some raw →
      (Text.indentation raw).length ≤ before.lastRow.length)
    (hlast : part.getLast? = some c) (hpad : isPadding c = false) (hcr : c ≠ '\r') (hlf : c ≠ '\n') (width : Nat) :
    ∃ before' after', text s width = before' ++ (part ++ after') ∧ before'.count '\n' = before.count '\n' := by
  obtain ⟨closed, back, rest, hlen, hsingle, hseveral⟩ := Text.exists_rows_between before part after
  obtain ⟨init, hinit, hpart, -⟩ := part.exists_rows_append
  rw [← htext] at hsingle hseveral
  rw [← hlen] at hstart hstop hindent ⊢
  rw [← hinit] at hstop
  have hlast' := Text.getLast?_lastRow hlast hlf
  have hend : ∃ c, part.lastRow.getLast? = some c ∧ isPadding c = false ∧ c ≠ '\r' := ⟨c, hlast', hpad, hcr⟩
  have hmem : c ∈ part.lastRow := List.mem_of_getLast? hlast'
  cases init with
  | nil =>
    have hrows := hsingle _ hpart
    have hraw : s.text.rows[closed.length]? = some (before.lastRow ++ (part.lastRow ++ back)) := by simp [hrows]
    obtain ⟨front', back', hrow, -⟩ := exists_row_eq width rfl (.inr (hindent _ hraw)) (.inr hend)
    have hfrom : rowsFrom s.literalSpans width 0 s.text.rows = rowsFrom s.literalSpans width 0 closed ++
        (front' ++ (part.lastRow ++ back')) :: rowsFrom s.literalSpans width (closed.length + 1) rest := by
      rw [hrows, rowsFrom_append, rowsFrom_cons, Nat.zero_add, hrow]
    obtain ⟨rest', hformatted⟩ := exists_text_eq_joinRows hfrom (isVoid_eq_false (by simp [hmem]) hcr)
    rw [(Text.joinRows_between part _ _ _ _).1 _ hpart, List.append_assoc, List.append_assoc] at hformatted
    exact ⟨_, _, hformatted, count_joinRows_rowsFrom hfrom⟩
  | cons first middle =>
    rw [List.length_cons] at hstop
    have hrows := hseveral _ _ _ hpart
    have hraw : s.text.rows[closed.length]? = some (before.lastRow ++ first) := by simp [hrows]
    obtain ⟨front', hfirst⟩ : ∃ front', row s.literalSpans width (before.lastRow ++ first) closed.length =
        front' ++ first :=
      exists_row_eq_of_open width (Source.isOpenRow_of_mem hspan (by omega) (by omega)) (hindent _ hraw)
    have hmiddle : rowsFrom s.literalSpans width (closed.length + 1) middle = middle :=
      rowsFrom_eq_self width fun m hle hlt => ⟨Source.isContinuedRow_of_mem hspan (by omega) (by omega),
        Source.isOpenRow_of_mem hspan (by omega) (by omega)⟩
    obtain ⟨back', hfinal⟩ : ∃ back', row s.literalSpans width (part.lastRow ++ back)
        (closed.length + 1 + middle.length) = part.lastRow ++ back' :=
      exists_row_eq_of_continued width (Source.isContinuedRow_of_mem hspan (by omega) (by omega)) hend
    have hfrom : rowsFrom s.literalSpans width 0 s.text.rows = rowsFrom s.literalSpans width 0 closed ++
        (front' ++ first) :: (middle ++ (part.lastRow ++ back') ::
          rowsFrom s.literalSpans width (closed.length + 1 + middle.length + 1) rest) := by
      rw [hrows, rowsFrom_append, rowsFrom_cons, Nat.zero_add, hfirst, rowsFrom_append, hmiddle, rowsFrom_cons, hfinal]
    have hfrom' := hfrom
    rw [← List.cons_append, ← List.append_assoc] at hfrom'
    obtain ⟨rest', hformatted⟩ := exists_text_eq_joinRows hfrom' (isVoid_eq_false (by simp [hmem]) hcr)
    rw [List.append_assoc, List.cons_append, (Text.joinRows_between part _ _ _ _).2 _ _ _ hpart, List.append_assoc,
      List.append_assoc] at hformatted
    exact ⟨_, _, hformatted, count_joinRows_rowsFrom hfrom⟩

/-- **Formatting leaves literals alone.** A literal that is not inside another, begins behind the indentation of its first
row and ends in a character that is neither a blank nor part of a line end is found again in the formatted text, at
whatever width: it begins on the same row, and the rows that it covers are all there and the same as far as they belong to
it. -/
theorem text_keeps_literal {s : Source} {n : Node} {literal : Text} {c : Char}
    (htop : Node.Topmost Node.isLiteral s.root n)
    (hslice : s.text.slice? n.label.start n.label.stop = some literal)
    (hindent : ∀ raw, s.text.rows[(s.span n).start.row]? = some raw →
      (Text.indentation raw).byteSize ≤ (s.span n).start.column)
    (hlast : literal.getLast? = some c) (hc : c ∉ [' ', '\t', '\r', '\n']) (width : Nat) :
    literal.Reappears (s.span n) s.text (text s width) := by
  obtain ⟨before, after, htext, hstart, hstop⟩ := Text.slice?_eq_some hslice
  have hspan : s.span n = ⟨s.text.pointAt before.byteSize, s.text.pointAt (before ++ literal).byteSize⟩ := by
    rw [hstart, hstop]
    rfl
  have hmem : s.span n ∈ s.literalSpans := by
    obtain ⟨cursor, hcursor, rfl⟩ := (Cursor.exists_mem_outermost_iff Node.isLiteral s.root n).mpr htop
    rw [Source.literalSpans_eq]
    exact List.mem_map_of_mem hcursor
  have hfirst : (s.span n).start = ⟨before.count '\n', before.lastRow.byteSize⟩ := by
    rw [hspan, htext, Text.pointAt_byteSize]
  have hfinal : (s.span n).stop.row = before.count '\n' + literal.count '\n' := by
    have hpoint := Text.pointAt_byteSize (before ++ literal) after
    rw [List.append_assoc, ← htext, List.count_append] at hpoint
    rw [hspan, hpoint]
  rw [hfirst] at hindent
  simp only [List.mem_cons, List.not_mem_nil, or_false, not_or] at hc
  obtain ⟨hspace, htab, hcr, hlf⟩ := hc
  have hindent' : ∀ raw, s.text.rows[before.count '\n']? = some raw →
      (Text.indentation raw).length ≤ before.lastRow.length := by
    intro raw hraw
    have hfront : before.lastRow <+: raw := by
      obtain ⟨first, hrow⟩ := Text.exists_getElem?_rows before (literal ++ after)
      rw [← htext, hraw] at hrow
      exact ⟨first, (Option.some.inj hrow).symm⟩
    exact Text.length_le_of_byteSize_le (List.takeWhile_prefix _) hfront (hindent raw hraw)
  obtain ⟨before', after', hformatted, hcount⟩ := exists_text_eq hmem htext (by rw [hfirst]) hfinal hindent' hlast
    (by simp [isPadding, hspace, htab]) hcr hlf width
  rw [hspan, hformatted, htext]
  exact Text.reappears_of_count_eq hcount

/-- An array of words over two rows. -/
def words : Node := .mk ⟨"string_array", true, false, false, 5, 16, some "right"⟩ []

/-- A source with blanks around an array of words, and in it at the end of the first row and the start of the second. -/
def paddedWords : Source where
  text := "\ts = %w[a  \r\n\tb]  \n\n".toList
  parse := .tree <| .mk ⟨"program", true, false, false, 1, 20, none⟩
    [.mk ⟨"assignment", true, false, false, 1, 16, none⟩
      [.mk ⟨"identifier", true, false, false, 1, 2, some "left"⟩ [], .mk ⟨"=", false, false, false, 3, 4, none⟩ [], words]]

/-- The blanks around the array are laid out or go, and those in it stay. -/
theorem text_keeps_literal_paddedWords :
    text paddedWords 4 = "    s = %w[a  \r\n\tb]\n".toList ∧
      Text.Reappears "%w[a  \r\n\tb]".toList ⟨⟨0, 5⟩, ⟨1, 3⟩⟩ paddedWords.text (text paddedWords 4) := by
  have htop : Node.Topmost Node.isLiteral paddedWords.root words := by
    refine ⟨by decide, .tail (.single ⟨by decide, List.mem_cons_self⟩) ⟨by decide, ?_⟩⟩
    simp [Node.children]
  have hindent : ∀ raw, paddedWords.text.rows[(paddedWords.span words).start.row]? = some raw →
      (Text.indentation raw).byteSize ≤ (paddedWords.span words).start.column := by
    intro raw hraw
    obtain rfl : "\ts = %w[a  \r".toList = raw := Option.some.inj hraw
    decide
  exact ⟨by decide, text_keeps_literal htop (by decide) hindent (c := ']') (by decide) (by decide) 4⟩

end Format

end RubyServer
