import RubyServer.Feature.Format
import RubyServer.Proofs.Document.Editing
import RubyServer.Proofs.Text.Places

/-!
# What a formatting edit does to the document

Formatting is one edit from the start of the text to its end, where the end is named by the last row and its size. Rows
end at line feeds only, while the lines of a document end at other characters as well: a break that closes no row
(`Document.Stray`) makes the document have more lines than rows, and the line that the edit ends on is another one than
the last row. So a formatting edit covers the document, and leaves the formatted text, exactly when no such break stands
before the last character, and the last row and its size are 32-bit words (`achieves_edit_iff`).
-/

namespace RubyServer

/-! ## Breaks that close no row -/

namespace Document

/-- A break that closes no row, with what follows it: neither an LF nor the CR of a CRLF. -/
def Stray (c : Char) (after : Text) : Prop := isBreak c = true ∧ c ≠ '\n' ∧ ¬ CutsCrlf [c] after

instance (c : Char) (after : Text) : Decidable (Stray c after) :=
  inferInstanceAs (Decidable (isBreak c = true ∧ c ≠ '\n' ∧ ¬ CutsCrlf [c] after))

/-- The number of breaks of a text that close no row. -/
def strays : Text → Nat
  | [] => 0
  | c :: t => strays t + if Stray c t then 1 else 0

variable {t u : Text} {c : Char} {ls : List Text} {last : Text}

theorem not_stray_of_not_isBreak (hc : isBreak c = false) : ¬ Stray c u := by
  rintro ⟨hb, -⟩
  rw [hc] at hb
  cases hb

theorem strays_cons (hc : Stray c t) : strays (c :: t) = strays t + 1 := by rw [strays, if_pos hc]

theorem strays_cons_of_not (hc : ¬ Stray c t) : strays (c :: t) = strays t := by rw [strays, if_neg hc, Nat.add_zero]

theorem strays_le_append (t u : Text) : strays u ≤ strays (t ++ u) := by
  induction t with
  | nil => exact le_rfl
  | cons c t ih =>
    rw [List.cons_append, strays]
    omega

theorem exists_stray (h : strays t ≠ 0) : ∃ before c after, t = before ++ c :: after ∧ Stray c after := by
  induction t with
  | nil => exact absurd rfl h
  | cons c t ih =>
    by_cases hc : Stray c t
    · exact ⟨[], c, t, rfl, hc⟩
    · rw [strays_cons_of_not hc] at h
      obtain ⟨before, c', after, rfl, hs⟩ := ih h
      exact ⟨c :: before, c', after, rfl, hs⟩

/-- The lines that end in a break are one for each row that ends in a line feed, and one for each stray break. Without
these, the last line is the last row. -/
theorem Parted.rows_eq (h : Parted t ls last) : ∃ closed row, Text.rows t = closed ++ [row] ∧
    ls.length = closed.length + strays t ∧ (strays t = 0 → row = last) := by
  induction h with
  | nil => exact ⟨[], [], rfl, rfl, fun _ => rfl⟩
  | @crlf t _ _ _ ih =>
    obtain ⟨closed, row, hrows, hlen, hrow⟩ := ih
    have hcr : ¬ Stray '\r' ('\n' :: t) := fun hs => hs.2.2 ⟨rfl, rfl⟩
    have hlf : ¬ Stray '\n' t := fun hs => hs.2.1 rfl
    refine ⟨['\r'] :: closed, row, ?_, ?_, ?_⟩
    · rw [Text.rows_cons (by decide) (Text.rows_linefeed t), hrows, List.cons_append]
    · rw [List.length_cons, List.length_cons, strays_cons_of_not hcr, strays_cons_of_not hlf]
      omega
    · rw [strays_cons_of_not hcr, strays_cons_of_not hlf]
      exact hrow
  | @brk c t _ _ hc hcut _ ih =>
    obtain ⟨closed, row, hrows, hlen, hrow⟩ := ih
    by_cases hlf : c = '\n'
    · subst hlf
      have hs : ¬ Stray '\n' t := fun hs => hs.2.1 rfl
      refine ⟨[] :: closed, row, ?_, ?_, ?_⟩
      · rw [Text.rows_linefeed, hrows, List.cons_append]
      · rw [List.length_cons, List.length_cons, strays_cons_of_not hs]
        omega
      · rw [strays_cons_of_not hs]
        exact hrow
    · have hs : Stray c t := ⟨hc, hlf, hcut⟩
      obtain ⟨closed', hrows', hlen'⟩ := Text.rows_cons_eq hlf hrows
      refine ⟨closed', _, hrows', ?_, ?_⟩
      · rw [List.length_cons, strays_cons hs]
        omega
      · rw [strays_cons hs]
        omega
  | @last c t _ hc _ ih =>
    obtain ⟨closed, row, hrows, hlen, hrow⟩ := ih
    have hlf : c ≠ '\n' := by rintro rfl; cases hc
    have hs : strays (c :: t) = strays t := strays_cons_of_not (not_stray_of_not_isBreak hc)
    obtain ⟨closed', hrows', hlen'⟩ := Text.rows_cons_eq hlf hrows
    rw [List.length_nil] at hlen
    have hnil : closed = [] := List.length_eq_zero_iff.mp (by omega)
    refine ⟨closed', _, hrows', by rw [List.length_nil]; omega, fun _ => ?_⟩
    rw [if_pos hnil, hrow (by omega)]
  | @line c t _ _ _ hc _ ih =>
    obtain ⟨closed, row, hrows, hlen, hrow⟩ := ih
    have hlf : c ≠ '\n' := by rintro rfl; cases hc
    have hs : strays (c :: t) = strays t := strays_cons_of_not (not_stray_of_not_isBreak hc)
    obtain ⟨closed', hrows', hlen'⟩ := Text.rows_cons_eq hlf hrows
    rw [List.length_cons] at hlen
    refine ⟨closed', _, hrows', by rw [List.length_cons]; omega, fun hzero => ?_⟩
    -- the line ends in a line feed, so that the character is not on the last row
    have hne : closed ≠ [] := by
      rintro rfl
      rw [List.length_nil] at hlen
      omega
    rw [if_neg hne, hrow (by omega)]

/-! ## Stray breaks at the end -/

/-- Every stray break of a text is its last character. -/
def StraysLast (t : Text) : Prop := ∀ before c after, t = before ++ c :: after → Stray c after → after = []

theorem straysLast_of_strays_eq_zero (h : strays t = 0) : StraysLast t := by
  rintro before c after rfl hc
  have hle := strays_le_append before (c :: after)
  rw [strays_cons hc] at hle
  omega

theorem stray_append_iff {x : Char} (hx : x ≠ '\n') : Stray c (u ++ [x]) ↔ Stray c u := by
  cases u with
  | nil => simp [Stray, CutsCrlf, hx]
  | cons d u => simp [Stray, CutsCrlf]

/-- Then there is none, or only the last character. -/
theorem StraysLast.cases (h : StraysLast t) :
    strays t = 0 ∨ ∃ u x, t = u ++ [x] ∧ Stray x [] ∧ strays u = 0 := by
  by_contra hno
  rw [not_or] at hno
  obtain ⟨hpos, hlast⟩ := hno
  obtain ⟨before, x, after, rfl, hx⟩ := exists_stray hpos
  obtain rfl := h before x after rfl hx
  refine hlast ⟨before, x, rfl, hx, ?_⟩
  by_contra hpos'
  obtain ⟨before', c, after', rfl, hc⟩ := exists_stray hpos'
  have hnil : after' ++ [x] = [] :=
    h before' c (after' ++ [x]) (by simp) ((stray_append_iff hx.2.1).mpr hc)
  simp at hnil

/-- A stray break that is not the last character is one of two if the last character is one. -/
theorem two_le_strays (before : Text) {after : Text} {x : Char} (hc : Stray c (after ++ [x])) (hx : Stray x []) :
    2 ≤ strays (before ++ c :: (after ++ [x])) := by
  have hx' : strays [x] = 1 := strays_cons hx
  have hafter := strays_le_append after [x]
  have hbefore := strays_le_append before (c :: (after ++ [x]))
  rw [strays_cons hc] at hbefore
  omega

theorem content_of_getLast?_ne {l : Text} (hl : l.getLast? ≠ some '\n') : content l = l :=
  if_neg (by simpa [Text.endsWith] using hl)

theorem getLast?_ne_of_content_length {l : Text} (hl : (content l).length = l.length) : l.getLast? ≠ some '\n' := by
  intro hlast
  have hpos : 0 < l.length := List.length_pos_of_mem (List.mem_of_getLast? hlast)
  have hcontent : content l = Text.dropFinal '\r' l.dropLast := if_pos (by simp [Text.endsWith, hlast])
  have hle := Text.dropFinal_length_le '\r' l.dropLast
  rw [← hcontent, hl, List.length_dropLast] at hle
  omega

/-- Where stray breaks are last, the last row is a line, and the rest of the document are the lines before it. -/
theorem StraysLast.lines_eq (h : StraysLast t) : ∃ init row rest closed, lines t = init ++ row :: rest ∧
    t = init.flatten ++ row ∧ row.getLast? ≠ some '\n' ∧ Text.rows t = closed ++ [row] ∧
    closed.length = init.length := by
  rcases h.cases with hzero | ⟨u, x, rfl, hx, hzero⟩
  · obtain ⟨ls, last, hp⟩ := exists_parted t
    obtain ⟨closed, row, hrows, hlen, hrow⟩ := hp.rows_eq
    obtain rfl := hrow hzero
    refine ⟨ls, row, [], closed, hp.lines_eq, hp.text_eq, ?_, hrows, by omega⟩
    intro hlast
    exact absurd (hp.not_isBreak_last _ (List.mem_of_getLast? hlast)) (by decide)
  · obtain ⟨ls, last, hp⟩ := exists_parted u
    obtain ⟨closed, row, hrows, hlen, hrow⟩ := hp.rows_eq
    obtain rfl := hrow hzero
    have hcut : ¬ CutsCrlf u [x] := by simp [CutsCrlf, hx.2.1]
    refine ⟨ls, row ++ [x], [[]], closed, ?_, ?_, ?_, Text.rows_concat hx.2.1 hrows, by omega⟩
    · rw [hp.lines_append hcut (lines_break hx.1 hx.2.2)]
      rfl
    · rw [hp.text_eq, List.append_assoc]
    · simp [hx.2.1]

end Document

/-! ## The end of a document -/

namespace LineIndex

/-- The number of the last row and its size are words. -/
def EndFits (index : LineIndex) : Prop :=
  index.rowCount - 1 < UInt32.size ∧ (index.row (index.rowCount - 1)).unitSize < UInt32.size

variable {t row : Text} {closed : List Text}

theorem endFits_ofText (h : t.rows = closed ++ [row]) :
    (ofText t).EndFits ↔ closed.length < UInt32.size ∧ row.unitSize < UInt32.size := by
  simp [EndFits, rowCount, ofText, LineIndex.row, h]

end LineIndex

namespace Document

variable {t : Text} {ls : List Text} {last : Text}

theorem Parted.getLast?_eq (h : Parted t ls []) {i : Nat} (hi : i < ls.length) (hlast : i + 1 = ls.length) :
    t.getLast? = ls[i].getLast? := by
  have hls : ls = ls.take i ++ [ls[i]] := by
    rw [← List.take_succ_eq_append_getElem hi, hlast, List.take_length]
  have hne : ls[i] ≠ [] := h.ne_nil _ (List.getElem_mem hi)
  rw [h.text_eq, List.append_nil]
  conv_lhs => rw [hls]
  rw [List.flatten_append, List.flatten_singleton, List.getLast?_append_of_ne_nil _ hne]

/-- If there are too many rows, or a stray break further up, the place that is found is not the end of the document. -/
theorem Parted.place_ne_length (h : Parted t ls last) {closed : List Text} (hlen : ls.length = closed.length + strays t)
    (hno : ¬ (closed.length < UInt32.size ∧ StraysLast t)) (column : Nat) {i : Nat} (hi : i < ls.length)
    (hword : i = closed.length % UInt32.size) :
    (ls.take i).flatten.length + (Text.takeUnits column (content ls[i])).length ≠ t.length := by
  intro heq
  obtain ⟨rfl, hlast, hwhole⟩ := (h.place_eq_iff hi column).mp heq
  rw [show UInt32.size = 4294967296 from rfl] at hword hno
  by_cases hrows : closed.length < 4294967296
  · -- the document ends in a stray break, so that it has two of them and one more line
    have hcontent : (content ls[i]).length = ls[i].length := by
      have hle := Text.takeUnits_length_le column (content ls[i])
      have hle' := content_length_le ls[i]
      omega
    obtain ⟨x, hx, hb⟩ := h.isBreak_getLast ls[i] (List.getElem_mem hi)
    have hlf : x ≠ '\n' := by
      rintro rfl
      exact getLast?_ne_of_content_length hcontent hx
    have hstray : ¬ StraysLast t := fun hs => hno ⟨hrows, hs⟩
    simp only [StraysLast, not_forall] at hstray
    obtain ⟨before, c, after, rfl, hc, hne⟩ := hstray
    obtain rfl | ⟨after, x', rfl⟩ := List.eq_nil_or_concat' after
    · exact hne rfl
    · rw [← h.getLast?_eq hi hlast, ← List.cons_append, ← List.append_assoc, List.getLast?_concat] at hx
      obtain rfl : x' = x := Option.some.inj hx
      have htwo := two_le_strays before hc ⟨hb, hlf, by simp [CutsCrlf]⟩
      omega
  · omega

/-- Where stray breaks are last, the end of the rows is the end of the document, unless the last row is too long. -/
theorem StraysLast.offset?_endPosition (hs : StraysLast t) {closed : List Text} {row : Text}
    (hrows : t.rows = closed ++ [row]) (hcount : closed.length < UInt32.size) :
    ∃ n ≤ t.length, offset? t (LineIndex.ofText t).endPosition = .ok n ∧
      (n = t.length ↔ row.unitSize < UInt32.size) := by
  obtain ⟨init, row', rest, closed', hlines, htext, hlf, hrows', hlen⟩ := hs.lines_eq
  obtain ⟨rfl, hrow⟩ := List.append_inj' (hrows'.symm.trans hrows) rfl
  obtain rfl : row' = row := by simpa using hrow
  have hline : (lines t)[init.length]? = some row' := by simp [hlines]
  have hoff := offset?_eq_ok hline (row'.unitSize % UInt32.size)
  rw [hlines, List.take_left, content_of_getLast?_ne hlf, ← hlen, ← Nat.mod_eq_of_lt hcount,
    ← LineIndex.endPosition_ofText hrows] at hoff
  have hlength : t.length = init.flatten.length + row'.length := by rw [← List.length_append, ← htext]
  have hle := Text.takeUnits_length_le (row'.unitSize % UInt32.size) row'
  have hmod : row'.unitSize ≤ row'.unitSize % UInt32.size ↔ row'.unitSize < UInt32.size := by
    rw [show UInt32.size = 4294967296 from rfl]
    omega
  refine ⟨_, by omega, hoff, ?_⟩
  rw [hlength, Nat.add_left_cancel_iff, Text.takeUnits_length_eq_iff, hmod]

/-- **When the end of the rows is the end of the document.** -/
theorem offset?_endPosition (t : Text) :
    ∃ n ≤ t.length, offset? t (LineIndex.ofText t).endPosition = .ok n ∧
      (n = t.length ↔ (LineIndex.ofText t).EndFits ∧ StraysLast t) := by
  obtain ⟨ls, last, hp⟩ := exists_parted t
  obtain ⟨closed, row, hrows, hlen, -⟩ := hp.rows_eq
  rw [LineIndex.endFits_ofText hrows]
  by_cases hs : closed.length < UInt32.size ∧ StraysLast t
  · obtain ⟨n, hle, hoff, hiff⟩ := hs.2.offset?_endPosition hrows hs.1
    refine ⟨n, hle, hoff, hiff.trans ?_⟩
    exact ⟨fun hrow => ⟨⟨hs.1, hrow⟩, hs.2⟩, fun h => h.1.2⟩
  · have hi : closed.length % UInt32.size < ls.length := by
      have hmod := Nat.mod_le closed.length UInt32.size
      by_cases hzero : strays t = 0
      · have hmany : ¬ closed.length < UInt32.size := fun hc => hs ⟨hc, straysLast_of_strays_eq_zero hzero⟩
        have hlt : closed.length % UInt32.size < UInt32.size := Nat.mod_lt _ (by decide)
        omega
      · omega
    have hcut : ¬ CutsCrlf t [] := by simp [CutsCrlf]
    have hoff := offset?_line hp hcut hi (row.unitSize % UInt32.size)
    rw [List.append_nil, ← LineIndex.endPosition_ofText hrows] at hoff
    refine ⟨_, hp.place_le hi _, hoff, ?_⟩
    have hne := hp.place_ne_length hlen hs (row.unitSize % UInt32.size) hi rfl
    exact ⟨fun he => absurd he hne, fun h => absurd ⟨h.1.1, h.2⟩ hs⟩

end Document

/-! ## The edit -/

/-- Whoever opens the text `t` and makes the edit at a later version is left with the text `goal`, given room for it. -/
def TextEdit.Achieves (edit : TextEdit) (t goal : Text) : Prop :=
  ∀ (s s' : Store) (item : DocumentItem) (e : DocumentEvent) (version : Int), s.openItem item = .ok (s', e) →
    item.text = t → item.version < version → Text.byteSize goal ≤ s.maxSize →
    s'.change item.uri [⟨some edit.range, edit.newText⟩] version =
      .ok (s'.put item.uri ⟨version, item.languageId, goal⟩, .changed item.uri version)

theorem Document.offset?_zero (t : Text) : offset? t .zero = .ok 0 := by
  have hcut : ¬ CutsCrlf [] t := by simp [CutsCrlf]
  exact offset?_last Parted.nil hcut

/-- An edit from the start leaves the new text and nothing else exactly when it ends at the end. -/
theorem TextEdit.achieves_iff {t new : Text} {stop : Position} {n : Nat} (hstop : Document.offset? t stop = .ok n)
    (hle : n ≤ t.length) : TextEdit.Achieves ⟨⟨.zero, stop⟩, new⟩ t new ↔ n = t.length := by
  constructor
  · intro hach
    -- with room for whatever comes out, what is left of the old text shows
    let limit := max (Text.byteSize t) (max (Text.byteSize new) (Text.byteSize (Change.splice t 0 n new)))
    let s : Store := ⟨∅, limit⟩
    have hfits : ¬ (s.put "" ⟨0, "", t⟩).maxSize < Text.byteSize (Change.splice t 0 n new) :=
      not_lt.mpr ((le_max_right _ _).trans (le_max_right _ _))
    have hopen : s.openItem ⟨"", 0, "", t⟩ = .ok (s.put "" ⟨0, "", t⟩, .opened "" 0) :=
      Store.openItem_of_fits (le_max_left _ _) (fun doc hdoc => by cases hdoc)
    have hmeant := hach s _ _ _ 1 hopen rfl Int.one_pos ((le_max_left _ _).trans (le_max_right _ _))
    have hdone : (s.put "" ⟨0, "", t⟩).change "" [⟨some ⟨.zero, stop⟩, new⟩] 1 =
        .ok ((s.put "" ⟨0, "", t⟩).put "" ⟨1, "", Change.splice t 0 n new⟩, .changed "" 1) := by
      rw [Store.change_range (Store.get?_put_self s "" _) Int.one_pos (Document.offset?_zero t) hstop,
        if_neg (Nat.not_lt_zero n), if_neg hfits]
    have hget := congrArg (fun r => (r.toOption.bind fun r => r.1.get? "").map Document.text) (hdone.symm.trans hmeant)
    simp only [Except.toOption, Option.bind_some, Store.get?_put_self, Option.map_some] at hget
    have hrest : new ++ t.drop n = new := Option.some.inj hget
    have hnil : t.drop n = [] := List.append_right_eq_self.mp hrest
    exact le_antisymm hle (List.drop_eq_nil_iff.mp hnil)
  · rintro rfl s s' item e version hopen rfl hv hsize
    obtain ⟨-, -, rfl, -⟩ := Store.openItem_eq_ok hopen
    have hsplice : Change.splice item.text 0 item.text.length new = new := by simp [Change.splice]
    rw [Store.change_range (Store.get?_put_self _ _ _) hv (Document.offset?_zero _) hstop,
      if_neg (Nat.not_lt_zero _), hsplice]
    exact if_neg (not_lt.mpr hsize)

namespace Format

/-- **When a formatting edit leaves the formatted text.** Whoever opens the text of a source and makes the edit that
formats it is left with the formatted text exactly when the last row and its size are 32-bit words, and every break of
the text is an LF, the CR of a CRLF, or the last character. -/
theorem achieves_edit_iff {settings : FormatSettings} {s : Source} {edit : TextEdit}
    (h : edit? settings s = some edit) : edit.Achieves s.text (text s settings.indentWidth) ↔
      (LineIndex.ofText s.text).EndFits ∧ Document.StraysLast s.text := by
  have hedit : edit = ⟨⟨.zero, (LineIndex.ofText s.text).endPosition⟩, text s settings.indentWidth⟩ := by
    unfold edit? at h
    split at h
    · cases h
    · simp only at h
      split at h
      · cases h
      · exact (Option.some.inj h).symm
  obtain ⟨n, hle, hstop, hiff⟩ := Document.offset?_endPosition s.text
  rw [hedit, TextEdit.achieves_iff hstop hle, hiff]

/-- A comment with blanks before the end of its row, and one without an end of row. -/
def twoComments : Source :=
  ⟨['#', ' ', 'a', ' ', '\r', '\n', '#', 'b'], .tree <| .mk ⟨"program", true, false, false, 0, 8, none⟩
    [.mk ⟨"comment", true, false, false, 0, 4, none⟩ [], .mk ⟨"comment", true, false, false, 6, 8, none⟩ []]⟩

/-- A comment with a line separator inside, and blanks before the end of its row. -/
def separatedComment : Source :=
  ⟨['#', ' ', 'a', '\u2028', 'b', ' ', ' ', '\n'], .tree <| .mk ⟨"program", true, false, false, 0, 10, none⟩
    [.mk ⟨"comment", true, false, false, 0, 9, none⟩ []]⟩

/-- Comments on rows of their own are formatted as they should be; what follows a line separator is left over. -/
theorem achieves_edit_line_separator :
    edit? {} twoComments = some ⟨⟨⟨0, 0⟩, ⟨1, 2⟩⟩, ['#', ' ', 'a', '\r', '\n', '#', 'b', '\n']⟩ ∧
    TextEdit.Achieves ⟨⟨⟨0, 0⟩, ⟨1, 2⟩⟩, ['#', ' ', 'a', '\r', '\n', '#', 'b', '\n']⟩ twoComments.text
      (text twoComments 2) ∧
    edit? {} separatedComment = some ⟨⟨⟨0, 0⟩, ⟨1, 0⟩⟩, ['#', ' ', 'a', '\u2028', 'b', '\n']⟩ ∧
    ¬ TextEdit.Achieves ⟨⟨⟨0, 0⟩, ⟨1, 0⟩⟩, ['#', ' ', 'a', '\u2028', 'b', '\n']⟩ separatedComment.text
      (text separatedComment 2) := by
  have hrows : edit? {} twoComments = some ⟨⟨⟨0, 0⟩, ⟨1, 2⟩⟩, ['#', ' ', 'a', '\r', '\n', '#', 'b', '\n']⟩ := by decide
  have hseparated : edit? {} separatedComment = some ⟨⟨⟨0, 0⟩, ⟨1, 0⟩⟩, ['#', ' ', 'a', '\u2028', 'b', '\n']⟩ := by
    decide
  have hfits : (LineIndex.ofText twoComments.text).EndFits := ⟨by decide, by decide⟩
  refine ⟨hrows, ?_, hseparated, ?_⟩
  · have hstrays : Document.strays twoComments.text = 0 := by decide
    exact (achieves_edit_iff hrows).mpr ⟨hfits, Document.straysLast_of_strays_eq_zero hstrays⟩
  · intro hach
    have hstrays := ((achieves_edit_iff hseparated).mp hach).2
    have hnil := hstrays ['#', ' ', 'a'] '\u2028' ['b', ' ', ' ', '\n'] rfl (by decide)
    cases hnil

end Format

end RubyServer
