import RubyServer.Notice
import RubyServer.Proofs.Feature.Formatting
import RubyServer.Proofs.Lint.Findings
import RubyServer.Proofs.Lint.Outcome

/-!
# Ranges that are reported lead back

The server counts rows to report a place, and lines to find it again. In a text whose lines end in LF or CRLF only
(`Document.Regular`) the two are the same up to the carriage return, which belongs to its row and not to the content of
its line: the position that is reported for a place leads back to it, save for the place inside a CRLF, which comes out
before the CRLF (`Document.offset?_position`). So a range that is reported for a node or a diagnostic replaces what it was
reported for, up to such places at its ends (`reported_range_replaces`).
-/

namespace RubyServer

/-- The point of the place before the character number `k`. -/
def Text.pointBefore (t : Text) (k : Nat) : Point := t.pointAt (byteSize (t.take k))

namespace Document

/-- A text whose lines end in LF or CRLF only. -/
structure Regular (t : Text) : Prop where
  /-- Every CR is followed by an LF. -/
  paired : ∀ before after, t = before ++ '\r' :: after → after.head? = some '\n'
  /-- No VT, FF, NEL or Unicode separator occurs. -/
  noExtra : ∀ c ∈ t, isExtraBreak c = false

/-- The place that is found for the place before the character number `k`: that place, or the one before the CRLF that it
is inside of. -/
def settled (t : Text) (k : Nat) : Nat := if CutsCrlf (t.take k) (t.drop k) then k - 1 else k

variable {t before after : Text}

/-! ## Places -/

/-- Up to a place that is not inside a CRLF, every break of a regular text closes a row. -/
theorem Regular.strays_eq_zero (h : Regular (before ++ after)) (hcut : ¬ CutsCrlf before after) : strays before = 0 := by
  by_contra hne
  obtain ⟨front, c, rest, rfl, hbreak, hlf, hcrlf⟩ := exists_stray hne
  have hextra := h.noExtra c (by simp)
  obtain rfl : c = '\r' := by simpa [isExtraBreak, hbreak, Editor.isLineEnd, hlf] using hextra
  -- the line feed that follows the CR is in `before`, unless the place is between the two
  have hnext := h.paired front (rest ++ after) (by simp)
  cases rest with
  | nil => exact hcut ⟨by simp, by simpa using hnext⟩
  | cons d rest => exact hcrlf ⟨rfl, by simpa using hnext⟩

/-- A text is regular if every break closes a row. -/
theorem regular_iff : Regular t ↔ strays t = 0 := by
  constructor
  · intro h
    rw [← List.append_nil t] at h
    exact h.strays_eq_zero (by simp [CutsCrlf])
  · intro h
    have hno : ∀ before c after, t = before ++ c :: after → ¬ Stray c after := by
      rintro before c after rfl hstray
      have hle := strays_le_append before (c :: after)
      rw [strays_cons hstray] at hle
      omega
    refine ⟨fun before after htext => ?_, fun c hc => ?_⟩
    · by_contra hnext
      exact hno _ _ _ htext ⟨rfl, by decide, fun hcut => hnext hcut.2⟩
    · by_contra hextra
      obtain ⟨hbreak, hend⟩ : isBreak c = true ∧ Editor.isLineEnd c = false := by simpa [isExtraBreak] using hextra
      obtain ⟨before, after, htext⟩ := List.append_of_mem hc
      refine hno _ _ _ htext ⟨hbreak, ?_, ?_⟩
      · rintro rfl
        cases hend
      · rintro ⟨hcr, -⟩
        obtain rfl : c = '\r' := by simpa using hcr
        cases hend

/-- Up to a place, the lines of a regular text are its rows. -/
theorem Regular.exists_parted (h : Regular (before ++ after)) (hcut : ¬ CutsCrlf before after) :
    ∃ ls, Parted before ls before.lastRow ∧ ls.length = before.count '\n' := by
  obtain ⟨ls, last, hparted⟩ := Document.exists_parted before
  obtain ⟨closed, row, hrows, hlen, hrow⟩ := hparted.rows_eq
  obtain ⟨closed', hlen', hrows', -⟩ := before.exists_rows_append
  obtain ⟨rfl, hlast⟩ := List.append_inj' (hrows'.symm.trans hrows) rfl
  have hstrays := h.strays_eq_zero hcut
  obtain rfl : before.lastRow = last := by
    rw [← hrow hstrays]
    simpa using hlast
  exact ⟨ls, hparted, by omega⟩

theorem content_crlf (line : Text) : content (line ++ ['\r', '\n']) = line := by
  have hlf : Text.endsWith '\n' (line ++ ['\r', '\n']) = true := by simp [Text.endsWith]
  have hcr : Text.endsWith '\r' (line ++ ['\r']) = true := by simp [Text.endsWith]
  rw [content, if_pos hlf, List.dropLast_append_of_ne_nil (by simp), Text.dropFinal]
  simp [hcr]

/-- A column inside a CRLF is past the end of the content of its line. -/
theorem offset?_crlf {front rest : Text} (h : Regular (front ++ '\r' :: '\n' :: rest)) :
    offset? (front ++ '\r' :: '\n' :: rest) ⟨front.count '\n', (front.lastRow ++ ['\r']).unitSize⟩ = .ok front.length := by
  have hcut : ¬ CutsCrlf front ('\r' :: '\n' :: rest) := by simp [CutsCrlf]
  obtain ⟨ls, hparted, hlen⟩ := h.exists_parted hcut
  have hlines := hparted.lines_append hcut (by rw [lines])
  have hline : (lines (front ++ '\r' :: '\n' :: rest))[ls.length]? = some (front.lastRow ++ ['\r', '\n']) := by
    simp [hlines]
  have hwhole : (Text.takeUnits (front.lastRow ++ ['\r']).unitSize front.lastRow).length = front.lastRow.length := by
    rw [Text.takeUnits_length_eq_iff, Text.unitSize_append]
    exact Nat.le_add_right _ _
  rw [← hlen, offset?_eq_ok hline, content_crlf, hwhole, hlines, List.take_left, ← List.length_append, ← hparted.text_eq]

/-- **Where a reported position leads.** The row of a place is its line, and the CR counts for a column that the line does
not have. -/
theorem offset?_position (hsize : (before ++ after).byteSize < UInt32.size) (h : Regular (before ++ after)) :
    offset? (before ++ after)
        ((LineIndex.ofText (before ++ after)).position (Text.pointAt (before ++ after) before.byteSize)) =
      .ok (if CutsCrlf before after then before.length - 1 else before.length) := by
  rw [LineIndex.position_pointAt hsize]
  split
  · next hcut =>
    obtain ⟨front, rfl⟩ := List.getLast?_eq_some_iff.mp hcut.1
    obtain ⟨rest, rfl⟩ := List.head?_eq_some_iff.mp hcut.2
    rw [List.append_assoc] at h ⊢
    rw [Text.lastRow_append (by decide), List.count_append, List.length_append]
    exact offset?_crlf h
  · next hcut =>
    obtain ⟨ls, hparted, hlen⟩ := h.exists_parted hcut
    rw [← hlen]
    exact offset?_last hparted hcut

theorem offset?_pointBefore (hsize : t.byteSize < UInt32.size) (h : Regular t) {k : Nat} (hk : k ≤ t.length) :
    offset? t ((LineIndex.ofText t).position (t.pointBefore k)) = .ok (settled t k) := by
  have htext : t.take k ++ t.drop k = t := List.take_append_drop k t
  rw [← htext] at hsize h
  have hoffset := offset?_position hsize h
  rwa [htext, List.length_take, Nat.min_eq_left hk] at hoffset

theorem settled_mono (t : Text) {a b : Nat} (h : a ≤ b) : settled t a ≤ settled t b := by
  rcases h.eq_or_lt with rfl | hlt
  · exact le_rfl
  · unfold settled
    split <;> split <;> omega

end Document

/-! ## Stretches -/

/-- A span is the stretch of a text from the character number `a` up to the character number `b`. -/
structure Span.Covers (span : Span) (t : Text) (a b : Nat) : Prop where
  ordered : a ≤ b
  inside : b ≤ t.length
  start : span.start = t.pointBefore a
  stop : span.stop = t.pointBefore b

/-- Whoever has the text `t` open and edits a range replaces the stretch from `a` up to `b`: the change succeeds for every
new text that fits and every later version. -/
def Range.Replaces (range : Range) (t : Text) (a b : Nat) : Prop :=
  ∀ (s : Store) (uri : Uri) (doc : Document) (new : Text) (version : Int), s.get? uri = some doc → doc.text = t →
    doc.version < version → Text.byteSize (t.take a ++ new ++ t.drop b) ≤ s.maxSize →
    s.change uri [⟨some range, new⟩] version =
      .ok (s.put uri { doc with version := version, text := t.take a ++ new ++ t.drop b }, .changed uri version)

section Stretches

variable {t : Text} {span : Span} {a b : Nat}

/-- A range replaces what its ends lead to. -/
theorem Range.replaces_of_offset? {range : Range} (hstart : Document.offset? t range.start = .ok a)
    (hstop : Document.offset? t range.stop = .ok b) (hab : a ≤ b) : range.Replaces t a b := by
  rintro s uri doc new version hdoc rfl hversion hsize
  rw [Store.change_range hdoc hversion hstart hstop, if_neg (not_lt.mpr hab)]
  exact if_neg (not_lt.mpr hsize)

/-- A range ends at one place. -/
theorem Range.Replaces.stop_unique {range : Range} {b' : Nat} (h : range.Replaces t a b) (h' : range.Replaces t a b')
    (hb : b ≤ t.length) (hb' : b' ≤ t.length) : b = b' := by
  -- taking the stretch away leaves what is behind it
  let limit := max (Text.byteSize (t.take a ++ [] ++ t.drop b)) (Text.byteSize (t.take a ++ [] ++ t.drop b'))
  let s : Store := Store.put ⟨∅, limit⟩ "" ⟨0, "", t⟩
  have hdoc : s.get? "" = some ⟨0, "", t⟩ := Store.get?_put_self _ _ _
  have hdone := h s "" _ [] 1 hdoc rfl Int.one_pos (le_max_left _ _)
  have hdone' := h' s "" _ [] 1 hdoc rfl Int.one_pos (le_max_right _ _)
  have hget := congrArg (fun r => (r.toOption.bind fun r => r.1.get? "").map Document.text) (hdone.symm.trans hdone')
  simp only [Except.toOption, Option.bind_some, Store.get?_put_self, Option.map_some, Option.some.injEq] at hget
  have hlen := congrArg List.length (List.append_cancel_left hget)
  rw [List.length_drop, List.length_drop] at hlen
  omega

/-- The range of a stretch replaces it, up to places inside a CRLF. -/
theorem Span.Covers.replaces (hsize : t.byteSize < UInt32.size) (hregular : Document.Regular t)
    (h : span.Covers t a b) :
    ((LineIndex.ofText t).range span).Replaces t (Document.settled t a) (Document.settled t b) := by
  have hstart := Document.offset?_pointBefore hsize hregular (h.ordered.trans h.inside)
  have hstop := Document.offset?_pointBefore hsize hregular h.inside
  rw [← h.start] at hstart
  rw [← h.stop] at hstop
  exact Range.replaces_of_offset? hstart hstop (Document.settled_mono t h.ordered)

/-- A stretch given by what stands around it. -/
theorem Span.covers_append (before part after : Text) :
    Span.Covers ⟨⟨before.count '\n', before.lastRow.byteSize⟩,
      ⟨(before ++ part).count '\n', (before ++ part).lastRow.byteSize⟩⟩ (before ++ (part ++ after)) before.length
        (before ++ part).length := by
  refine ⟨by simp, by simp, ?_, ?_⟩
  · rw [Text.pointBefore, List.take_left, Text.pointAt_byteSize]
  · rw [Text.pointBefore, ← List.append_assoc, List.take_left, Text.pointAt_byteSize]

end Stretches

/-! ## What is reported -/

variable {s : Source} {span : Span}

/-- The nodes of a source are stretches of its text. -/
def Source.Sliced (s : Source) : Prop :=
  ∀ n ∈ s.root.preorder, ∃ part, s.text.slice? n.label.start n.label.stop = some part

theorem Source.exists_covers_of_slice? {n : Node} {part : Text}
    (h : s.text.slice? n.label.start n.label.stop = some part) : ∃ a b, (s.span n).Covers s.text a b := by
  obtain ⟨before, after, htext, hstart, hstop⟩ := Text.slice?_eq_some h
  have hcovers := Span.covers_append before part after
  rw [← Text.pointAt_byteSize before (part ++ after), ← Text.pointAt_byteSize (before ++ part) after, List.append_assoc,
    ← htext, hstart, hstop] at hcovers
  exact ⟨_, _, hcovers⟩

/-- A line stands in the text, behind the line feeds of the rows above. -/
theorem Source.exists_of_line? {row : Nat} {line : Text} (h : s.line? row = some line) :
    ∃ before after, s.text = before ++ (line ++ after) ∧ before.count '\n' = row ∧ before.lastRow = [] ∧
      '\n' ∉ line := by
  unfold Source.line? Text.lines at h
  rw [Text.getElem?_linesOfRows] at h
  obtain ⟨raw, hraw, hline⟩ := Option.bind_eq_some_iff.mp h
  have hprefix : ∃ ending, raw = line ++ ending := by
    split at hline
    · split at hline
      · cases hline
      · cases hline
        exact ⟨[], (List.append_nil _).symm⟩
    · cases hline
      exact ⟨_, (Format.dropFinal_append_return raw).symm⟩
  obtain ⟨ending, rfl⟩ := hprefix
  obtain ⟨before, after, htext, hcount, hlast⟩ := Text.exists_of_getElem?_rows hraw
  refine ⟨before, ending ++ after, by rw [htext, List.append_assoc], hcount, hlast, fun hm => ?_⟩
  exact Text.linefeed_notMem_of_mem_rows (List.mem_of_getElem? hraw) (List.mem_append_left _ hm)

/-- A stretch of a line is a stretch of the text. -/
theorem Source.exists_covers_of_line? {row : Nat} {front part rest : Text}
    (h : s.line? row = some (front ++ (part ++ rest))) :
    ∃ a b, (Span.onRow row front.byteSize (front ++ part).byteSize).Covers s.text a b := by
  obtain ⟨before, after, htext, rfl, hlast, hfeed⟩ := Source.exists_of_line? h
  simp only [List.mem_append, not_or] at hfeed
  have hfront : '\n' ∉ front ++ part := by simp [hfeed]
  have hcovers := Span.covers_append (before ++ front) part (rest ++ after)
  rw [List.append_assoc before front part, Text.lastRow_append hfeed.1, Text.lastRow_append hfront, hlast,
    List.count_append, List.count_append, List.count_eq_zero.mpr hfeed.1, List.count_eq_zero.mpr hfront] at hcovers
  simp only [List.append_assoc] at hcovers htext
  rw [← htext] at hcovers
  exact ⟨_, _, hcovers⟩

/-- What rules report are stretches of the text. -/
theorem Source.Reportable.exists_covers (hsliced : s.Sliced) (h : s.Reportable span) :
    ∃ a b, span.Covers s.text a b := by
  cases h with
  | node hn =>
    obtain ⟨part, hslice⟩ := hsliced _ hn
    exact Source.exists_covers_of_slice? hslice
  | line hline => exact Source.exists_covers_of_line? hline

/-- What a run of the standard rules reports is at the start of the text, or where its rules find something. -/
theorem Lint.span_of_mem_run {c : LintConfig} {found : List Diagnostic} (h : Lint.run c Rule.standard s = .ok found)
    {d : Diagnostic} (hd : d ∈ found) : d.span = .zero ∨ s.Reportable d.span := by
  rcases Lint.mem_run h hd with rfl | ⟨r, hr, l, hcheck, d', hd', -, hspan⟩
  · exact .inl rfl
  · obtain ⟨l', hcheck', hfinds⟩ := Rule.finds_of_mem_standard hr c.maxLineLength s
    obtain rfl := Except.ok.inj (hcheck.symm.trans hcheck')
    rw [hspan]
    exact .inr (hfinds d' hd').2

/-- What is diagnosed are stretches of the text. -/
theorem Settings.exists_covers_of_diagnose {settings : Settings} {found : List Diagnostic} (hsliced : s.Sliced)
    (h : settings.diagnose s = .ok found) {d : Diagnostic} (hd : d ∈ found) : ∃ a b, d.span.Covers s.text a b := by
  unfold Settings.diagnose at h
  split at h
  · rcases Lint.span_of_mem_run h hd with hzero | hreportable
    · rw [hzero]
      exact ⟨_, _, Span.covers_append [] [] s.text⟩
    · exact hreportable.exists_covers hsliced
  · obtain rfl := Except.ok.inj h
    cases hd

/-- **Ranges that are reported lead back.** In a text of less than 2^32 bytes whose lines end in LF or CRLF only, the
position that is reported for a place leads back to it, unless it is inside a CRLF; then it leads to the place before the
CRLF. So the range of a node or a diagnostic, when it is edited, replaces what it covers, except that an end inside a CRLF
is taken for the place before it. -/
theorem reported_range_replaces (hsize : s.text.byteSize < UInt32.size) (hregular : Document.Regular s.text) :
    (∀ k ≤ s.text.length, ¬ Document.CutsCrlf (s.text.take k) (s.text.drop k) →
      Document.offset? s.text ((LineIndex.ofText s.text).position (s.text.pointBefore k)) = .ok k) ∧
    (∀ k ≤ s.text.length, Document.CutsCrlf (s.text.take k) (s.text.drop k) →
      Document.offset? s.text ((LineIndex.ofText s.text).position (s.text.pointBefore k)) = .ok (k - 1)) ∧
    (∀ n part, s.text.slice? n.label.start n.label.stop = some part → ∃ a b, (s.span n).Covers s.text a b ∧
      ((LineIndex.ofText s.text).range (s.span n)).Replaces s.text (Document.settled s.text a)
        (Document.settled s.text b)) ∧
    (s.Sliced → ∀ settings found, Settings.diagnose settings s = .ok found → ∀ d ∈ found, ∃ a b,
      d.span.Covers s.text a b ∧
        (Notice.ofDiagnostic (LineIndex.ofText s.text) d).range.Replaces s.text (Document.settled s.text a)
          (Document.settled s.text b)) := by
  refine ⟨fun k hk hcut => ?_, fun k hk hcut => ?_, fun n part hslice => ?_, fun hsliced settings found hfound d hd => ?_⟩
  · rw [Document.offset?_pointBefore hsize hregular hk, Document.settled, if_neg hcut]
  · rw [Document.offset?_pointBefore hsize hregular hk, Document.settled, if_pos hcut]
  · obtain ⟨a, b, hcovers⟩ := Source.exists_covers_of_slice? hslice
    exact ⟨a, b, hcovers, hcovers.replaces hsize hregular⟩
  · obtain ⟨a, b, hcovers⟩ := Settings.exists_covers_of_diagnose hsliced hfound hd
    exact ⟨a, b, hcovers, hcovers.replaces hsize hregular⟩

/-- A block comment whose end is broken in two by a comment that ends in a CR. The parser finds an error that ends between
the CR and the LF at the end of the text. -/
def brokenComment : Source where
  text :=
    ['=', 'b', 'e', 'g', 'i', 'n', '\r', '\n',
      'b', 'l', 'o', 'c', 'k', ' ', 'c', 'o', 'm', 'm', 'e', 'n', 't', '\r', '\n',
      ' ', ' ', 'm', 'o', 'r', 'e', ' ', ' ', '\r', '\n',
      '\t', 't', 'a', 'b', '\r', '\n',
      '=', 'e', '#', ' ', 'k', '\r', '\n',
      'n', 'd', '\r', '\n',
      'x', ' ', '=', ' ', '1', '\r', '\n']
  parse := .tree <|
    let leaf (kind : String) (start stop : Nat) (field : Option String) : Node :=
      .mk ⟨kind, true, false, false, start, stop, field⟩ []
    let token (kind : String) (start stop : Nat) : Node := .mk ⟨kind, false, false, false, start, stop, none⟩ []
    .mk ⟨"program", true, false, false, 0, 57, none⟩
      [.mk ⟨"ERROR", true, true, false, 0, 56, none⟩
        [token "=" 0 1, token "begin" 1 6,
          .mk ⟨"call", true, false, false, 8, 21, none⟩
            [leaf "identifier" 8 13 (some "method"),
              .mk ⟨"argument_list", true, false, false, 14, 21, some "arguments"⟩ [leaf "identifier" 14 21 none]],
          leaf "identifier" 25 29 none, leaf "identifier" 34 37 none,
          .mk ⟨"ERROR", true, true, false, 39, 40, none⟩ [token "=" 39 40],
          leaf "identifier" 40 41 none, leaf "comment" 41 45 none, leaf "identifier" 46 48 none,
          .mk ⟨"assignment", true, false, false, 50, 55, none⟩
            [leaf "identifier" 50 51 (some "left"), token "=" 52 53, leaf "integer" 54 55 (some "right")]]]

theorem byteSize_brokenComment : brokenComment.text.byteSize < UInt32.size := by decide

theorem sliced_brokenComment : brokenComment.Sliced := by
  have hslices : ∀ n ∈ brokenComment.root.preorder,
      (brokenComment.text.slice? n.label.start n.label.stop).isSome = true := by decide
  exact fun n hn => Option.isSome_iff_exists.mp (hslices n hn)

theorem regular_brokenComment : Document.Regular brokenComment.text := Document.regular_iff.mpr (by decide)

/-- What is reported: the error, the blanks at the end of the third row, and the tab at the start of the fourth. -/
theorem diagnose_brokenComment : ∃ found, Settings.diagnose {} brokenComment = .ok found ∧
    found.map Diagnostic.span = [⟨⟨0, 0⟩, ⟨6, 6⟩⟩, .onRow 2 6 8, .onRow 3 0 1] := by
  have hspans : (Settings.diagnose {} brokenComment).toOption.map (List.map Diagnostic.span) =
      some [⟨⟨0, 0⟩, ⟨6, 6⟩⟩, .onRow 2 6 8, .onRow 3 0 1] := by decide +kernel
  cases hrun : Settings.diagnose {} brokenComment with
  | error e =>
    rw [hrun] at hspans
    cases hspans
  | ok found =>
    rw [hrun] at hspans
    exact ⟨found, rfl, Option.some.inj hspans⟩

/-- The blanks at the end of the third row are replaced as they are; the end of the error comes out before the CR. -/
theorem reported_range_replaces_brokenComment :
    (∃ found, Settings.diagnose {} brokenComment = .ok found ∧ ∃ d ∈ found, d.span = .onRow 2 6 8 ∧
      ∃ a b, d.span.Covers brokenComment.text a b ∧
        (Notice.ofDiagnostic (LineIndex.ofText brokenComment.text) d).range.Replaces brokenComment.text
          (Document.settled brokenComment.text a) (Document.settled brokenComment.text b)) ∧
    Document.offset? brokenComment.text ⟨7, 0⟩ = .ok 57 ∧ Document.offset? brokenComment.text ⟨6, 6⟩ = .ok 55 := by
  obtain ⟨hplace, hinside, -, hdiagnostics⟩ := reported_range_replaces byteSize_brokenComment regular_brokenComment
  obtain ⟨found, hfound, hspans⟩ := diagnose_brokenComment
  have hend : (LineIndex.ofText brokenComment.text).position (brokenComment.text.pointBefore 57) = ⟨7, 0⟩ := by
    decide +kernel
  have hlast : (LineIndex.ofText brokenComment.text).position (brokenComment.text.pointBefore 56) = ⟨6, 6⟩ := by
    decide +kernel
  have hfiftySeven := hplace 57 (by decide) (by decide)
  have hfiftySix := hinside 56 (by decide) (by decide)
  rw [hend] at hfiftySeven
  rw [hlast] at hfiftySix
  refine ⟨⟨found, hfound, ?_⟩, hfiftySeven, hfiftySix⟩
  have hmem : Span.onRow 2 6 8 ∈ found.map Diagnostic.span := by simp [hspans]
  obtain ⟨d, hd, hspan⟩ := List.mem_map.mp hmem
  exact ⟨d, hd, hspan, hdiagnostics sliced_brokenComment _ found hfound d hd⟩

/-- The range that is reported for the error covers the text up to the CR before its last LF, that one included, and does
not replace this stretch: the CR is left. -/
theorem reported_range_inside_crlf :
    brokenComment.text.byteSize < UInt32.size ∧ Document.Regular brokenComment.text ∧ brokenComment.Sliced ∧
    ∃ found, Settings.diagnose {} brokenComment = .ok found ∧ ∃ d ∈ found, d.span.Covers brokenComment.text 0 56 ∧
      ¬ (Notice.ofDiagnostic (LineIndex.ofText brokenComment.text) d).range.Replaces brokenComment.text 0 56 := by
  obtain ⟨found, hfound, hspans⟩ := diagnose_brokenComment
  refine ⟨byteSize_brokenComment, regular_brokenComment, sliced_brokenComment, found, hfound, ?_⟩
  have hmem : ⟨⟨0, 0⟩, ⟨6, 6⟩⟩ ∈ found.map Diagnostic.span := by simp [hspans]
  obtain ⟨d, hd, hspan⟩ := List.mem_map.mp hmem
  have hcovers : d.span.Covers brokenComment.text 0 56 := by
    rw [hspan]
    exact ⟨by decide, by decide, by decide, by decide +kernel⟩
  refine ⟨d, hd, hcovers, fun hreplaces => ?_⟩
  have hsettled : Document.settled brokenComment.text 56 = 55 := by decide
  have hbefore := hcovers.replaces byteSize_brokenComment regular_brokenComment
  rw [hsettled] at hbefore
  have hstop : 56 = 55 := hreplaces.stop_unique hbefore (by decide) (by decide)
  cases hstop

end RubyServer
