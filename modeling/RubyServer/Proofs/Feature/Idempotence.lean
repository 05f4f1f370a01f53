import RubyServer.Proofs.Feature.Layout

/-!
# Formatting twice is formatting once

A row is tidy (`Format.Tidy`) if its indentation has no tab, unless a literal began before it, and if no blank stands at
its end, unless a literal goes on after it. The formatter leaves tidy rows as they are (`Tidy.row_eq`), and what it makes
of a row is tidy, provided that no carriage return stands within the row (`tidy_row`): one that comes to stand at the end
once the blanks behind it are gone would make the blanks before it the next to go. A text of tidy rows that ends as a
formatted text does is not changed (`text_eq_self`). So formatting a formatted text changes nothing, if its literals are
where they were (`text_idempotent`).
-/

namespace RubyServer

namespace Source

/-- The literals of two sources are on the same rows: the same rows have a literal that goes on after them, and the same
rows one that began before them. -/
structure SameLiteralRows (s s' : Source) : Prop where
  isOpenRow_eq : ∀ n, isOpenRow s'.literalSpans n = isOpenRow s.literalSpans n
  isContinuedRow_eq : ∀ n, isContinuedRow s'.literalSpans n = isContinuedRow s.literalSpans n

/-- Where a literal begins and ends within its rows does not matter. -/
theorem sameLiteralRows_of_map_eq {s s' : Source}
    (h : s'.literalSpans.map (fun l => (l.start.row, l.stop.row)) =
      s.literalSpans.map fun l => (l.start.row, l.stop.row)) : s.SameLiteralRows s' := by
  have hany (p : Nat × Nat → Bool) : (s'.literalSpans.any fun l => p (l.start.row, l.stop.row)) =
      s.literalSpans.any fun l => p (l.start.row, l.stop.row) := by
    have hmap := congrArg (List.any · p) h
    simpa only [List.any_map, Function.comp_def] using hmap
  exact ⟨fun n => hany fun r => r.1 ≤ n && n < r.2, fun n => hany fun r => r.1 < n && n ≤ r.2⟩

end Source

namespace Format

variable {literals : List Span} {width n : Nat} {raw line : Text}

/-- A row with nothing for the formatter to do. -/
structure Tidy (literals : List Span) (n : Nat) (row : Text) : Prop where
  indented : Source.isContinuedRow literals n = false → '\t' ∉ Text.indentation row
  trimmed : Source.isOpenRow literals n = false →
    ∀ c, (Text.dropFinal '\r' row).getLast? = some c → isPadding c = false

/-! ## One row -/

theorem expand_eq_self (h : '\t' ∉ Text.indentation line) : expand width line = line := by
  have hspaces : (Text.indentation line).flatMap (fun c => if c = '\t' then List.replicate width ' ' else [' ']) =
      (Text.indentation line).flatMap fun c => [c] := by
    apply List.flatMap_congr
    intro c hc
    have htab : c ≠ '\t' := fun e => h (e ▸ hc)
    have hblank : isPadding c = true := List.mem_takeWhile_imp hc
    obtain rfl : c = ' ' := by simpa [isPadding, htab] using hblank
    rfl
  unfold expand
  rw [hspaces, List.flatMap_singleton']
  exact List.takeWhile_append_dropWhile

theorem tab_notMem_expand (width : Nat) (line : Text) : '\t' ∉ Text.indentation (expand width line) := by
  have hspaces := fun c => @eq_space_of_mem_expanded width (Text.indentation line) c
  unfold expand
  rw [Text.indentation, List.takeWhile_append_of_pos fun c hc => by rw [hspaces c hc]; rfl, List.mem_append, not_or]
  constructor
  · intro htab
    cases hspaces _ htab
  · -- what follows the indentation does not begin with a blank
    rw [List.takeWhile_eq_nil_iff.mpr fun hpos => List.dropWhile_get_zero_not _ _ hpos]
    exact List.not_mem_nil

/-- The last character of a line that does not end in a blank stays the last. -/
theorem isPadding_getLast?_expand {c : Char} (hline : ∀ c, line.getLast? = some c → isPadding c = false)
    (h : (expand width line).getLast? = some c) : isPadding c = false := by
  have hsplit : line.takeWhile isPadding ++ line.dropWhile isPadding = line := List.takeWhile_append_dropWhile
  by_cases hrest : line.dropWhile isPadding = []
  · -- there are only blanks, so none at all
    rw [List.dropWhile_eq_nil_iff] at hrest
    obtain rfl : line = [] := by
      by_contra hne
      have hlast := hline _ (List.getLast?_eq_some_getLast hne)
      rw [hrest _ (List.getLast_mem hne)] at hlast
      cases hlast
    cases h
  · unfold expand at h
    rw [List.getLast?_append_of_ne_nil _ hrest, ← List.getLast?_append_of_ne_nil (line.takeWhile isPadding) hrest,
      hsplit] at h
    exact hline c h

/-- A tidy row is left as it is. -/
theorem Tidy.row_eq {row : Text} (h : Tidy literals n row) (width : Nat) : Format.row literals width row n = row := by
  have hkept : kept literals row n = Text.dropFinal '\r' row := by
    unfold kept
    split
    · rfl
    · next hopen => exact Text.rdropWhile_eq_self_iff_getLast?.mpr (h.trimmed (Bool.not_eq_true _ ▸ hopen))
  have hlaidOut : laidOut literals width n (Text.dropFinal '\r' row) = Text.dropFinal '\r' row := by
    unfold laidOut
    split
    · rfl
    · next hcontinued =>
      refine expand_eq_self ?_
      rw [Text.indentation_dropFinal]
      exact h.indented (Bool.not_eq_true _ ▸ hcontinued)
  rw [row_eq_laidOut, hkept, hlaidOut, dropFinal_append_return]

/-- Without a carriage return within the row, the one at its end is all that follows what is laid out. -/
theorem dropFinal_row (h : '\r' ∉ Text.dropFinal '\r' raw) :
    Text.dropFinal '\r' (row literals width raw n) = laidOut literals width n (kept literals raw n) := by
  have hcr : '\r' ∉ laidOut literals width n (kept literals raw n) := by
    intro hm
    rcases mem_laidOut_kept hm with hspace | hline
    · cases hspace
    · exact h hline
  rw [row_eq_laidOut]
  unfold splitReturn
  split
  · simp [Text.dropFinal, Text.endsWith]
  · rw [List.append_nil]
    exact Text.dropFinal_of_getLast? fun hlast => hcr (List.mem_of_getLast? hlast)

/-- **One row.** A formatted row is tidy. -/
theorem tidy_row (h : '\r' ∉ Text.dropFinal '\r' raw) : Tidy literals n (row literals width raw n) := by
  have hrow : Text.dropFinal '\r' (row literals width raw n) = _ := dropFinal_row h
  constructor
  · intro hcontinued
    rw [← Text.indentation_dropFinal, hrow, laidOut, hcontinued]
    exact tab_notMem_expand width _
  · intro hopen c hc
    have hkept : ∀ c, (kept literals raw n).getLast? = some c → isPadding c = false := by
      rw [kept, hopen]
      exact Text.rdropWhile_eq_self_iff_getLast?.mp (List.rdropWhile_idempotent isPadding _)
    rw [hrow] at hc
    unfold laidOut at hc
    split at hc
    · exact hkept c hc
    · exact isPadding_getLast?_expand hkept hc

/-! ## All rows -/

theorem getElem?_rowsFrom (literals : List Span) (width : Nat) (raws : List Text) (n : Nat) :
    (rowsFrom literals width 0 raws)[n]? = raws[n]?.map fun raw => row literals width raw n := by
  simp [rowsFrom, List.getElem?_zipIdx, Function.comp_def]

theorem tidy_nil (literals : List Span) (n : Nat) : Tidy literals n [] :=
  ⟨fun _ => List.not_mem_nil, fun _ c hc => by cases hc⟩

/-- A text of tidy rows that ends in a line feed, if it is not empty, and in no void row is left as it is. -/
theorem text_eq_self {s : Source} {out : List Text} (hrows : s.text.rows = out ++ [[]])
    (htidy : ∀ n row, out[n]? = some row → Tidy s.literalSpans n row)
    (hlast : ∀ last, out.getLast? = some last → isVoid last = false) (width : Nat) : text s width = s.text := by
  have hfrom : rowsFrom s.literalSpans width 0 s.text.rows = out ++ [[]] := by
    apply List.ext_getElem?
    intro n
    rw [getElem?_rowsFrom, hrows]
    cases hrow : (out ++ [[]])[n]? with
    | none => rfl
    | some row =>
      have htidy' : Tidy s.literalSpans n row := by
        rw [List.getElem?_append] at hrow
        split at hrow
        · exact htidy n row hrow
        · obtain rfl : row = [] := by simpa using List.mem_of_getElem? hrow
          exact tidy_nil _ _
      rw [Option.map_some, htidy'.row_eq]
  have hdrop : dropVoid (out ++ [[]]) = out := by
    show (out ++ [[]]).rdropWhile isVoid = out
    rw [List.rdropWhile_concat_pos _ _ _ rfl, Text.rdropWhile_eq_self_iff_getLast?.mpr hlast]
  show close (dropVoid (rowsFrom s.literalSpans width 0 s.text.rows)) = s.text
  rw [hfrom, hdrop, close_eq_joinRows, ← hrows, Text.joinRows_rows]

theorem Tidy.of_sameLiteralRows {s s' : Source} {row : Text} (hsame : s.SameLiteralRows s')
    (h : Tidy s.literalSpans n row) : Tidy s'.literalSpans n row := by
  constructor
  · rw [hsame.isContinuedRow_eq]
    exact h.indented
  · rw [hsame.isOpenRow_eq]
    exact h.trimmed

/-- Where a carriage return is always followed by a line feed, there is none within a row. -/
theorem return_notMem_dropFinal {t : Text} (hcr : ∀ i < t.length, t[i]? = some '\r' → t[i + 1]? = some '\n')
    (hraw : raw ∈ t.rows) : '\r' ∉ Text.dropFinal '\r' raw := by
  intro hm
  obtain ⟨front, back, hline⟩ := List.append_of_mem hm
  have hparts : raw = front ++ '\r' :: (back ++ (splitReturn raw).2) := by
    conv_lhs => rw [← dropFinal_append_return raw, hline]
    simp
  cases hrest : back ++ (splitReturn raw).2 with
  | nil =>
    -- the row ends in the carriage return, which is then split off
    have hreturn : (splitReturn raw).2 = ['\r'] := by
      rw [hparts, hrest]
      simp [splitReturn, Text.endsWith]
    simp [hreturn] at hrest
  | cons d rest =>
    -- the row goes on, and not with a line feed
    obtain ⟨n, hn⟩ := List.mem_iff_getElem?.mp hraw
    obtain ⟨before, after, htext, -, -⟩ := Text.exists_of_getElem?_rows hn
    have hfeed := Text.linefeed_notMem_of_mem_rows hraw
    rw [hparts, hrest] at htext hfeed
    have hat : t = (before ++ front) ++ '\r' :: d :: (rest ++ after) := by simp [htext]
    have hnext := hcr (before ++ front).length (by simp [hat]) (by simp [hat])
    rw [hat, List.getElem?_append_right (Nat.le_add_right _ 1), Nat.add_sub_cancel_left] at hnext
    obtain rfl : d = '\n' := by simpa using hnext
    simp at hfeed

/-- **Formatting twice is formatting once.** Take a text in which every carriage return is followed by a line feed, and a
source with the formatted text whose literals are on the same rows. Formatting it at the same width leaves it as it is, so
there is no edit to make. -/
theorem text_idempotent {s s' : Source} (hcr : ∀ i < s.text.length, s.text[i]? = some '\r' → s.text[i + 1]? = some '\n')
    (htext : s'.text = text s width) (hsame : s.SameLiteralRows s') :
    text s' width = s'.text ∧ ∀ settings : FormatSettings, settings.indentWidth = width → edit? settings s' = none := by
  obtain ⟨out, gone, hfrom, -, hrows, -, hlast⟩ := exists_text_eq_close s width
  have htidy : ∀ n row, out[n]? = some row → Tidy s'.literalSpans n row := by
    intro n row hrow
    have hat : (rowsFrom s.literalSpans width 0 s.text.rows)[n]? = some row := by
      rw [hfrom, List.getElem?_append_left (List.getElem?_eq_some_iff.mp hrow).1, hrow]
    rw [getElem?_rowsFrom] at hat
    obtain ⟨raw, hraw, rfl⟩ := Option.map_eq_some_iff.mp hat
    have hreturn := return_notMem_dropFinal hcr (List.mem_of_getElem? hraw)
    exact (tidy_row hreturn).of_sameLiteralRows hsame
  have hfixed : text s' width = s'.text := text_eq_self (htext ▸ hrows) htidy hlast width
  refine ⟨hfixed, ?_⟩
  rintro settings rfl
  unfold edit?
  split
  · rfl
  · exact if_pos hfixed

/-- The padded words, formatted. -/
def tidyWords : Source where
  text := "    s = %w[a  \r\n\tb]\n".toList
  parse := .tree <| .mk ⟨"program", true, false, false, 4, 20, none⟩
    [.mk ⟨"assignment", true, false, false, 4, 19, none⟩
      [.mk ⟨"identifier", true, false, false, 4, 5, some "left"⟩ [], .mk ⟨"=", false, false, false, 6, 7, none⟩ [],
        .mk ⟨"string_array", true, false, false, 8, 19, some "right"⟩ []]]

/-- The tab and the blanks in the array stay also the second time. -/
theorem text_idempotent_paddedWords :
    tidyWords.text = text paddedWords 4 ∧ text tidyWords 4 = tidyWords.text ∧
      edit? { indentWidth := 4 } tidyWords = none := by
  have htext : tidyWords.text = text paddedWords 4 := by decide
  have hsame : paddedWords.SameLiteralRows tidyWords := Source.sameLiteralRows_of_map_eq (by decide)
  obtain ⟨hfixed, hedit⟩ := text_idempotent (by decide) htext hsame
  exact ⟨htext, hfixed, hedit _ rfl⟩

end Format

end RubyServer
