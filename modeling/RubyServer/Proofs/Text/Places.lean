import RubyServer.Position
import RubyServer.Proofs.Text.Columns
import RubyServer.Proofs.Text.Rows

/-!
# Points and positions name the same places

A place between two characters of a text is known by its byte offset, by its point (the line feeds before it and the bytes
since the last of them, `pointAt_byteSize`) and by its position (the same with code units, `position_pointAt`). In a text
of less than 2^32 bytes all numbers fit their words, and nothing is lost on the way from points to positions: they lead
back to the point they came from (`point_position`), keep the order of places (`position_lt`), and end where the text ends
(`position_end`).
-/

namespace RubyServer

theorem Point.lt_iff {p q : Point} : p < q ↔ p.row < q.row ∨ p.row = q.row ∧ p.column < q.column := Iff.rfl

theorem Point.le_iff {p q : Point} : p ≤ q ↔ p.row < q.row ∨ p.row = q.row ∧ p.column ≤ q.column := Iff.rfl

theorem Position.lt_irrefl (p : Position) : ¬ p < p := by
  intro h
  rcases (show _ ∨ _ from h) with h | h <;> omega

theorem Position.le_trans {p q r : Position} (hpq : p ≤ q) (hqr : q ≤ r) : p ≤ r := by
  rcases (show _ ∨ _ from hpq) with h | h <;> rcases (show _ ∨ _ from hqr) with h' | h' <;>
    show _ ∨ _ <;> omega

namespace Text

/-- A boundary between characters of a text, or one of its ends, as a byte offset. -/
def IsBoundary (t : Text) (n : Nat) : Prop := ∃ before after : Text, t = before ++ after ∧ before.byteSize = n

theorem isBoundary_iff {t : Text} {n : Nat} : t.IsBoundary n ↔ (t.takeBytes n).byteSize = n := by
  constructor
  · rintro ⟨before, after, rfl, rfl⟩
    rw [takeBytes_append]
  · intro h
    obtain ⟨after, hafter⟩ := (takeBytes_longest n t).isPrefix
    exact ⟨_, after, hafter.symm, h⟩

instance (t : Text) (n : Nat) : Decidable (t.IsBoundary n) := decidable_of_iff' _ isBoundary_iff

/-- The point of an offset up to the end of the character behind a boundary: the line feeds before it, and the bytes since
the last of them. -/
theorem pointAt_add {k : Nat} {after : Text} (hk : ∀ c, after.head? = some c → k < c.utf8Size) (before : Text) :
    pointAt (before ++ after) (before.byteSize + k) = ⟨before.count '\n', (lastRow before).byteSize + k⟩ := by
  induction before with
  | nil =>
    have hstart : pointAt after k = ⟨0, k⟩ := by
      cases after with
      | nil => rfl
      | cons c after => exact if_pos (hk c rfl)
    have hsize : byteSize [] + k = k := Nat.zero_add k
    rw [List.nil_append, hsize, hstart]
    exact congrArg (Point.mk 0) hsize.symm
  | cons c before ih =>
    rw [List.cons_append, byteSize, pointAt, if_neg (by omega), Nat.add_assoc, Nat.add_sub_cancel_left, ih, lastRow_cons]
    simp only
    by_cases hc : c = '\n'
    · subst hc
      simp
    · rw [if_neg hc, List.count_cons_of_ne hc]
      by_cases hm : '\n' ∈ before
      · have hpos : before.count '\n' ≠ 0 := (List.count_pos_iff.mpr hm).ne'
        rw [if_neg hpos, if_neg fun h => h.2 hm]
      · have hzero : before.count '\n' = 0 := List.count_eq_zero.mpr hm
        rw [if_pos hzero, if_pos ⟨hc, hm⟩, lastRow_of_notMem hm, hzero, byteSize, Nat.add_assoc]

/-- The point of a boundary: the line feeds before it, and the bytes since the last of them. -/
theorem pointAt_byteSize (before after : Text) :
    pointAt (before ++ after) before.byteSize = ⟨before.count '\n', (lastRow before).byteSize⟩ :=
  pointAt_add (fun c _ => c.utf8Size_pos) before

theorem pointAt_lt {t : Text} {m n : Nat} (h : m < n) : t.pointAt m < t.pointAt n := by
  induction t generalizing m n with
  | nil => exact Or.inr ⟨rfl, h⟩
  | cons c t ih =>
    simp only [pointAt, Point.lt_iff]
    by_cases hm : m < c.utf8Size
    · -- the second point is in the same character, behind it on the same row, or further down
      rw [if_pos hm]
      split_ifs <;> dsimp only <;> omega
    · have hn : ¬ n < c.utf8Size := by omega
      have hrest := Point.lt_iff.mp (ih (m := m - c.utf8Size) (n := n - c.utf8Size) (by omega))
      rw [if_neg hm, if_neg hn]
      grind

/-- Points are in the order of their offsets. -/
theorem pointAt_le_iff {t : Text} {m n : Nat} : t.pointAt m ≤ t.pointAt n ↔ m ≤ n := by
  rw [Point.le_iff]
  rcases Nat.lt_trichotomy m n with h | rfl | h
  · have hlt := Point.lt_iff.mp (pointAt_lt (t := t) h)
    omega
  · simp
  · have hlt := Point.lt_iff.mp (pointAt_lt (t := t) h)
    omega

theorem pointAt_lt_iff {t : Text} {m n : Nat} : t.pointAt m < t.pointAt n ↔ m < n := by
  rw [← Nat.not_le, ← pointAt_le_iff (t := t), Point.lt_iff, Point.le_iff]
  omega

theorem pointAt_inj {t : Text} {m n : Nat} : t.pointAt m = t.pointAt n ↔ m = n := by
  refine ⟨fun h => ?_, congrArg _⟩
  have hle : t.pointAt m ≤ t.pointAt n := h ▸ pointAt_le_iff.mpr (Nat.le_refl _)
  have hge : t.pointAt n ≤ t.pointAt m := h ▸ pointAt_le_iff.mpr (Nat.le_refl _)
  exact Nat.le_antisymm (pointAt_le_iff.mp hle) (pointAt_le_iff.mp hge)

/-- No offset is further down than the last row. -/
theorem row_pointAt_le (t : Text) (n : Nat) : (t.pointAt n).row ≤ t.count '\n' := by
  obtain ⟨after, k, htext, hoffset, hk⟩ := t.exists_offset_eq n
  have hpoint := pointAt_add hk (t.takeBytes n)
  rw [← htext, ← hoffset] at hpoint
  have hcount := congrArg (List.count '\n') htext
  rw [List.count_append] at hcount
  rw [hpoint, hcount]
  exact Nat.le_add_right _ _

end Text

namespace LineIndex

variable {t before after row : Text} {closed : List Text} {m n : Nat}

/-! ## Rows and words -/

theorem endPosition_ofText (h : t.rows = closed ++ [row]) :
    (ofText t).endPosition = ⟨closed.length % UInt32.size, row.unitSize % UInt32.size⟩ := by
  simp [endPosition, ofText, LineIndex.row, lineWord, columnWord, h]

/-- The row of a boundary goes on from the text before it, with what comes first behind it. -/
theorem row_ofText (before after : Text) :
    ∃ first, first <+: after ∧ (ofText (before ++ after)).row (before.count '\n') = before.lastRow ++ first := by
  obtain ⟨closed, hlen, -, happend⟩ := before.exists_rows_append
  obtain ⟨first, rest, hafter⟩ := List.exists_cons_of_ne_nil (Text.split_ne_nil '\n' after)
  refine ⟨first, Text.isPrefix_of_rows_eq hafter, ?_⟩
  simp [ofText, LineIndex.row, happend after first rest hafter, ← hlen]

theorem columnWord_unitColumn {line : Text} (h : line.byteSize < UInt32.size) (column : Nat) :
    columnWord (line.unitColumn column) = line.unitColumn column := by
  have hunits := (line.takeBytes column).unitSize_le_byteSize
  have hbytes := Text.byteSize_le_of_isPrefix (Text.takeBytes_longest column line).isPrefix
  exact Nat.mod_eq_of_lt (Nat.lt_of_le_of_lt (hunits.trans hbytes) h)

/-- In a small text the numbers of a place are words. -/
theorem words_of_small (h : (before ++ after).byteSize < UInt32.size) :
    before.count '\n' < UInt32.size ∧ before.lastRow.unitSize < UInt32.size := by
  have hsize : before.byteSize < UInt32.size := by
    rw [Text.byteSize_append] at h
    omega
  constructor
  · have hcount : before.count '\n' ≤ before.length := List.count_le_length
    have hlength := before.length_le_byteSize
    omega
  · obtain ⟨front, hfront⟩ := before.lastRow_suffix
    have hbytes : before.byteSize = front.byteSize + before.lastRow.byteSize := by
      rw [← Text.byteSize_append, ← hfront]
    have hunits := before.lastRow.unitSize_le_byteSize
    omega

/-! ## Places in a small text -/

/-- The position of an offset up to the end of the character behind a boundary: the line feeds before it, and the code
units of the whole characters since the last of them. -/
theorem position_pointAt_add {k : Nat} (h : (before ++ after).byteSize < UInt32.size)
    (hk : ∀ c, after.head? = some c → k < c.utf8Size) :
    (ofText (before ++ after)).position (Text.pointAt (before ++ after) (before.byteSize + k)) =
      ⟨before.count '\n', before.lastRow.unitSize⟩ := by
  obtain ⟨hline, hcharacter⟩ := words_of_small h
  obtain ⟨first, hfirst, hrow⟩ := row_ofText before after
  have hk' : ∀ c, first.head? = some c → k < c.utf8Size := by
    intro c hc
    obtain ⟨rest, rfl⟩ := List.head?_eq_some_iff.mp hc
    obtain ⟨rest', rfl⟩ := hfirst
    exact hk c rfl
  rw [Text.pointAt_add hk, position, hrow, Text.unitColumn, Text.takeBytes_append_add hk']
  exact congrArg₂ Position.mk (Nat.mod_eq_of_lt hline) (Nat.mod_eq_of_lt hcharacter)

/-- The position of a boundary: the line feeds before it, and the code units since the last of them. -/
theorem position_pointAt (h : (before ++ after).byteSize < UInt32.size) :
    (ofText (before ++ after)).position (Text.pointAt (before ++ after) before.byteSize) =
      ⟨before.count '\n', before.lastRow.unitSize⟩ :=
  position_pointAt_add h fun c _ => c.utf8Size_pos

/-- The position of any offset is that of the end of the whole characters before it; one past the end of the text has the
position of the end. -/
theorem position_pointAt_takeBytes (h : t.byteSize < UInt32.size) (n : Nat) :
    (ofText t).position (t.pointAt n) = ⟨(t.takeBytes n).count '\n', (t.takeBytes n).lastRow.unitSize⟩ := by
  obtain ⟨after, k, htext, hoffset, hk⟩ := t.exists_offset_eq n
  rw [htext] at h
  have hposition := position_pointAt_add h hk
  rwa [← htext, ← hoffset] at hposition

/-- What is counted before a place grows as the place moves on. -/
theorem count_lt_append (before : Text) {between : Text} (hne : between ≠ []) :
    (⟨before.count '\n', before.lastRow.unitSize⟩ : Position) <
      ⟨(before ++ between).count '\n', (before ++ between).lastRow.unitSize⟩ := by
  rw [List.count_append]
  show _ ∨ _
  by_cases hfeed : '\n' ∈ between
  · have hpos := List.count_pos_iff.mpr hfeed
    left
    simp only
    omega
  · have hzero := List.count_eq_zero.mpr hfeed
    have hpos := List.length_pos_iff.mpr hne
    have hunits := Text.length_le_unitSize between
    right
    simp only [Text.lastRow_append hfeed, Text.unitSize_append]
    omega

/-- Offsets in order have positions in order, also inside of characters. -/
theorem position_le (h : t.byteSize < UInt32.size) (hmn : m ≤ n) :
    (ofText t).position (t.pointAt m) ≤ (ofText t).position (t.pointAt n) := by
  obtain ⟨between, hbetween⟩ := (Text.takeBytes_longest m t).mono (Text.takeBytes_longest n t) hmn
  rw [position_pointAt_takeBytes h, position_pointAt_takeBytes h, ← hbetween]
  by_cases hne : between = []
  · rw [hne, List.append_nil]
    exact Or.inr ⟨rfl, Nat.le_refl _⟩
  · exact Or.imp_right (And.imp_right Nat.le_of_lt) (count_lt_append _ hne)

/-- The position of an offset is on a row of the text, and not past its end. -/
theorem position_inside (h : t.byteSize < UInt32.size) (n : Nat) :
    ∃ row, t.rows[((ofText t).position (t.pointAt n)).line]? = some row ∧
      ((ofText t).position (t.pointAt n)).character ≤ row.unitSize := by
  obtain ⟨after, k, htext, -, -⟩ := t.exists_offset_eq n
  obtain ⟨first, hrow⟩ := Text.exists_getElem?_rows (t.takeBytes n) after
  rw [← htext] at hrow
  rw [position_pointAt_takeBytes h]
  refine ⟨_, hrow, ?_⟩
  rw [Text.unitSize_append]
  exact Nat.le_add_right _ _

/-- The position of a boundary leads back to its point. -/
theorem point_position (h : t.byteSize < UInt32.size) (hn : t.IsBoundary n) :
    (ofText t).point ((ofText t).position (t.pointAt n)) = t.pointAt n := by
  obtain ⟨before, after, rfl, rfl⟩ := hn
  obtain ⟨first, -, hrow⟩ := row_ofText before after
  rw [position_pointAt h, Text.pointAt_byteSize]
  simp only [point, hrow, Text.byteColumn, Text.takeUnits_append]

/-- Positions are in the order of the places that they name. -/
theorem position_lt (h : t.byteSize < UInt32.size) (hm : t.IsBoundary m) (hn : t.IsBoundary n) (hlt : m < n) :
    (ofText t).position (t.pointAt m) < (ofText t).position (t.pointAt n) := by
  obtain ⟨before, after, rfl, rfl⟩ := hm
  obtain ⟨before', after', heq, rfl⟩ := hn
  -- the second place lies behind the first, with something in between
  have hfront : before <+: before' := by
    have hfronts := List.prefix_or_prefix_of_prefix (List.prefix_append before after)
      (heq ▸ List.prefix_append before' after')
    refine hfronts.resolve_right fun hback => ?_
    have hle := Text.byteSize_le_of_isPrefix hback
    omega
  obtain ⟨between, rfl⟩ := hfront
  have hne : between ≠ [] := by
    rintro rfl
    rw [List.append_nil] at hlt
    omega
  rw [position_pointAt h, heq, position_pointAt (heq ▸ h)]
  exact count_lt_append before hne

/-- The last place is the end position. -/
theorem position_end (h : t.byteSize < UInt32.size) :
    (ofText t).position (t.pointAt t.byteSize) = (ofText t).endPosition := by
  obtain ⟨closed, hlen, hrows, -⟩ := t.exists_rows_append
  have hsmall : (t ++ []).byteSize < UInt32.size := (List.append_nil t).symm ▸ h
  have hpos := position_pointAt hsmall
  obtain ⟨hline, hcharacter⟩ := words_of_small hsmall
  rw [List.append_nil] at hpos
  rw [hpos, endPosition_ofText hrows, hlen]
  exact congrArg₂ Position.mk (Nat.mod_eq_of_lt hline).symm (Nat.mod_eq_of_lt hcharacter).symm

/-- **Points and positions name the same places.** In a text of less than 2^32 bytes, the point of a boundary between
characters is found again from its position, positions are strictly in the order of byte offsets, and the position of the
last place is the end position. On any line, a UTF-16 column goes to the last boundary that is not behind it, and a byte
column to the code units of the longest run of whole characters that ends before it, a number that is a word if the line
is shorter than 2^32 bytes. -/
theorem lossless (h : t.byteSize < UInt32.size) :
    (∀ n, t.IsBoundary n → (ofText t).point ((ofText t).position (t.pointAt n)) = t.pointAt n) ∧
    (∀ m n, t.IsBoundary m → t.IsBoundary n → m < n →
      (ofText t).position (t.pointAt m) < (ofText t).position (t.pointAt n)) ∧
    (ofText t).position (t.pointAt t.byteSize) = (ofText t).endPosition ∧
    (∀ before after : Text, t = before ++ after →
      t.pointAt before.byteSize = ⟨before.count '\n', before.lastRow.byteSize⟩) ∧
    (∀ (line : Text) (column : Nat),
      IsGreatest {b | ∃ u : Text, u <+: line ∧ u.unitSize ≤ column ∧ u.byteSize = b} (line.byteColumn column)) ∧
    ∀ (line : Text) (column : Nat), ∃ u, Text.LongestPrefix Text.byteSize column line u ∧
      line.unitColumn column = u.unitSize ∧
      (line.byteSize < UInt32.size → columnWord (line.unitColumn column) = u.unitSize) := by
  refine ⟨fun n hn => point_position h hn, fun m n hm hn hlt => position_lt h hm hn hlt, position_end h, ?_,
    Text.isGreatest_byteColumn, ?_⟩
  · rintro before after rfl
    exact Text.pointAt_byteSize before after
  · intro line column
    have hlongest := Text.takeBytes_longest column line
    have hunits := Text.unitColumn_eq_of_longest hlongest
    exact ⟨_, hlongest, hunits, fun hsmall => (columnWord_unitColumn hsmall column).trans hunits⟩

/-- Two rows, with a character of two code units on the first. -/
def astralRow : Text := ['a', '😀', '\n', 'é']

/-- Its end is at byte 5 and at column 3, and comes before the end of the second row. -/
theorem lossless_astralRow :
    (ofText astralRow).position (astralRow.pointAt 5) = ⟨0, 3⟩ ∧
      (ofText astralRow).point ((ofText astralRow).position (astralRow.pointAt 5)) = ⟨0, 5⟩ ∧
      (ofText astralRow).position (astralRow.pointAt 5) < (ofText astralRow).position (astralRow.pointAt 8) ∧
      (ofText astralRow).position (astralRow.pointAt 8) = (ofText astralRow).endPosition := by
  have hsmall : astralRow.byteSize < UInt32.size := by decide
  have hfive : astralRow.IsBoundary 5 := ⟨['a', '😀'], ['\n', 'é'], rfl, by decide⟩
  have height : astralRow.IsBoundary 8 := ⟨astralRow, [], rfl, by decide⟩
  obtain ⟨hpoint, hlt, hend, -⟩ := lossless hsmall
  exact ⟨by decide, hpoint 5 hfive, hlt 5 8 hfive height (by decide), hend⟩

end LineIndex

end RubyServer
