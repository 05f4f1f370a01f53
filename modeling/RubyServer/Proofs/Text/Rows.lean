import Mathlib.Data.List.DropRight
import RubyServer.Text.Lines

/-!
# The rows of a text, taken apart

A text that goes on goes on in its last row: the rows of two texts written one after the other are their rows again, with
the last row of the first text (`lastRow`) and the first of the second run together (`exists_rows_append`). The rows before
the last are one for each line feed. Rows put together by line feeds are the rows of the text (`rows_joinRows`), and the text
is cut where one of its rows is cut (`joinRows_append`).

The lines of a text are its rows without carriage returns, save that nothing is taken off the last row and that it is no
line if it is empty (`getElem?_linesOfRows`).
-/

namespace RubyServer.Text

theorem rows_cons {c : Char} {t row : Text} {rows' : List Text} (hc : c ≠ '\n') (h : rows t = row :: rows') :
    rows (c :: t) = (c :: row) :: rows' := by
  unfold rows at h ⊢
  rw [split, if_neg hc, h]

theorem rows_linefeed (t : Text) : rows ('\n' :: t) = [] :: rows t := by
  unfold rows
  rw [split, if_pos rfl]

/-- A character that is no line feed goes to the first row, which may be the last. -/
theorem rows_cons_eq {c : Char} {t row : Text} {closed : List Text} (hc : c ≠ '\n') (h : rows t = closed ++ [row]) :
    ∃ closed', rows (c :: t) = closed' ++ [if closed = [] then c :: row else row] ∧
      closed'.length = closed.length := by
  cases closed with
  | nil => exact ⟨[], rows_cons hc h, rfl⟩
  | cons first rest => exact ⟨(c :: first) :: rest, rows_cons hc h, rfl⟩

/-! ## The last row -/

/-- What follows the last line feed of a text. -/
def lastRow (t : Text) : Text := t.rtakeWhile (· ≠ '\n')

theorem lastRow_append {u : Text} (hu : '\n' ∉ u) (t : Text) : lastRow (t ++ u) = lastRow t ++ u := by
  unfold lastRow List.rtakeWhile
  rw [List.reverse_append, List.takeWhile_append_of_pos, List.reverse_append, List.reverse_reverse]
  intro c hc
  simp only [ne_eq, decide_eq_true_eq]
  rintro rfl
  exact hu (List.mem_reverse.mp hc)

theorem lastRow_of_notMem {t : Text} (h : '\n' ∉ t) : lastRow t = t := lastRow_append h []

theorem lastRow_concat_linefeed (t : Text) : lastRow (t ++ ['\n']) = [] :=
  List.rtakeWhile_concat_neg _ _ _ (by simp)

theorem lastRow_suffix (t : Text) : ∃ front, t = front ++ lastRow t := by
  obtain ⟨front, h⟩ := List.rtakeWhile_suffix (fun c => decide (c ≠ '\n')) t
  exact ⟨front, h.symm⟩

/-- Only a text without line feeds has its first character on its last row. -/
theorem lastRow_cons (c : Char) (t : Text) :
    lastRow (c :: t) = if c ≠ '\n' ∧ '\n' ∉ t then c :: t else lastRow t := by
  induction t using List.reverseRecOn with
  | nil =>
    by_cases hc : c = '\n'
    · subst hc
      exact lastRow_concat_linefeed []
    · rw [if_pos ⟨hc, by simp⟩]
      exact lastRow_of_notMem (by simpa using Ne.symm hc)
  | append_singleton t d ih =>
    rw [← List.cons_append]
    by_cases hd : d = '\n'
    · subst hd
      rw [lastRow_concat_linefeed, lastRow_concat_linefeed, if_neg (by simp)]
    · have hd' : '\n' ∉ [d] := by simpa using Ne.symm hd
      rw [lastRow_append hd', lastRow_append hd', ih]
      by_cases h : c ≠ '\n' ∧ '\n' ∉ t
      · rw [if_pos h, if_pos ⟨h.1, by simpa [h.2] using Ne.symm hd⟩]
      · rw [if_neg h, if_neg fun h' => h ⟨h'.1, fun hm => h'.2 (List.mem_append_left _ hm)⟩]

theorem lastRow_append_of_mem {u : Text} (h : '\n' ∈ u) (t : Text) : lastRow (t ++ u) = lastRow u := by
  induction t with
  | nil => rfl
  | cons c t ih => rw [List.cons_append, lastRow_cons, if_neg fun hno => hno.2 (List.mem_append_right _ h), ih]

theorem getLast?_lastRow {t : Text} {c : Char} (h : t.getLast? = some c) (hc : c ≠ '\n') : (lastRow t).getLast? = some c := by
  obtain ⟨init, rfl⟩ := List.getLast?_eq_some_iff.mp h
  rw [lastRow_append (by simpa using hc.symm), List.getLast?_concat]

/-- **Where a text goes on.** The rows before the last are one for each line feed, and stay as they are when the text goes
on; the last row goes on with the first row of what follows. -/
theorem exists_rows_append (t : Text) : ∃ closed, closed.length = t.count '\n' ∧ rows t = closed ++ [lastRow t] ∧
    ∀ after first rest, rows after = first :: rest → rows (t ++ after) = closed ++ (lastRow t ++ first) :: rest := by
  suffices h : ∃ closed : List Text, closed.length = t.count '\n' ∧ ∀ after first rest, rows after = first :: rest →
      rows (t ++ after) = closed ++ (lastRow t ++ first) :: rest by
    obtain ⟨closed, hlen, happend⟩ := h
    refine ⟨closed, hlen, ?_, happend⟩
    simpa using happend [] [] [] rfl
  induction t using List.reverseRecOn with
  | nil => exact ⟨[], rfl, fun _ _ _ h => h⟩
  | append_singleton t c ih =>
    obtain ⟨closed, hlen, ih⟩ := ih
    by_cases hc : c = '\n'
    · subst hc
      refine ⟨closed ++ [lastRow t], by simp [hlen], ?_⟩
      intro after first rest h
      have hfeed := rows_linefeed after
      rw [h] at hfeed
      rw [List.append_assoc, List.singleton_append, ih _ _ _ hfeed, lastRow_concat_linefeed]
      simp
    · refine ⟨closed, by simp [hlen, hc], ?_⟩
      intro after first rest h
      rw [List.append_assoc, List.singleton_append, ih _ _ _ (rows_cons hc h),
        lastRow_append (by simpa using Ne.symm hc)]
      simp

/-- The row of a place in a text: what follows the last line feed before it, and what goes on from there. -/
theorem exists_getElem?_rows (before after : Text) :
    ∃ first, (rows (before ++ after))[before.count '\n']? = some (lastRow before ++ first) := by
  obtain ⟨closed, hlen, -, happend⟩ := before.exists_rows_append
  obtain ⟨first, rest, hafter⟩ := List.exists_cons_of_ne_nil (split_ne_nil '\n' after)
  exact ⟨first, by simp [happend after first rest hafter, ← hlen]⟩

theorem isPrefix_of_rows_eq {t first : Text} {rest : List Text} (h : rows t = first :: rest) : first <+: t := by
  have hjoin := joinRows_rows t
  rw [h] at hjoin
  rw [← hjoin]
  cases rest with
  | nil => exact List.prefix_rfl
  | cons next rest => exact ⟨_, rfl⟩

/-- A character that is no line feed goes to the last row. -/
theorem rows_concat {x : Char} (hx : x ≠ '\n') {t : Text} {closed : List Text} {last : Text}
    (h : rows t = closed ++ [last]) : rows (t ++ [x]) = closed ++ [last ++ [x]] := by
  obtain ⟨closed', -, hrows, happend⟩ := exists_rows_append t
  obtain ⟨rfl, hlast⟩ := List.append_inj' (hrows.symm.trans h) rfl
  obtain rfl : lastRow t = last := by simpa using hlast
  exact happend [x] [x] [] (rows_cons hx rfl)

/-- The rows of a text with something in the middle: its first and its last row go on in what stands around it. -/
theorem exists_rows_between (before part after : Text) :
    ∃ closed back rest, closed.length = before.count '\n' ∧
      (∀ row, rows part = [row] → rows (before ++ (part ++ after)) = closed ++ (lastRow before ++ (row ++ back)) :: rest) ∧
      ∀ first middle last, rows part = first :: (middle ++ [last]) →
        rows (before ++ (part ++ after)) = closed ++ (lastRow before ++ first) :: (middle ++ (last ++ back) :: rest) := by
  obtain ⟨closed, hlen, -, hbefore⟩ := before.exists_rows_append
  obtain ⟨closed', -, hpart, hafter⟩ := part.exists_rows_append
  obtain ⟨back, rest, hrows⟩ := List.exists_cons_of_ne_nil (split_ne_nil '\n' after)
  refine ⟨closed, back, rest, hlen, fun row hrow => ?_, fun first middle last hrow => ?_⟩
  · obtain ⟨rfl, hlast⟩ := List.append_inj' (hpart.symm.trans hrow : _ = [] ++ [row]) rfl
    obtain rfl : lastRow part = row := by simpa using hlast
    exact hbefore _ _ _ (hafter _ _ _ hrows)
  · obtain ⟨rfl, hlast⟩ := List.append_inj' (hpart.symm.trans hrow : _ = (first :: middle) ++ [last]) rfl
    obtain rfl : lastRow part = last := by simpa using hlast
    exact hbefore _ _ _ (hafter _ _ _ hrows)

/-! ## Rows put together -/

theorem linefeed_notMem_of_mem_rows {t row : Text} (h : row ∈ rows t) : '\n' ∉ row := by
  unfold rows at h
  fun_induction split '\n' t generalizing row with
  | case1 =>
    rw [List.mem_singleton.mp h]
    exact List.not_mem_nil
  | case2 t ih =>
    rcases List.mem_cons.mp h with rfl | h
    · exact List.not_mem_nil
    · exact ih h
  | case3 c t _ hnil _ => exact absurd hnil (split_ne_nil '\n' t)
  | case4 c t hc piece pieces hsplit ih =>
    rw [hsplit] at ih
    rcases List.mem_cons.mp h with rfl | h
    · rw [List.mem_cons, not_or]
      exact ⟨Ne.symm hc, ih List.mem_cons_self⟩
    · exact ih (List.mem_cons_of_mem _ h)

theorem rows_of_notMem {row : Text} (h : '\n' ∉ row) : rows row = [row] := by
  obtain ⟨closed, hlen, hrows, -⟩ := row.exists_rows_append
  rw [List.count_eq_zero.mpr h] at hlen
  rw [hrows, List.length_eq_zero_iff.mp hlen, lastRow_of_notMem h, List.nil_append]

theorem rows_append_linefeed {row : Text} (h : '\n' ∉ row) (t : Text) : rows (row ++ '\n' :: t) = row :: rows t := by
  induction row with
  | nil => exact rows_linefeed t
  | cons c row ih =>
    rw [List.mem_cons, not_or] at h
    exact rows_cons (Ne.symm h.1) (ih h.2)

/-- Rows put together are the rows of the text. -/
theorem rows_joinRows {rs : List Text} (h : ∀ row ∈ rs, '\n' ∉ row) (hne : rs ≠ []) : rows (joinRows rs) = rs := by
  induction rs with
  | nil => exact absurd rfl hne
  | cons row rs ih =>
    obtain ⟨hrow, hrest⟩ := List.forall_mem_cons.mp h
    cases rs with
    | nil => exact rows_of_notMem hrow
    | cons next rs =>
      rw [joinRows, rows_append_linefeed hrow, ih hrest (by simp)]
      simp

/-- The rows that a text is put together from are one for each line feed, and the last row. -/
theorem joinRows_concat {closed : List Text} {last : Text} (h : ∀ row ∈ closed, '\n' ∉ row) (hlast : '\n' ∉ last) :
    (joinRows (closed ++ [last])).count '\n' = closed.length ∧ lastRow (joinRows (closed ++ [last])) = last := by
  have hrows : rows (joinRows (closed ++ [last])) = closed ++ [last] := by
    refine rows_joinRows (fun row hm => ?_) (by simp)
    rcases List.mem_append.mp hm with hm | hm
    · exact h row hm
    · rw [List.mem_singleton.mp hm]
      exact hlast
  obtain ⟨closed', hlen, hrows', -⟩ := (joinRows (closed ++ [last])).exists_rows_append
  obtain ⟨rfl, hl⟩ := List.append_inj' (hrows'.symm.trans hrows) rfl
  exact ⟨hlen.symm, by simpa using hl⟩

theorem joinRows_cons (row : Text) {rs : List Text} (hne : rs ≠ []) :
    joinRows (row :: rs) = row ++ '\n' :: joinRows rs := by
  cases rs with
  | nil => exact absurd rfl hne
  | cons next rs => rfl

/-- A text may be cut within one of its rows. -/
theorem joinRows_append (before after : List Text) (front back : Text) :
    joinRows (before ++ (front ++ back) :: after) = joinRows (before ++ [front]) ++ joinRows (back :: after) := by
  induction before with
  | nil => cases after <;> simp [joinRows]
  | cons row before ih =>
    rw [List.cons_append, List.cons_append, joinRows_cons row (by simp), joinRows_cons row (by simp), ih]
    simp

/-- An empty row at the end stands for a line feed. -/
theorem joinRows_concat_nil {rs : List Text} (hne : rs ≠ []) : joinRows (rs ++ [[]]) = joinRows rs ++ ['\n'] := by
  obtain ⟨init, last, rfl⟩ := (List.eq_nil_or_concat' rs).resolve_left hne
  have hcut := joinRows_append init [[]] last []
  rw [List.append_nil] at hcut
  rw [List.append_assoc]
  exact hcut

/-- A text may be cut at the ends of a stretch of its rows. -/
theorem joinRows_between (part : Text) (closed rest : List Text) (front back : Text) :
    (∀ row, rows part = [row] → joinRows (closed ++ (front ++ (row ++ back)) :: rest) =
      joinRows (closed ++ [front]) ++ (part ++ joinRows (back :: rest))) ∧
    ∀ first middle last, rows part = first :: (middle ++ [last]) →
      joinRows (closed ++ (front ++ first) :: (middle ++ (last ++ back) :: rest)) =
        joinRows (closed ++ [front]) ++ (part ++ joinRows (back :: rest)) := by
  have hpart := joinRows_rows part
  constructor
  · intro row hrow
    have hcut := joinRows_append [] rest row back
    rw [hrow] at hpart
    rw [List.nil_append, List.nil_append, hpart] at hcut
    rw [joinRows_append, hcut]
  · intro first middle last hrow
    have hcut := joinRows_append (first :: middle) rest last back
    rw [hrow] at hpart
    rw [List.cons_append, List.cons_append, hpart] at hcut
    rw [joinRows_append, hcut]

/-- Where a row stands in a text. -/
theorem exists_of_getElem?_rows {t row : Text} {n : Nat} (h : (rows t)[n]? = some row) :
    ∃ before after, t = before ++ (row ++ after) ∧ before.count '\n' = n ∧ lastRow before = [] := by
  obtain ⟨hn, rfl⟩ := List.getElem?_eq_some_iff.mp h
  have hrows : rows t = (rows t).take n ++ ([] ++ ((rows t)[n] ++ [])) :: (rows t).drop (n + 1) := by
    rw [List.nil_append, List.append_nil, ← List.drop_eq_getElem_cons hn, List.take_append_drop]
  have hfeed : '\n' ∉ (rows t)[n] := linefeed_notMem_of_mem_rows (List.getElem_mem hn)
  have htext := (joinRows_between (rows t)[n] ((rows t).take n) ((rows t).drop (n + 1)) [] []).1 _ (rows_of_notMem hfeed)
  rw [← hrows, joinRows_rows] at htext
  have hclosed : ∀ row ∈ (rows t).take n, '\n' ∉ row := fun row hm =>
    linefeed_notMem_of_mem_rows (List.mem_of_mem_take hm)
  obtain ⟨hcount, hlast⟩ := joinRows_concat hclosed (List.not_mem_nil (a := '\n'))
  rw [List.length_take, Nat.min_eq_left hn.le] at hcount
  exact ⟨_, _, htext, hcount, hlast⟩

/-! ## Lines and rows -/

/-- The line of a row: the last row is one if it is not empty, and any other without its carriage return. -/
theorem getElem?_linesOfRows (rows : List Text) (n : Nat) :
    (linesOfRows rows)[n]? =
      rows[n]?.bind fun row =>
        if n + 1 = rows.length then (if row.isEmpty then none else some row) else some (dropFinal '\r' row) := by
  induction rows generalizing n with
  | nil => rfl
  | cons row rows ih =>
    cases rows with
    | nil =>
      cases n with
      | zero => cases row <;> rfl
      | succ n =>
        rw [linesOfRows]
        split <;> simp
    | cons next rows =>
      cases n with
      | zero => simp [linesOfRows]
      | succ n => simp [linesOfRows, ih]

end RubyServer.Text
