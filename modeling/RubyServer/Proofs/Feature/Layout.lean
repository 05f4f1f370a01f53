import Mathlib.Data.List.Forall2
import RubyServer.Proofs.Feature.Literals

/-!
# Formatting touches layout only

A row is blanks at the start, layout at the end, and its core in between (`Text.core`, `Text.exists_core`). Whatever the
formatter does to a row, trimming, laying out or keeping the carriage return, it leaves the core as it is
(`Format.core_row`), and the rows that it drops at the end of the text have an empty core. So the formatted text has the
rows of the text up to those that go, each with the same core, and closed by one line feed; and what is written on them
reads the same (`Format.text_keeps_ink`).
-/

namespace RubyServer

/-- Whether a character is layout at the end of a row: a space, a tab or a carriage return. -/
def isLayout (c : Char) : Bool := isPadding c || c == '\r'

theorem isLayout_of_isPadding {c : Char} (h : isPadding c = true) : isLayout c = true := by
  simp [isLayout, h]

theorem isLayout_iff {c : Char} : isLayout c = true ↔ c = ' ' ∨ c = '\t' ∨ c = '\r' := by
  simp [isLayout, isPadding, or_assoc]

namespace Text

/-- Nothing is dropped from the end exactly if the last element is one to keep. -/
theorem rdropWhile_eq_self_iff_getLast? {α : Type} {p : α → Bool} {l : List α} :
    l.rdropWhile p = l ↔ ∀ a, l.getLast? = some a → p a = false := by
  rw [List.rdropWhile_eq_self_iff]
  constructor
  · intro h a ha
    have hne : l ≠ [] := by
      rintro rfl
      cases ha
    rw [List.getLast?_eq_some_getLast hne, Option.some.injEq] at ha
    simpa [ha] using h hne
  · intro h hne
    simp [h _ (List.getLast?_eq_some_getLast hne)]

variable {t u front : Text}

/-! ## The core of a row -/

/-- A row without the spaces and tabs it begins with and the spaces, tabs and carriage returns it ends in. -/
def core (row : Text) : Text := trimEnd isLayout (trimStart isPadding row)

theorem trimEnd_append {p : Char → Bool} (hu : ∀ c ∈ u, p c = true) (t : Text) : trimEnd p (t ++ u) = trimEnd p t := by
  unfold trimEnd
  rw [List.reverse_append, List.dropWhile_append_of_pos]
  intro c hc
  exact hu c (List.mem_reverse.mp hc)

/-- Blanks at the start are not in the core. -/
theorem core_blank_append (hfront : ∀ c ∈ front, isPadding c = true) (t : Text) : core (front ++ t) = core t := by
  unfold core trimStart
  rw [List.dropWhile_append_of_pos hfront]

/-- Layout at the end is not in the core. -/
theorem core_append_layout (hu : ∀ c ∈ u, isLayout c = true) (t : Text) : core (t ++ u) = core t := by
  unfold core trimStart
  rw [List.dropWhile_append]
  split
  · next hblank =>
    rw [List.isEmpty_iff.mp hblank]
    exact trimEnd_append (fun c hc => hu c ((List.dropWhile_suffix _).subset hc)) []
  · exact trimEnd_append hu _

/-- A row is its core with blanks before it and layout behind it. -/
theorem exists_core (row : Text) : ∃ front back, row = front ++ (core row ++ back) ∧
    (∀ c ∈ front, isPadding c = true) ∧ ∀ c ∈ back, isLayout c = true := by
  refine ⟨row.takeWhile isPadding, (row.dropWhile isPadding).rtakeWhile isLayout, ?_,
    fun c hc => List.mem_takeWhile_imp hc, fun c hc => List.mem_rtakeWhile_imp hc⟩
  have hcore : core row ++ (row.dropWhile isPadding).rtakeWhile isLayout = row.dropWhile isPadding :=
    List.rdropWhile_append_rtakeWhile
  rw [hcore, List.takeWhile_append_dropWhile]

theorem core_eq_nil_iff {row : Text} : core row = [] ↔ ∀ c ∈ row, isLayout c = true := by
  constructor
  · intro h
    obtain ⟨front, back, hrow, hfront, hback⟩ := exists_core row
    rw [h, List.nil_append] at hrow
    rw [hrow]
    exact List.forall_mem_append.mpr ⟨fun c hc => isLayout_of_isPadding (hfront c hc), hback⟩
  · intro h
    exact core_append_layout h []

/-! ## What is written -/

/-- What is left of a text without spaces, tabs, carriage returns and line feeds. -/
def ink (t : Text) : Text := t.filter fun c => !(isLayout c || c == '\n')

theorem ink_append (t u : Text) : ink (t ++ u) = ink t ++ ink u := List.filter_append t u

theorem ink_layout (h : ∀ c ∈ t, isLayout c = true) : ink t = [] := by
  unfold ink
  rw [List.filter_eq_nil_iff]
  intro c hc
  simp [h c hc]

/-- What is written on a row is in its core. -/
theorem ink_core (row : Text) : ink (core row) = ink row := by
  obtain ⟨front, back, hrow, hfront, hback⟩ := exists_core row
  conv_rhs => rw [hrow]
  rw [ink_append, ink_append, ink_layout fun c hc => isLayout_of_isPadding (hfront c hc), ink_layout hback]
  simp

/-- What is written in a text is what is written on its rows. -/
theorem ink_joinRows (rs : List Text) : ink (joinRows rs) = rs.flatMap ink := by
  induction rs with
  | nil => rfl
  | cons row rs ih =>
    by_cases hne : rs = []
    · subst hne
      simp [joinRows]
    · rw [joinRows_cons row hne, ink_append, List.flatMap_cons, ← ih]
      rfl

theorem ink_eq (t : Text) : ink t = t.rows.flatMap ink := by
  rw [← ink_joinRows, joinRows_rows]

/-- Rows with the same cores have the same written on them. -/
theorem flatMap_ink_eq {rs rs' : List Text} (h : List.Forall₂ (fun r r' => core r' = core r) rs rs') :
    rs'.flatMap ink = rs.flatMap ink := by
  induction h with
  | nil => rfl
  | cons hcore _ ih => rw [List.flatMap_cons, List.flatMap_cons, ih, ← ink_core, hcore, ink_core]

end Text

namespace Format

/-! ## One row -/

theorem core_expand (width : Nat) (line : Text) : (expand width line).core = line.core := by
  unfold expand
  rw [Text.core_blank_append fun c hc => by rw [eq_space_of_mem_expanded hc]; rfl]
  conv_rhs => rw [← List.takeWhile_append_dropWhile (p := isPadding) (l := line)]
  exact (Text.core_blank_append (fun c hc => List.mem_takeWhile_imp hc) _).symm

theorem core_laidOut (literals : List Span) (width n : Nat) (line : Text) :
    (laidOut literals width n line).core = line.core := by
  unfold laidOut
  split
  · rfl
  · exact core_expand width line

theorem isLayout_return (raw : Text) : ∀ c ∈ (splitReturn raw).2, isLayout c = true := by
  unfold splitReturn
  split <;> simp [isLayout]

theorem core_kept (literals : List Span) (raw : Text) (n : Nat) : (kept literals raw n).core = raw.core := by
  have hraw : (Text.dropFinal '\r' raw).core = raw.core := by
    conv_rhs => rw [← dropFinal_append_return raw]
    exact (Text.core_append_layout (isLayout_return raw) _).symm
  unfold kept
  split
  · exact hraw
  · obtain ⟨gone, hgone, hblank⟩ := Text.exists_trimPadding (Text.dropFinal '\r' raw)
    rw [← hraw]
    conv_rhs => rw [hgone]
    exact (Text.core_append_layout (fun c hc => isLayout_of_isPadding (hblank c hc)) _).symm

/-- **One row.** Formatting leaves the core of a row as it is. -/
theorem core_row (literals : List Span) (width : Nat) (raw : Text) (n : Nat) :
    (row literals width raw n).core = raw.core := by
  rw [row_eq_laidOut, Text.core_append_layout (isLayout_return raw), core_laidOut, core_kept]

/-! ## All rows -/

theorem forall₂_core_rowsFrom (literals : List Span) (width n : Nat) (raws : List Text) :
    List.Forall₂ (fun raw row => row.core = raw.core) raws (rowsFrom literals width n raws) := by
  induction raws generalizing n with
  | nil => exact .nil
  | cons raw raws ih => exact .cons (core_row literals width raw n) (ih (n + 1))

theorem core_of_isVoid {row : Text} (h : isVoid row = true) : row.core = [] := by
  rw [Text.core_eq_nil_iff]
  intro c hc
  obtain rfl : c = '\r' := by simpa using List.all_eq_true.mp h c hc
  rfl

/-- Rows that become void have no core. -/
theorem core_of_forall₂ {raws rows : List Text} (h : List.Forall₂ (fun raw row => row.core = raw.core) raws rows)
    (hvoid : ∀ row ∈ rows, isVoid row = true) : ∀ raw ∈ raws, raw.core = [] := by
  induction h with
  | nil => simp
  | cons hcore _ ih =>
    obtain ⟨hrow, hrest⟩ := List.forall_mem_cons.mp hvoid
    exact List.forall_mem_cons.mpr ⟨hcore.symm.trans (core_of_isVoid hrow), ih hrest⟩

/-- Closing rows adds an empty row, the one behind the last line feed. -/
theorem close_eq_joinRows (out : List Text) : close out = Text.joinRows (out ++ [[]]) := by
  by_cases hne : out = []
  · subst hne
    rfl
  · rw [Text.joinRows_concat_nil hne]
    exact if_neg (by simpa using hne)

/-- What a formatted text is made of: the formatted rows up to the last that is not void, and a line feed. -/
theorem exists_text_eq_close (s : Source) (width : Nat) : ∃ out gone,
    rowsFrom s.literalSpans width 0 s.text.rows = out ++ gone ∧ text s width = close out ∧
    (text s width).rows = out ++ [[]] ∧ (∀ row ∈ gone, isVoid row = true) ∧
    ∀ last, out.getLast? = some last → isVoid last = false := by
  let rows := rowsFrom s.literalSpans width 0 s.text.rows
  have hsplit : dropVoid rows ++ rows.rtakeWhile isVoid = rows := List.rdropWhile_append_rtakeWhile
  have hfeed : ∀ row ∈ rows, '\n' ∉ row :=
    linefeed_notMem_rowsFrom s.literalSpans width 0 fun _ => Text.linefeed_notMem_of_mem_rows
  refine ⟨dropVoid rows, rows.rtakeWhile isVoid, hsplit.symm, rfl, ?_, fun _ h => List.mem_rtakeWhile_imp h,
    Text.rdropWhile_eq_self_iff_getLast?.mp (List.rdropWhile_idempotent isVoid rows)⟩
  have hleft : ∀ row ∈ dropVoid rows, '\n' ∉ row := fun row hm => hfeed row (hsplit ▸ List.mem_append_left _ hm)
  show (close (dropVoid rows)).rows = _
  rw [close_eq_joinRows, Text.rows_joinRows (List.forall_mem_append.mpr ⟨hleft, by simp⟩) (by simp)]

/-- **Formatting touches layout only.** The rows of the formatted text are the rows of the text, in order, without some at
the end that hold nothing but spaces, tabs and carriage returns, and then the empty row behind the last line feed. Each has
the core of the row of the text that it comes from. The formatted text is empty, or it ends in a line feed that closes a row
with something else than carriage returns on it. So what is written in the two texts is the same. -/
theorem text_keeps_ink (s : Source) (width : Nat) : ∃ kept dropped out : List Text,
    s.text.rows = kept ++ dropped ∧ (text s width).rows = out ++ [[]] ∧
    (∀ raw ∈ dropped, ∀ c ∈ raw, c = ' ' ∨ c = '\t' ∨ c = '\r') ∧
    List.Forall₂ (fun raw row => row.core = raw.core) kept out ∧
    (text s width = [] ∧ out = [] ∨ ∃ init last, out = init ++ [last] ∧ (∃ c ∈ last, c ≠ '\r') ∧
      text s width = Text.joinRows out ++ ['\n']) ∧
    (text s width).ink = s.text.ink := by
  obtain ⟨out, gone, hfrom, htext, hrows, hvoid, hlast⟩ := exists_text_eq_close s width
  have hcores := forall₂_core_rowsFrom s.literalSpans width 0 s.text.rows
  rw [hfrom] at hcores
  have hkept := List.forall₂_take_append _ _ _ hcores
  have hdropped := List.forall₂_drop_append _ _ _ hcores
  have hlayout : ∀ raw ∈ s.text.rows.drop out.length, ∀ c ∈ raw, isLayout c = true := fun raw hraw =>
    Text.core_eq_nil_iff.mp (core_of_forall₂ hdropped hvoid raw hraw)
  refine ⟨_, _, out, (List.take_append_drop out.length s.text.rows).symm, hrows, ?_, hkept, ?_, ?_⟩
  · intro raw hraw c hc
    exact isLayout_iff.mp (hlayout raw hraw c hc)
  · obtain rfl | ⟨init, last, rfl⟩ := List.eq_nil_or_concat' out
    · exact .inl ⟨htext, rfl⟩
    · refine .inr ⟨init, last, rfl, ?_, htext.trans (if_neg (by simp))⟩
      simpa [isVoid] using hlast last (by simp)
  · have hnone : (s.text.rows.drop out.length).flatMap Text.ink = [] := by
      rw [List.flatMap_eq_nil_iff]
      exact fun raw hraw => Text.ink_layout (hlayout raw hraw)
    have hclosing : Text.ink [] = [] := rfl
    calc (text s width).ink = (out ++ [[]]).flatMap Text.ink := by rw [Text.ink_eq, hrows]
      _ = out.flatMap Text.ink := by simp [hclosing]
      _ = (s.text.rows.take out.length).flatMap Text.ink := Text.flatMap_ink_eq hkept
      _ = s.text.rows.flatMap Text.ink := by
        conv_rhs => rw [← List.take_append_drop out.length s.text.rows]
        rw [List.flatMap_append, hnone, List.append_nil]
      _ = s.text.ink := (Text.ink_eq s.text).symm

end Format

end RubyServer
