import Mathlib.Data.List.DropRight
import Mathlib.Data.List.TakeDrop
import RubyServer.Document.Lines
import RubyServer.Proofs.Text.Columns

/-!
# The lines of a document, taken apart

`Parted t ls last` says how the lines of `t` come about, character by character: `ls` are the lines that end in a
break, `last` is what follows the last break. Every text is parted in one way, by its lines (`exists_parted`,
`Parted.lines_eq`), the last line holds no break (`Parted.not_isBreak_last`) and the others end in one
(`Parted.isBreak_getLast`).

The lines of two texts written one after the other are their lines again, with the last line of the first text and the
first of the second run together (`Parted.lines_append`); only a CRLF that is cut in two would break this. A line's
content begins with whatever free of breaks the line begins with (`content_append`), and columns count whole characters
(`Text.takeUnits_append`).
-/

namespace RubyServer

namespace Text

theorem dropFinal_isPrefix (c : Char) (t : Text) : dropFinal c t <+: t := by
  unfold dropFinal
  split
  · exact List.dropLast_prefix t
  · exact List.prefix_rfl

theorem dropFinal_length_le (c : Char) (t : Text) : (dropFinal c t).length ≤ t.length := (dropFinal_isPrefix c t).length_le

end Text

namespace Document

/-! ## Taking lines apart -/

/-- A text ends in the CR, and the text after it begins with the LF, of one CRLF. -/
def CutsCrlf (before after : Text) : Prop := before.getLast? = some '\r' ∧ after.head? = some '\n'

instance (before after : Text) : Decidable (CutsCrlf before after) :=
  inferInstanceAs (Decidable (before.getLast? = some '\r' ∧ after.head? = some '\n'))

theorem CutsCrlf.cons {before after : Text} (c : Char) (h : CutsCrlf before after) : CutsCrlf (c :: before) after := by
  obtain ⟨hb, ha⟩ := h
  refine ⟨?_, ha⟩
  cases before with
  | nil => cases hb
  | cons d before => rw [List.getLast?_cons_cons]; exact hb

/-- A document is taken apart into the lines that end in a break, and the last line. -/
inductive Parted : Text → List Text → Text → Prop
  | nil : Parted [] [] []
  | crlf {t : Text} {ls : List Text} {last : Text} :
      Parted t ls last → Parted ('\r' :: '\n' :: t) (['\r', '\n'] :: ls) last
  | brk {c : Char} {t : Text} {ls : List Text} {last : Text} : isBreak c = true → ¬ CutsCrlf [c] t →
      Parted t ls last → Parted (c :: t) ([c] :: ls) last
  | last {c : Char} {t : Text} {last : Text} : isBreak c = false → Parted t [] last → Parted (c :: t) [] (c :: last)
  | line {c : Char} {t l : Text} {ls : List Text} {last : Text} : isBreak c = false →
      Parted t (l :: ls) last → Parted (c :: t) ((c :: l) :: ls) last

theorem lines_break {c : Char} {t : Text} (hc : isBreak c = true) (h : ¬ CutsCrlf [c] t) :
    lines (c :: t) = [c] :: lines t := by
  rw [lines]
  · rw [if_pos hc]
  · rintro t' rfl rfl
    exact h ⟨rfl, rfl⟩

theorem lines_cons {c : Char} {t l : Text} {ls : List Text} (hc : isBreak c = false) (h : lines t = l :: ls) :
    lines (c :: t) = (c :: l) :: ls := by
  rw [lines]
  · simp [hc, h]
  · rintro t' rfl rfl
    cases hc

theorem Parted.lines_eq {t : Text} {ls : List Text} {last : Text} (h : Parted t ls last) : lines t = ls ++ [last] := by
  induction h with
  | nil => rfl
  | crlf _ ih => rw [lines, ih]; rfl
  | brk hc hcut _ ih => rw [lines_break hc hcut, ih]; rfl
  | last hc _ ih => exact lines_cons hc ih
  | line hc _ ih => exact lines_cons hc ih

/-- Every document is taken apart by its lines. -/
theorem exists_parted (t : Text) : ∃ ls last, Parted t ls last := by
  fun_induction lines t with
  | case1 => exact ⟨[], [], .nil⟩
  | case2 t ih =>
    obtain ⟨ls, last, h⟩ := ih
    exact ⟨_, _, .crlf h⟩
  | case3 c t hne hc ih =>
    obtain ⟨ls, last, h⟩ := ih
    refine ⟨_, _, .brk hc ?_ h⟩
    rintro ⟨hr, hn⟩
    obtain rfl : c = '\r' := by simpa using hr
    obtain ⟨t', rfl⟩ : ∃ t', t = '\n' :: t' := List.head?_eq_some_iff.mp hn
    exact hne t' rfl rfl
  | case4 c t _ _ h => exact absurd h (lines_ne_nil t)
  | case5 c t _ hc _ _ _ ih =>
    have hc : isBreak c = false := by simpa using hc
    obtain ⟨ls, last, h⟩ := ih
    cases ls with
    | nil => exact ⟨_, _, .last hc h⟩
    | cons l ls => exact ⟨_, _, .line hc h⟩

theorem parted_of_lines_eq {t : Text} {ls : List Text} {last : Text} (h : lines t = ls ++ [last]) : Parted t ls last := by
  obtain ⟨ls', last', h'⟩ := exists_parted t
  obtain ⟨rfl, hl⟩ := List.append_inj' (h.symm.trans h'.lines_eq) rfl
  obtain rfl : last = last' := by simpa using hl
  exact h'

/-- The lines of two texts written one after the other. -/
theorem Parted.lines_append {before after first : Text} {ls rest : List Text} {last : Text}
    (h : Parted before ls last) (hcut : ¬ CutsCrlf before after) (ha : lines after = first :: rest) :
    lines (before ++ after) = ls ++ (last ++ first) :: rest := by
  induction h with
  | nil => exact ha
  | crlf _ ih =>
    have ih := ih fun h => hcut ((h.cons _).cons _)
    rw [List.cons_append, List.cons_append, lines, ih]
    rfl
  | @brk c t ls last hc hcr _ ih =>
    have ih := ih fun h => hcut (h.cons c)
    have hcr' : ¬ CutsCrlf [c] (t ++ after) := by
      rintro ⟨hr, hn⟩
      cases t with
      | nil => exact hcut ⟨hr, hn⟩
      | cons d t => exact hcr ⟨hr, hn⟩
    rw [List.cons_append, lines_break hc hcr', ih]
    rfl
  | @last c _ _ hc _ ih => exact lines_cons hc (ih fun h => hcut (h.cons c))
  | @line c _ _ _ _ hc _ ih => exact lines_cons hc (ih fun h => hcut (h.cons c))

/-! ## What lines look like -/

/-- Nothing is lost. -/
theorem Parted.text_eq {t : Text} {ls : List Text} {last : Text} (h : Parted t ls last) : t = ls.flatten ++ last := by
  have hf := flatten_lines t
  rw [h.lines_eq] at hf
  simpa using hf.symm

/-- The last line holds no break. -/
theorem Parted.not_isBreak_last {t : Text} {ls : List Text} {last : Text} (h : Parted t ls last) :
    ∀ c ∈ last, isBreak c = false := by
  induction h with
  | nil => intro c hc; cases hc
  | crlf _ ih => exact ih
  | brk _ _ _ ih => exact ih
  | last hc _ ih =>
    intro d hd
    rcases List.mem_cons.mp hd with rfl | hd
    · exact hc
    · exact ih d hd
  | line _ _ ih => exact ih

/-- The other lines end in a break. -/
theorem Parted.isBreak_getLast {t : Text} {ls : List Text} {last : Text} (h : Parted t ls last) :
    ∀ l ∈ ls, ∃ c, l.getLast? = some c ∧ isBreak c = true := by
  induction h with
  | nil => intro l hl; cases hl
  | crlf _ ih =>
    intro l hl
    rcases List.mem_cons.mp hl with rfl | hl
    · exact ⟨'\n', rfl, rfl⟩
    · exact ih l hl
  | @brk c _ _ _ hc _ _ ih =>
    intro l hl
    rcases List.mem_cons.mp hl with rfl | hl
    · exact ⟨c, rfl, hc⟩
    · exact ih l hl
  | last _ _ _ => intro l hl; cases hl
  | @line c _ l _ _ _ _ ih =>
    intro l' hl'
    rcases List.mem_cons.mp hl' with rfl | hl'
    · obtain ⟨d, hd, hb⟩ := ih l List.mem_cons_self
      exact ⟨d, by rw [List.getLast?_cons, hd]; rfl, hb⟩
    · exact ih l' (List.mem_cons_of_mem _ hl')

theorem Parted.ne_nil {t : Text} {ls : List Text} {last : Text} (h : Parted t ls last) : ∀ l ∈ ls, l ≠ [] := by
  rintro l hl rfl
  obtain ⟨c, hc, -⟩ := h.isBreak_getLast [] hl
  cases hc

/-- Up to the last line, a document ends in a break. -/
theorem Parted.isBreak_getLast_flatten {t : Text} {ls : List Text} {last : Text} (h : Parted t ls last) (hls : ls ≠ []) :
    ∃ c, ls.flatten.getLast? = some c ∧ isBreak c = true := by
  obtain rfl | ⟨ls', l, rfl⟩ := List.eq_nil_or_concat' ls
  · exact absurd rfl hls
  · obtain ⟨c, hl, hb⟩ := h.isBreak_getLast l (by simp)
    refine ⟨c, ?_, hb⟩
    rw [List.flatten_append, List.flatten_singleton, List.getLast?_append, hl]
    rfl

/-! ## The content of a line -/

theorem content_isPrefix (l : Text) : content l <+: l := by
  unfold content
  split
  · exact (Text.dropFinal_isPrefix '\r' l.dropLast).trans (List.dropLast_prefix l)
  · exact List.prefix_rfl

theorem content_length_le (l : Text) : (content l).length ≤ l.length := (content_isPrefix l).length_le

/-- A line's content begins with what the line begins with, up to the first break. -/
theorem content_append {t : Text} (ht : ∀ c ∈ t, isBreak c = false) (u : Text) : ∃ v, content (t ++ u) = t ++ v := by
  have hlast : ∀ c, t.getLast? = some c → isBreak c = false := fun c hc => ht c (List.mem_of_getLast? hc)
  unfold content
  split
  · next h =>
    -- the break at the end stands in `u`, and so does the CR before it
    simp only [Text.endsWith, beq_iff_eq] at h
    have hu : u ≠ [] := by
      rintro rfl
      rw [List.append_nil] at h
      exact absurd (hlast _ h) (by decide)
    rw [List.dropLast_append_of_ne_nil hu]
    unfold Text.dropFinal
    split
    · next h' =>
      simp only [Text.endsWith, beq_iff_eq] at h'
      have hu' : u.dropLast ≠ [] := by
        intro e
        rw [e, List.append_nil] at h'
        exact absurd (hlast _ h') (by decide)
      exact ⟨_, List.dropLast_append_of_ne_nil hu'⟩
    · exact ⟨_, rfl⟩
  · exact ⟨_, rfl⟩

section Place

variable {t : Text} {ls : List Text} {last : Text} (h : Parted t ls last) {i : Nat} (hi : i < ls.length) (column : Nat)

include h

theorem Parted.length_eq :
    t.length = (ls.take i).flatten.length + ls[i].length + (ls.drop (i + 1)).flatten.length + last.length := by
  conv_lhs => rw [h.text_eq, ← List.take_append_drop i ls, List.drop_eq_getElem_cons hi]
  simp only [List.flatten_append, List.flatten_cons, List.length_append]
  omega

/-- The place at a column of a line that ends in a break is in the document. -/
theorem Parted.place_le :
    (ls.take i).flatten.length + (Text.takeUnits column (content ls[i])).length ≤ t.length := by
  have hparts := h.length_eq hi
  have hle := Text.takeUnits_length_le column (content ls[i])
  have hle' := content_length_le ls[i]
  omega

/-- It is the end of the document only if nothing follows the line, and the place is behind the break. -/
theorem Parted.place_eq_iff :
    (ls.take i).flatten.length + (Text.takeUnits column (content ls[i])).length = t.length ↔
      last = [] ∧ i + 1 = ls.length ∧ (Text.takeUnits column (content ls[i])).length = ls[i].length := by
  have hparts := h.length_eq hi
  have hle := Text.takeUnits_length_le column (content ls[i])
  have hle' := content_length_le ls[i]
  have hrest : (ls.drop (i + 1)).flatten.length = 0 ↔ i + 1 = ls.length := by
    rw [List.length_eq_zero_iff]
    constructor
    · intro hnil
      by_contra hne
      have hj : i + 1 < ls.length := by omega
      rw [List.drop_eq_getElem_cons hj, List.flatten_cons] at hnil
      exact h.ne_nil _ (List.getElem_mem hj) (List.append_eq_nil_iff.mp hnil).1
    · intro he
      rw [he, List.drop_length, List.flatten_nil]
  rw [← List.length_eq_zero_iff, ← hrest]
  omega

end Place

theorem flatten_take_append_drop (t : Text) (n : Nat) :
    ((lines t).take n).flatten ++ ((lines t).drop n).flatten = t := by
  rw [← List.flatten_append, List.take_append_drop, flatten_lines]

/-- The place at a column of a line lies in the content of the line, as far in as the column alone says. -/
theorem offset?_eq_ok {t line : Text} {i : Nat} (h : (lines t)[i]? = some line) (column : Nat) :
    offset? t ⟨i, column⟩ =
      .ok (((lines t).take i).flatten.length + (Text.takeUnits column (content line)).length) := by
  obtain ⟨hi, rfl⟩ := List.getElem?_eq_some_iff.mp h
  obtain ⟨ending, hending⟩ := content_isPrefix (lines t)[i]
  -- the lines before, the content of the line, and all that follows it
  have ht : ((lines t).take i).flatten ++ (content (lines t)[i] ++ (ending ++ ((lines t).drop (i + 1)).flatten)) = t := by
    rw [← List.append_assoc (content _), hending, ← List.flatten_cons, ← List.drop_eq_getElem_cons hi,
      flatten_take_append_drop]
  have hplace := Text.charOffset_min ((lines t).take i).flatten (content (lines t)[i])
    (ending ++ ((lines t).drop (i + 1)).flatten) column
  simp only [ht] at hplace
  simp only [offset?, h, hplace]

end Document

end RubyServer
