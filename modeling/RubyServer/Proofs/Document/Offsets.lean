import RubyServer.Document.Change
import RubyServer.Proofs.Document.Lines

/-!
# Where positions lead

A position that names a line leads to the last place on the line's content that is not behind its column; the one line
past the last has a single place, the end of the document; all other positions lead nowhere (`offset?_cases`). The place
is on the line (`offset?_between`), so that later positions lead to later places (`offset?_mono`), and it is never inside
a CRLF (`not_cutsCrlf_offset?`): no line begins there (`not_cutsCrlf_lines`), and the content of a line ends before it
(`exists_ending`).
-/

namespace RubyServer.Document

variable {t line : Text} {p q : Position} {i j n : Nat}

/-! ## Lines and CRLF -/

theorem CutsCrlf.of_cons {c : Char} {before after : Text} (h : CutsCrlf (c :: before) after) :
    CutsCrlf before after ∨ before = [] ∧ CutsCrlf [c] after := by
  cases before with
  | nil => exact Or.inr ⟨rfl, h⟩
  | cons d before =>
    obtain ⟨hb, ha⟩ := h
    rw [List.getLast?_cons_cons] at hb
    exact Or.inl ⟨hb, ha⟩

theorem Parted.not_cutsCrlf {ls : List Text} {last : Text} (h : Parted t ls last) (n : Nat) :
    ¬ CutsCrlf ((ls ++ [last]).take n).flatten ((ls ++ [last]).drop n).flatten := by
  induction h generalizing n with
  | nil => cases n <;> simp [CutsCrlf]
  | @crlf t ls last _ ih =>
    cases n with
    | zero => simp [CutsCrlf]
    | succ n =>
      intro hcut
      rcases hcut.of_cons with hcut | ⟨hnil, -⟩
      · rcases hcut.of_cons with hcut | ⟨-, hcut⟩
        · exact ih n hcut
        · exact absurd hcut.1 (by decide)
      · cases hnil
  | @brk c t ls last hc hcr h ih =>
    cases n with
    | zero => simp [CutsCrlf]
    | succ n =>
      intro hcut
      rcases hcut.of_cons with hcut | ⟨hnil, hcut⟩
      · exact ih n hcut
      · -- nothing stands between the break and what follows it
        have hrest : ((ls ++ [last]).drop n).flatten = t := by
          have hwhole : ((ls ++ [last]).take n).flatten ++ ((ls ++ [last]).drop n).flatten = t := by
            rw [← List.flatten_append, List.take_append_drop, h.text_eq]
            simp
          rw [show ((ls ++ [last]).take n).flatten = [] from hnil] at hwhole
          exact hwhole
        exact hcr (hrest ▸ hcut)
  | last _ _ _ => cases n <;> simp [CutsCrlf]
  | @line c t l ls last hc _ ih =>
    cases n with
    | zero => simp [CutsCrlf]
    | succ n =>
      intro hcut
      rcases hcut.of_cons with hcut | ⟨-, hcut⟩
      · exact ih (n + 1) hcut
      · obtain rfl : c = '\r' := by simpa using hcut.1
        cases hc

/-- No line begins inside a CRLF. -/
theorem not_cutsCrlf_lines (t : Text) (n : Nat) : ¬ CutsCrlf ((lines t).take n).flatten ((lines t).drop n).flatten := by
  obtain ⟨ls, last, h⟩ := exists_parted t
  rw [h.lines_eq]
  exact h.not_cutsCrlf n

/-- A line feed stands at the end of a line only. -/
theorem Parted.linefeed_notMem_dropLast {ls : List Text} {last : Text} (h : Parted t ls last) :
    ∀ l ∈ ls, '\n' ∉ l.dropLast := by
  induction h with
  | nil => intro l hl; cases hl
  | crlf _ ih =>
    intro l hl
    rcases List.mem_cons.mp hl with rfl | hl
    · decide
    · exact ih l hl
  | brk _ _ _ ih =>
    intro l hl
    rcases List.mem_cons.mp hl with rfl | hl
    · simp
    · exact ih l hl
  | last _ _ _ => intro l hl; cases hl
  | @line c _ l _ _ hc hrest ih =>
    intro l' hl'
    rcases List.mem_cons.mp hl' with rfl | hl'
    · rw [List.dropLast_cons_of_ne_nil (hrest.ne_nil l List.mem_cons_self), List.mem_cons, not_or]
      refine ⟨?_, ih l List.mem_cons_self⟩
      rintro rfl
      cases hc
    · exact ih l' (List.mem_cons_of_mem _ hl')

theorem linefeed_notMem_dropLast (h : line ∈ lines t) : '\n' ∉ line.dropLast := by
  obtain ⟨ls, last, hparted⟩ := exists_parted t
  rw [hparted.lines_eq, List.mem_append, List.mem_singleton] at h
  rcases h with hmem | rfl
  · exact hparted.linefeed_notMem_dropLast line hmem
  · intro hfeed
    cases hparted.not_isBreak_last '\n' (List.dropLast_subset _ hfeed)

/-! ## The content of a line and its ending -/

/-- What ends a line, given its content: a CRLF, an LF, or nothing if it does not end in an LF. -/
inductive EndsIn (body : Text) : Text → Prop
  | crlf : EndsIn body ['\r', '\n']
  | lf : body.getLast? ≠ some '\r' → EndsIn body ['\n']
  | nothing : body.getLast? ≠ some '\n' → EndsIn body []

theorem exists_ending (line : Text) : ∃ ending, line = content line ++ ending ∧ EndsIn (content line) ending := by
  unfold content
  split
  · next hlf =>
    obtain ⟨front, rfl⟩ := List.getLast?_eq_some_iff.mp (beq_iff_eq.mp hlf)
    rw [List.dropLast_concat]
    unfold Text.dropFinal
    split
    · next hcr =>
      obtain ⟨body, rfl⟩ := List.getLast?_eq_some_iff.mp (beq_iff_eq.mp hcr)
      rw [List.dropLast_concat]
      exact ⟨_, by simp, .crlf⟩
    · next hcr => exact ⟨_, rfl, .lf (by simpa [Text.endsWith] using hcr)⟩
  · next hlf => exact ⟨[], (List.append_nil line).symm, .nothing (by simpa [Text.endsWith] using hlf)⟩

theorem linefeed_notMem_content (h : line ∈ lines t) : '\n' ∉ content line := by
  obtain ⟨ending, heq, hends⟩ := exists_ending line
  have hinit := linefeed_notMem_dropLast h
  generalize content line = body at heq hends
  subst heq
  cases hends with
  | crlf =>
    intro hm
    apply hinit
    rw [List.dropLast_append_of_ne_nil (by simp)]
    exact List.mem_append_left _ hm
  | lf _ => simpa using hinit
  | nothing hlast =>
    rw [List.append_nil] at hinit
    intro hm
    -- the last character of the line would be the line feed
    obtain ⟨init, x, rfl⟩ := List.eq_nil_or_concat' body |>.resolve_left (List.ne_nil_of_mem hm)
    rw [List.dropLast_concat] at hinit
    rcases List.mem_append.mp hm with hm | hm
    · exact hinit hm
    · rw [List.mem_singleton.mp hm] at hlast
      simp at hlast

/-! ## Where lines start -/

/-- The number of characters before a line. -/
def lineStart (t : Text) (n : Nat) : Nat := ((lines t).take n).flatten.length

theorem lineStart_succ (h : (lines t)[n]? = some line) : lineStart t (n + 1) = lineStart t n + line.length := by
  simp [lineStart, List.take_add_one, h]

theorem lineStart_of_length_le (h : (lines t).length ≤ n) : lineStart t n = t.length := by
  rw [lineStart, List.take_of_length_le h, flatten_lines]

theorem lineStart_mono (t : Text) : Monotone (lineStart t) := by
  apply monotone_nat_of_le_succ
  intro n
  cases h : (lines t)[n]? with
  | none =>
    have hn := List.getElem?_eq_none_iff.mp h
    rw [lineStart_of_length_le hn, lineStart_of_length_le (hn.trans (Nat.le_succ n))]
  | some line =>
    rw [lineStart_succ h]
    exact Nat.le_add_right _ _

theorem take_lineStart (t : Text) (n : Nat) : t.take (lineStart t n) = ((lines t).take n).flatten := by
  have h : (((lines t).take n).flatten ++ ((lines t).drop n).flatten).take (lineStart t n) =
      ((lines t).take n).flatten := List.take_left' rfl
  rwa [flatten_take_append_drop] at h

theorem drop_lineStart (t : Text) (n : Nat) : t.drop (lineStart t n) = ((lines t).drop n).flatten := by
  have h : (((lines t).take n).flatten ++ ((lines t).drop n).flatten).drop (lineStart t n) =
      ((lines t).drop n).flatten := List.drop_left' rfl
  rwa [flatten_take_append_drop] at h

/-- A line, and the lines after it, are what follows the start of the line. -/
theorem drop_lineStart_of_line (h : (lines t)[n]? = some line) :
    t.drop (lineStart t n) = line ++ ((lines t).drop (n + 1)).flatten := by
  obtain ⟨hn, rfl⟩ := List.getElem?_eq_some_iff.mp h
  rw [drop_lineStart, List.drop_eq_getElem_cons hn, List.flatten_cons]

/-! ## Places -/

/-- Where a position leads. -/
theorem offset?_cases (t : Text) (p : Position) :
    (∃ line, (lines t)[p.line]? = some line ∧
      offset? t p = .ok (lineStart t p.line + (Text.takeUnits p.character (content line)).length)) ∨
    (p.line = (lines t).length ∧ p.character = 0 ∧ offset? t p = .ok t.length) ∨
    (((lines t).length < p.line ∨ p.line = (lines t).length ∧ 0 < p.character) ∧
      offset? t p = .error (.lineOutOfBounds p.line (lines t).length)) := by
  cases h : (lines t)[p.line]? with
  | some line => exact Or.inl ⟨line, rfl, offset?_eq_ok h p.character⟩
  | none =>
    have hle := List.getElem?_eq_none_iff.mp h
    right
    unfold offset?
    simp only [h]
    by_cases hend : p.line = (lines t).length ∧ p.character = 0
    · rw [if_pos hend]
      exact Or.inl ⟨hend.1, hend.2, rfl⟩
    · rw [if_neg hend]
      exact Or.inr ⟨by omega, rfl⟩

/-- A place is on the line that its position names. -/
theorem offset?_between (h : offset? t p = .ok i) : lineStart t p.line ≤ i ∧ i ≤ lineStart t (p.line + 1) := by
  rcases offset?_cases t p with ⟨line, hline, heq⟩ | ⟨hlast, -, heq⟩ | ⟨-, heq⟩
  · obtain rfl := Except.ok.inj (heq.symm.trans h)
    have hunits := Text.takeUnits_length_le p.character (content line)
    have hcontent := content_length_le line
    rw [lineStart_succ hline]
    omega
  · obtain rfl := Except.ok.inj (heq.symm.trans h)
    rw [lineStart_of_length_le (by omega), lineStart_of_length_le (by omega)]
    exact ⟨le_rfl, le_rfl⟩
  · cases heq.symm.trans h

/-- Later positions lead to later places. -/
theorem offset?_mono (hpq : p ≤ q) (hp : offset? t p = .ok i) (hq : offset? t q = .ok j) : i ≤ j := by
  rcases (show _ ∨ _ from hpq) with hlt | ⟨hline, hcharacter⟩
  · calc i ≤ lineStart t (p.line + 1) := (offset?_between hp).2
      _ ≤ lineStart t q.line := lineStart_mono t hlt
      _ ≤ j := (offset?_between hq).1
  · rcases offset?_cases t p with ⟨line, hline', heq⟩ | ⟨hlast, -, heq⟩ | ⟨-, heq⟩
    · rcases offset?_cases t q with ⟨line', hline'', heq'⟩ | ⟨hlast, -, -⟩ | ⟨-, heq'⟩
      · obtain rfl := Except.ok.inj (heq.symm.trans hp)
        obtain rfl := Except.ok.inj (heq'.symm.trans hq)
        rw [hline, hline''] at hline'
        obtain rfl := Option.some.inj hline'
        have hunits := (Text.takeUnits_longest p.character (content line')).mono (Text.takeUnits_longest _ _) hcharacter
        rw [hline]
        exact Nat.add_le_add_left hunits.length_le _
      · obtain ⟨hn, -⟩ := List.getElem?_eq_some_iff.mp hline'
        omega
      · cases heq'.symm.trans hq
    · -- past the last line there is one place only
      obtain rfl := Except.ok.inj (heq.symm.trans hp)
      have hstart := (offset?_between hq).1
      rwa [lineStart_of_length_le (by omega)] at hstart
    · cases heq.symm.trans hp

/-- A place is the last on the content of its line that is not behind the column. -/
theorem isGreatest_offset {body ending : Text} (h : (lines t)[n]? = some (body ++ ending)) (column : Nat) :
    IsGreatest {j | lineStart t n ≤ j ∧ j ≤ lineStart t n + body.length ∧
        Text.unitSize ((t.take j).drop (lineStart t n)) ≤ column}
      (lineStart t n + (Text.takeUnits column body).length) := by
  have hpart : ∀ k ≤ body.length, (t.take (lineStart t n + k)).drop (lineStart t n) = body.take k := by
    intro k hk
    rw [List.drop_take, drop_lineStart_of_line h, Nat.add_sub_cancel_left, List.append_assoc,
      List.take_append_of_le_length hk]
  obtain ⟨⟨hle, hsize⟩, hgreatest⟩ := (Text.takeUnits_longest column body).isGreatest_length
  refine ⟨⟨Nat.le_add_right _ _, Nat.add_le_add_left hle _, ?_⟩, ?_⟩
  · rw [hpart _ hle]
    exact hsize
  · rintro j ⟨hstart, hend, hunits⟩
    obtain ⟨k, rfl⟩ := Nat.exists_eq_add_of_le hstart
    have hk : k ≤ body.length := by omega
    rw [hpart k hk] at hunits
    exact Nat.add_le_add_left (hgreatest ⟨hk, hunits⟩) _

/-- The place before a line's content, inside it or at its end is not inside a CRLF. -/
theorem not_cutsCrlf_of_line {front rest ending : Text} (h : (lines t)[n]? = some (front ++ rest ++ ending))
    (hends : EndsIn (front ++ rest) ending) (hfeed : '\n' ∉ front ++ rest) :
    ¬ CutsCrlf (t.take (lineStart t n + front.length)) (t.drop (lineStart t n + front.length)) := by
  have hline := drop_lineStart_of_line h
  rw [List.take_add, ← List.drop_drop, hline, List.append_assoc, List.append_assoc, List.take_left, List.drop_left]
  rintro ⟨hcr, hlf⟩
  cases rest with
  | cons c rest =>
    obtain rfl : c = '\n' := by simpa using hlf
    exact hfeed (by simp)
  | nil =>
    rw [List.append_nil] at hends h
    cases hends with
    | crlf => simp at hlf
    | lf hlast =>
      rw [List.getLast?_append] at hcr
      cases hfront : front.getLast? with
      | some c =>
        rw [hfront] at hcr hlast
        exact hlast hcr
      | none =>
        -- the line is a line feed, and so does not follow a carriage return
        obtain rfl := List.getLast?_eq_none_iff.mp hfront
        rw [hfront, Option.none_or, take_lineStart] at hcr
        refine not_cutsCrlf_lines t n ⟨hcr, ?_⟩
        rw [← drop_lineStart, hline]
        rfl
    | nothing _ =>
      -- the place is the start of the next line
      rw [List.append_nil] at h
      have hnext : ((lines t).take (n + 1)).flatten = t.take (lineStart t n) ++ front := by
        rw [take_lineStart]
        simp [List.take_add_one, h]
      exact not_cutsCrlf_lines t (n + 1) ⟨hnext ▸ hcr, by simpa using hlf⟩

/-- No position leads into a CRLF. -/
theorem not_cutsCrlf_offset? (h : offset? t p = .ok i) : ¬ CutsCrlf (t.take i) (t.drop i) := by
  rcases offset?_cases t p with ⟨line, hline, heq⟩ | ⟨-, -, heq⟩ | ⟨-, heq⟩
  · obtain rfl := Except.ok.inj (heq.symm.trans h)
    have hfeed := linefeed_notMem_content (List.mem_of_getElem? hline)
    obtain ⟨rest, hrest⟩ := (Text.takeUnits_longest p.character (content line)).isPrefix
    obtain ⟨ending, hending, hends⟩ := exists_ending line
    rw [← hrest] at hfeed hends
    rw [hending, ← hrest] at hline
    exact not_cutsCrlf_of_line hline hends hfeed
  · obtain rfl := Except.ok.inj (heq.symm.trans h)
    simp [CutsCrlf]
  · cases heq.symm.trans h

/-- What a change of a range comes to: its ends are looked up, the start first, and must be in order. -/
theorem apply_range_cases (t : Text) (range : Range) (new : Text) :
    (∃ fault, offset? t range.start = .error fault ∧ Change.apply t ⟨some range, new⟩ = .error fault) ∨
    (∃ start fault, offset? t range.start = .ok start ∧ offset? t range.stop = .error fault ∧
      Change.apply t ⟨some range, new⟩ = .error fault) ∨
    (∃ start stop, offset? t range.start = .ok start ∧ offset? t range.stop = .ok stop ∧
      Change.apply t ⟨some range, new⟩ =
        if stop < start then .error (.reversed range) else .ok (Change.splice t start stop new)) := by
  simp only [Change.apply]
  cases hstart : offset? t range.start with
  | error fault => exact Or.inl ⟨fault, rfl, rfl⟩
  | ok start =>
    cases hstop : offset? t range.stop with
    | error fault => exact Or.inr (Or.inl ⟨start, fault, rfl, rfl, rfl⟩)
    | ok stop => exact Or.inr (Or.inr ⟨start, stop, rfl, rfl, rfl⟩)

theorem offset?_ne_reversed (t : Text) (p : Position) (range : Range) : offset? t p ≠ .error (.reversed range) := by
  rcases offset?_cases t p with ⟨line, -, heq⟩ | ⟨-, -, heq⟩ | ⟨-, heq⟩ <;> simp [heq]

/-- **Where positions lead.** A position leads nowhere exactly if its line is behind the one past the last, or is that line
and its column is not zero. At column zero of that line is the end of the document. On any other line, the place is the
greatest index from the start of the line to the end of its content, an LF or CRLF left out, with no more code units
before it on the line than the column says. No place is inside a CRLF, places are in the order of their positions, and a
range whose ends are in order is not refused as reversed. -/
theorem offset?_floor (t : Text) (p : Position) :
    ((∃ fault, offset? t p = .error fault) ↔
      (lines t).length < p.line ∨ p.line = (lines t).length ∧ 0 < p.character) ∧
    (p.line = (lines t).length → p.character = 0 → offset? t p = .ok t.length) ∧
    (p.line < (lines t).length → ∃ body ending i, (lines t)[p.line]? = some (body ++ ending) ∧ EndsIn body ending ∧
      offset? t p = .ok i ∧
      IsGreatest {j | lineStart t p.line ≤ j ∧ j ≤ lineStart t p.line + body.length ∧
        Text.unitSize ((t.take j).drop (lineStart t p.line)) ≤ p.character} i) ∧
    (∀ i, offset? t p = .ok i → ¬ CutsCrlf (t.take i) (t.drop i)) ∧
    (∀ q i j, p ≤ q → offset? t p = .ok i → offset? t q = .ok j → i ≤ j) ∧
    ∀ q new range, p ≤ q → Change.apply t ⟨some ⟨p, q⟩, new⟩ ≠ .error (.reversed range) := by
  refine ⟨?_, ?_, ?_, fun i => not_cutsCrlf_offset?, fun q i j => offset?_mono, ?_⟩
  · rcases offset?_cases t p with ⟨line, hline, heq⟩ | ⟨hlast, hzero, heq⟩ | ⟨hout, heq⟩
    · obtain ⟨hn, -⟩ := List.getElem?_eq_some_iff.mp hline
      simp only [heq, reduceCtorEq, exists_false, false_iff]
      omega
    · simp only [heq, reduceCtorEq, exists_false, false_iff]
      omega
    · exact ⟨fun _ => hout, fun _ => ⟨_, heq⟩⟩
  · intro hlast hzero
    rcases offset?_cases t p with ⟨line, hline, -⟩ | ⟨-, -, heq⟩ | ⟨hout, -⟩
    · obtain ⟨hn, -⟩ := List.getElem?_eq_some_iff.mp hline
      omega
    · exact heq
    · omega
  · intro hn
    have hline := List.getElem?_eq_getElem hn
    obtain ⟨ending, hending, hends⟩ := exists_ending (lines t)[p.line]
    have heq := offset?_eq_ok hline p.character
    rw [hending] at hline
    exact ⟨_, ending, _, hline, hends, heq, isGreatest_offset hline p.character⟩
  · intro q new range hpq hreversed
    rcases apply_range_cases t ⟨p, q⟩ new with ⟨fault, hp, happly⟩ | ⟨-, fault, -, hq, happly⟩ | ⟨i, j, hp, hq, happly⟩
    · obtain rfl := Except.error.inj (happly.symm.trans hreversed)
      exact offset?_ne_reversed t p range hp
    · obtain rfl := Except.error.inj (happly.symm.trans hreversed)
      exact offset?_ne_reversed t q range hq
    · have hle : i ≤ j := offset?_mono hpq hp hq
      rw [if_neg (Nat.not_lt.mpr hle)] at happly
      cases happly.symm.trans hreversed

end RubyServer.Document
