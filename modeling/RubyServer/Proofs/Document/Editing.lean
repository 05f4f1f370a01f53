import RubyServer.Proofs.Document.Lines
import RubyServer.Proofs.Store.Commit

/-!
# Edits as the editor means them

An editor counts lines by CRLF, LF and CR only, and names a place by the line ends before it and the UTF-16 code units
since the last of them (`Editor.position`). Documents are broken into lines at five characters more (`isExtraBreak`),
and that shows: the server finds the place that the editor names exactly when none of these five stands before it, save
as the character right before it (`offset?_endOf`); otherwise it finds one further up.

So an edit of an open document does what the editor asks for, whatever the new text, exactly when no extra break stands
before the last character of the stretch up to the end of the edit (`followsEditor_iff`).
-/

namespace RubyServer

/-! ## Places in the editor's terms -/

namespace Editor

/-- The characters that end a line for the editor; a CR and an LF right after it are one line end. -/
def isLineEnd (c : Char) : Bool := c == '\n' || c == '\r'

/-- The number of line ends of a text. -/
def lineEnds : Text → Nat
  | [] => 0
  | '\r' :: '\n' :: t => lineEnds t + 1
  | c :: t => if isLineEnd c then lineEnds t + 1 else lineEnds t

/-- What follows the last line end of a text. -/
def sinceLineEnd (t : Text) : Text := t.rtakeWhile fun c => !isLineEnd c

/-- The position of the end of a text. -/
def endOf (t : Text) : Position := ⟨lineEnds t, (sinceLineEnd t).unitSize⟩

/-- The position of the place before the character number `k`. -/
def position (t : Text) (k : Nat) : Position := endOf (t.take k)

end Editor

/-- The breaks that are no line ends for the editor: VT, FF, NEL and the two Unicode separators. -/
def isExtraBreak (c : Char) : Bool := isBreak c && !Editor.isLineEnd c

namespace Editor

theorem isLineEnd_of_not_isBreak {c : Char} (h : isBreak c = false) : isLineEnd c = false := by
  simp only [isBreak, Bool.or_eq_false_iff] at h
  simp [isLineEnd, h]

theorem isExtraBreak_of_not_isBreak {c : Char} (h : isBreak c = false) : isExtraBreak c = false := by
  simp [isExtraBreak, h]

theorem lineEnds_cons {c : Char} {t : Text} (h : ¬ Document.CutsCrlf [c] t) :
    lineEnds (c :: t) = if isLineEnd c then lineEnds t + 1 else lineEnds t := by
  rw [lineEnds]
  rintro t' rfl rfl
  exact h ⟨rfl, rfl⟩

theorem not_cutsCrlf_of_not_isBreak {c : Char} (h : isBreak c = false) (t : Text) : ¬ Document.CutsCrlf [c] t := by
  rintro ⟨hr, -⟩
  obtain rfl : c = '\r' := by simpa using hr
  cases h

/-- Every line but the last is ended by a line end or by an extra break. -/
theorem length_eq_of_parted {t : Text} {ls : List Text} {last : Text} (h : Document.Parted t ls last) :
    ls.length = lineEnds t + t.countP isExtraBreak := by
  induction h with
  | nil => rfl
  | crlf _ ih =>
    simp only [List.length_cons, ih, lineEnds, List.countP_cons]
    rw [show isExtraBreak '\r' = false from rfl, show isExtraBreak '\n' = false from rfl]
    simp only [Bool.false_eq_true, ↓reduceIte]
    omega
  | @brk c t _ _ hc hcut _ ih =>
    rw [lineEnds_cons hcut, List.length_cons, List.countP_cons, ih]
    cases hl : isLineEnd c <;> simp [isExtraBreak, hc, hl] <;> omega
  | @last c t _ hc _ ih =>
    rw [lineEnds_cons (not_cutsCrlf_of_not_isBreak hc t), List.countP_cons, isLineEnd_of_not_isBreak hc,
      isExtraBreak_of_not_isBreak hc]
    exact ih
  | @line c t _ _ _ hc _ ih =>
    rw [lineEnds_cons (not_cutsCrlf_of_not_isBreak hc t), List.countP_cons, isLineEnd_of_not_isBreak hc,
      isExtraBreak_of_not_isBreak hc]
    exact ih

theorem sinceLineEnd_append {u : Text} (hu : ∀ c ∈ u, isLineEnd c = false) (t : Text) :
    sinceLineEnd (t ++ u) = sinceLineEnd t ++ u := by
  unfold sinceLineEnd List.rtakeWhile
  rw [List.reverse_append, List.takeWhile_append_of_pos, List.reverse_append, List.reverse_reverse]
  intro c hc
  simp [hu c (List.mem_reverse.mp hc)]

theorem sinceLineEnd_of_getLast? {t : Text} {c : Char} (h : t.getLast? = some c) (hc : isLineEnd c = true) :
    sinceLineEnd t = [] := by
  obtain ⟨t', rfl⟩ := List.getLast?_eq_some_iff.mp h
  exact List.rtakeWhile_concat_neg _ _ _ (by simp [hc])

/-- In a text without extra breaks, the last line is what follows the last line end. -/
theorem sinceLineEnd_eq_last {t : Text} {ls : List Text} {last : Text} (h : Document.Parted t ls last)
    (hx : ∀ c ∈ t, isExtraBreak c = false) : sinceLineEnd t = last := by
  rw [h.text_eq, sinceLineEnd_append fun c hc => isLineEnd_of_not_isBreak (h.not_isBreak_last c hc)]
  suffices hs : sinceLineEnd ls.flatten = [] by rw [hs, List.nil_append]
  by_cases hls : ls = []
  · subst hls
    rfl
  · obtain ⟨c, hf, hb⟩ := h.isBreak_getLast_flatten hls
    have hx := hx c (by rw [h.text_eq]; exact List.mem_append_left _ (List.mem_of_getLast? hf))
    exact sinceLineEnd_of_getLast? hf (by simpa [isExtraBreak, hb] using hx)

end Editor

/-! ## Where the server finds them -/

namespace Document

open Editor

section Found

variable {before after : Text} {ls : List Text} {last : Text}

/-- On the line that a text leaves unfinished, columns are counted from the start of that line. -/
theorem offset?_last (h : Parted before ls last) (hcut : ¬ CutsCrlf before after) :
    offset? (before ++ after) ⟨ls.length, last.unitSize⟩ = .ok before.length := by
  obtain ⟨first, rest, ha⟩ := List.exists_cons_of_ne_nil (lines_ne_nil after)
  obtain ⟨v, hv⟩ := content_append h.not_isBreak_last first
  have hl := h.lines_append hcut ha
  have hi : (lines (before ++ after))[ls.length]? = some (last ++ first) := by rw [hl]; simp
  rw [offset?_eq_ok hi, hl, hv, Text.takeUnits_append, List.take_left, h.text_eq, List.length_append]

/-- On a line that a text has finished, the place found is on that line. -/
theorem offset?_line (h : Parted before ls last) (hcut : ¬ CutsCrlf before after) {i : Nat} (hi : i < ls.length)
    (column : Nat) : offset? (before ++ after) ⟨i, column⟩ =
      .ok ((ls.take i).flatten.length + (Text.takeUnits column (content ls[i])).length) := by
  obtain ⟨first, rest, ha⟩ := List.exists_cons_of_ne_nil (lines_ne_nil after)
  have hl := h.lines_append hcut ha
  have hg : (lines (before ++ after))[i]? = some ls[i] := by
    rw [hl, List.getElem?_append_left hi, List.getElem?_eq_getElem hi]
  rw [offset?_eq_ok hg, hl, List.take_append_of_le_length hi.le]

/-- Without extra breaks before it, the place is found. -/
theorem offset?_endOf_of_not_extra (hcut : ¬ CutsCrlf before after) (hx : ∀ c ∈ before, isExtraBreak c = false) :
    offset? (before ++ after) (endOf before) = .ok before.length := by
  obtain ⟨ls, last, h⟩ := exists_parted before
  have hn : before.countP isExtraBreak = 0 := List.countP_eq_zero.mpr fun c hc => by simp [hx c hc]
  have hlen := length_eq_of_parted h
  rw [hn, Nat.add_zero] at hlen
  rw [endOf, sinceLineEnd_eq_last h hx, ← hlen]
  exact offset?_last h hcut

/-- Right after the only extra break the place is found as well: the break counts to the line that it ends. -/
theorem offset?_endOf_concat {x : Char} (hb : ∀ c ∈ before, isExtraBreak c = false) (hx : isExtraBreak x = true) :
    offset? (before ++ [x] ++ after) (endOf (before ++ [x])) = .ok (before ++ [x]).length := by
  obtain ⟨hbreak, hend⟩ : isBreak x = true ∧ isLineEnd x = false := by simpa [isExtraBreak] using hx
  have hr : x ≠ '\r' := by rintro rfl; cases hend
  have hn : x ≠ '\n' := by rintro rfl; cases hend
  obtain ⟨ls, last, h⟩ := exists_parted before
  have h₁ : Parted (before ++ [x]) (ls ++ [last ++ [x]]) [] := by
    apply parted_of_lines_eq
    have hx : lines [x] = [[x], []] := lines_break hbreak (by simp [CutsCrlf])
    rw [h.lines_append (by simp [CutsCrlf, hn]) hx]
    simp
  have hline : lineEnds (before ++ [x]) = ls.length := by
    have hlen := length_eq_of_parted h₁
    have hcount : before.countP isExtraBreak = 0 := List.countP_eq_zero.mpr fun c hc => by simp [hb c hc]
    rw [List.countP_append, hcount, List.countP_singleton, hx, List.length_append] at hlen
    simpa using hlen.symm
  have hsince : sinceLineEnd (before ++ [x]) = last ++ [x] := by
    rw [sinceLineEnd_append (by simpa using hend), sinceLineEnd_eq_last h hb]
  have hcontent : content (last ++ [x]) = last ++ [x] := by simp [content, Text.endsWith, hn]
  rw [endOf, hline, hsince, offset?_line h₁ (by simp [CutsCrlf, hr]) (by simp)]
  have ht := Text.takeUnits_append (last ++ [x]) []
  rw [List.append_nil] at ht
  simp [hcontent, ht, h.text_eq]

/-- With an extra break further up, the place found lies before the one meant. -/
theorem offset?_endOf_lt (hcut : ¬ CutsCrlf before after) {x : Char} (hx : isExtraBreak x = true)
    (hmem : x ∈ before.dropLast) : ∃ n < before.length, offset? (before ++ after) (endOf before) = .ok n := by
  obtain ⟨ls, last, h⟩ := exists_parted before
  have hlen := length_eq_of_parted h
  have hcount : 0 < before.dropLast.countP isExtraBreak := List.countP_pos_iff.mpr ⟨x, hmem, hx⟩
  have hsub : before.dropLast.countP isExtraBreak ≤ before.countP isExtraBreak :=
    before.dropLast_sublist.countP_le
  have hi : lineEnds before < ls.length := by omega
  refine ⟨_, lt_of_le_of_ne (h.place_le hi _) ?_, offset?_line h hcut hi _⟩
  -- the place found is at most the end of its line; if that were the end of the text, the text would end in a second
  -- extra break, and would have yet another line before its end
  intro heq
  obtain ⟨hlast, hrest, hwhole⟩ := (h.place_eq_iff hi _).mp heq
  obtain ⟨c, hf, hb⟩ := h.isBreak_getLast_flatten (by rintro rfl; simp at hi)
  have hc : before.getLast? = some c := by rw [h.text_eq, hlast, List.append_nil]; exact hf
  have hend : isLineEnd c = false := by
    by_contra hend
    have hsince := sinceLineEnd_of_getLast? hc (by simpa using hend)
    have hpos := List.length_pos_iff.mpr (h.ne_nil ls[lineEnds before] (List.getElem_mem hi))
    simp only [hsince, Text.unitSize, Text.takeUnits_zero, List.length_nil] at hwhole
    omega
  have hsplit : before.countP isExtraBreak = before.dropLast.countP isExtraBreak + 1 := by
    obtain ⟨t, rfl⟩ := List.getLast?_eq_some_iff.mp hc
    simp [List.countP_append, isExtraBreak, hb, hend]
  omega

/-- **Where the server finds a place.** -/
theorem offset?_endOf (hcut : ¬ CutsCrlf before after) :
    ∃ n ≤ before.length, offset? (before ++ after) (endOf before) = .ok n ∧
      (n = before.length ↔ ∀ c ∈ before.dropLast, isExtraBreak c = false) := by
  by_cases hx : ∀ c ∈ before.dropLast, isExtraBreak c = false
  · refine ⟨before.length, le_rfl, ?_, by simpa using hx⟩
    obtain rfl | ⟨t, c, rfl⟩ := List.eq_nil_or_concat' before
    · exact offset?_endOf_of_not_extra hcut (by simp)
    · rw [List.dropLast_concat] at hx
      cases hc : isExtraBreak c with
      | true => exact offset?_endOf_concat hx hc
      | false =>
        refine offset?_endOf_of_not_extra hcut fun d hd => ?_
        rcases List.mem_append.mp hd with hd | hd
        · exact hx d hd
        · rw [List.mem_singleton.mp hd]
          exact hc
  · obtain ⟨x, hmem, hx'⟩ : ∃ x ∈ before.dropLast, isExtraBreak x = true := by simpa using hx
    obtain ⟨n, hn, ho⟩ := offset?_endOf_lt hcut hx' hmem
    exact ⟨n, hn.le, ho, fun e => absurd e hn.ne, fun e => absurd e hx⟩

end Found

end Document

/-! ## Edits -/

/-- A change of one range of an open document to a later version, once its ends are found. -/
theorem Store.change_range {s : Store} {uri : Uri} {doc : Document} {version : Int} {range : Range} {start stop : Nat}
    (hdoc : s.get? uri = some doc) (hv : doc.version < version)
    (hstart : Document.offset? doc.text range.start = .ok start)
    (hstop : Document.offset? doc.text range.stop = .ok stop) (new : Text) :
    s.change uri [⟨some range, new⟩] version =
      if stop < start then .error (.invalidRange uri (.reversed range))
      else if s.maxSize < Text.byteSize (Change.splice doc.text start stop new) then
        .error (.tooLarge uri (Text.byteSize (Change.splice doc.text start stop new)) s.maxSize)
      else
        .ok (s.put uri { doc with version := version, text := Change.splice doc.text start stop new },
          .changed uri version) := by
  have happly : Change.applyAll doc.text [⟨some range, new⟩] =
      if stop < start then .error (.reversed range) else .ok (Change.splice doc.text start stop new) := by
    simp only [Change.applyAll, Change.apply, hstart, hstop]
    by_cases h : stop < start
    · simp [bind, Except.bind, h]
    · simp [bind, Except.bind, h]
  unfold Store.change
  simp only [hdoc, if_neg (Int.not_le.mpr hv), happly]
  by_cases h : stop < start
  · rw [if_pos h, if_pos h]
  · rw [if_neg h, if_neg h]
    rfl

/-- Replacing another stretch shows for some new text of one character. -/
theorem Change.splice_ne {t : Text} {a b a' b' : Nat} (hab : a ≤ b) (hb : b ≤ t.length) (hab' : a' ≤ b') (hlt : b' < b) :
    ∃ c, Change.splice t a' b' [c] ≠ Change.splice t a b [c] := by
  by_contra hall
  simp only [not_exists, not_not] at hall
  have ha : a' < a := by
    have hlen := congrArg List.length (hall 'a')
    simp only [Change.splice, List.length_append, List.length_take, List.length_drop, List.length_singleton] at hlen
    omega
  have hat : ∀ c, t[a']? = some c := by
    intro c
    have hget := congrArg (·[a']?) (hall c)
    have h₁ : (Change.splice t a' b' [c])[a']? = some c := by
      have hle : (t.take a').length ≤ a' := by
        rw [List.length_take]
        exact Nat.min_le_left _ _
      rw [Change.splice, List.append_assoc, List.getElem?_append_right hle]
      simp [Nat.min_eq_left (show a' ≤ t.length by omega)]
    have h₂ : (Change.splice t a b [c])[a']? = t[a']? := by
      rw [Change.splice, List.append_assoc, List.getElem?_append_left (by simp; omega), List.getElem?_take_of_lt ha]
    rw [← h₂, ← h₁]
    exact hget.symm
  exact absurd ((hat 'a').symm.trans (hat 'b')) (by decide)

/-- Whoever opens the text `t` and edits the stretch from `a` to `b` by its positions gets what they expect: the change
succeeds for every new text that fits and every later version, and the stretch is what it replaces. -/
def FollowsEditor (t : Text) (a b : Nat) : Prop :=
  ∀ (s : Store) (uri : Uri) (doc : Document) (new : Text) (version : Int), s.get? uri = some doc → doc.text = t →
    doc.version < version → Text.byteSize (t.take a ++ new ++ t.drop b) ≤ s.maxSize →
    s.change uri [⟨some ⟨Editor.position t a, Editor.position t b⟩, new⟩] version =
      .ok (s.put uri { doc with version := version, text := t.take a ++ new ++ t.drop b }, .changed uri version)

/-- **When edits do what the editor means.** For places that do not cut a CRLF, an edit is carried out as meant exactly
when no extra break stands before the end of the stretch, save as the last character before it. -/
theorem followsEditor_iff {t : Text} {a b : Nat} (hab : a ≤ b) (hb : b ≤ t.length)
    (hcuta : ¬ Document.CutsCrlf (t.take a) (t.drop a)) (hcutb : ¬ Document.CutsCrlf (t.take b) (t.drop b)) :
    FollowsEditor t a b ↔ ∀ c ∈ (t.take b).dropLast, isExtraBreak c = false := by
  obtain ⟨a', -, ha', hiffa⟩ := Document.offset?_endOf hcuta
  obtain ⟨b', hle, hb', hiffb⟩ := Document.offset?_endOf hcutb
  rw [List.take_append_drop] at ha' hb'
  rw [List.length_take, Nat.min_eq_left (hab.trans hb)] at hiffa
  rw [List.length_take, Nat.min_eq_left hb] at hiffb hle
  constructor
  · intro hsync
    rw [← hiffb]
    by_contra hne
    have hlt : b' < b := lt_of_le_of_ne hle hne
    -- in a store with room enough, the change fails or replaces another stretch
    let s (limit : Nat) : Store := Store.put ⟨∅, limit⟩ "" ⟨0, "", t⟩
    have hdoc (limit : Nat) : (s limit).get? "" = some ⟨0, "", t⟩ := Store.get?_put_self _ _ _
    by_cases hab' : b' < a'
    · have h := hsync (s _) "" _ [] 1 (hdoc _) rfl Int.one_pos le_rfl
      rw [Store.change_range (hdoc _) Int.one_pos ha' hb', if_pos hab'] at h
      cases h
    · obtain ⟨c, hc⟩ := Change.splice_ne hab hb (not_lt.mp hab') hlt
      let limit := max (Change.splice t a b [c]).byteSize (Change.splice t a' b' [c]).byteSize
      have hfits : ¬ (s limit).maxSize < (Change.splice t a' b' [c]).byteSize := not_lt.mpr (le_max_right _ _)
      have h := hsync (s limit) "" _ [c] 1 (hdoc _) rfl Int.one_pos (le_max_left _ _)
      rw [Store.change_range (hdoc _) Int.one_pos ha' hb', if_neg hab', if_neg hfits] at h
      have hget := congrArg (fun r => (r.toOption.bind fun r => r.1.get? "").map Document.text) h
      simp only [Except.toOption, Option.bind_some, Store.get?_put_self, Option.map_some] at hget
      exact hc (Option.some.inj hget)
  · intro hx
    have hxa : ∀ c ∈ (t.take a).dropLast, isExtraBreak c = false := by
      intro c hc
      rw [List.dropLast_take_eq_take_dropLast] at hx hc
      exact hx c ((List.take_prefix_take_left (show a - 1 ≤ b - 1 by omega)).subset hc)
    obtain rfl := hiffa.mpr hxa
    obtain rfl := hiffb.mpr hx
    rintro s uri doc new version hdoc rfl hv hsize
    have hfits : ¬ s.maxSize < (Change.splice doc.text a' b' new).byteSize := not_lt.mpr hsize
    rw [Store.change_range hdoc hv ha' hb' new, if_neg (not_lt.mpr hab), if_neg hfits]
    rfl

/-- A form feed between the start of a line and the edit moves the edit; right at its end it does no harm. -/
theorem followsEditor_form_feed :
    FollowsEditor ['é', '\r', '\n', '😀', '\x0c', 'b'] 3 5 ∧ ¬ FollowsEditor ['a', '\x0c', 'b'] 3 3 :=
  ⟨(followsEditor_iff (by decide) (by decide) (by decide) (by decide)).mpr
      (by simp [isExtraBreak, isBreak, Editor.isLineEnd]),
    fun h => absurd ((followsEditor_iff (by decide) (by decide) (by decide) (by decide)).mp h)
      (by simp [isExtraBreak, isBreak, Editor.isLineEnd])⟩

end RubyServer
