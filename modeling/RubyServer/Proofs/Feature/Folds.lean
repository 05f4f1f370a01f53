import Mathlib.Data.List.SplitBy
import Mathlib.Order.Interval.Set.Basic
import RubyServer.Feature.Folding
import RubyServer.Proofs.Tree.Nesting

/-!
# What is folded

A walk for folds enters everything but comments, and what it finds at a place goes one of two ways. A construct is folded at
once, if it is long enough (`regionAt`). A comment on its own line goes into the open block or closes it and opens another, so
what becomes of it is known only when the walk goes on; but the comments alone decide, and between them nothing happens to the
block (`comments_foldl`). So the regions of a source are those of the constructs that are not inside a comment
(`filter_region_all`), and its blocks are the longest runs of comments that follow each other (`filter_comment_all`).

Constructs that are nested cannot have folds that cross, although a fold ends on the row before its construct does: if one
construct ends before another begins, its fold has ended on an earlier row (`uncrossed_of_leads`).
-/

namespace RubyServer.Fold

variable {s : Source} {c d : Cursor} {p : Progress} {f : Fold}

/-! ## The walk -/

/-- The places of a source that are not inside a comment. -/
def seen (s : Source) : List Cursor := s.root.places.filter fun c => ∀ a ∈ c.ancestors, a.kind ≠ "comment"

/-- The folds of a source are what the places outside of comments come to. -/
theorem all_eq (s : Source) : all s = sortBy precedes ((seen s).foldl (fun p c => (visit s p c).2) {}).folds := by
  let answer (c : Cursor) : Visit := if c.kind = "comment" then .skip else .descend
  have hvisit : ∀ p c, (visit s p c).1 = answer c := by
    intro p c
    simp only [visit, answer]
    split_ifs <;> rfl
  have hseen : Cursor.visited answer s.root [] = seen s := by
    rw [Node.visited_eq_filter_places, seen]
    refine List.filter_congr fun c _ => ?_
    simp [answer]
  rw [all_eq_walk, Cursor.walk_eq_foldl hvisit, hseen]

/-- The fold of the construct at a place, if it is one. -/
def regionAt (s : Source) (c : Cursor) : List Fold :=
  if foldableKinds.contains c.kind then ofConstruct (s.span c.node) else []

/-- Whether there is a comment on its own line at a place. -/
def isOwn (s : Source) (c : Cursor) : Bool := c.kind = "comment" && startsLine s (s.span c.node).start

theorem isOwn_iff : isOwn s c = true ↔ c.kind = "comment" ∧ startsLine s (s.span c.node).start = true := by
  rw [isOwn, Bool.and_eq_true, decide_eq_true_eq]

theorem regionAt_of_comment (h : c.kind = "comment") : regionAt s c = [] := by
  rw [regionAt, h]
  rfl

/-- What a visit leaves behind: a comment in a block, or the fold of a construct. -/
theorem visit_snd (s : Source) (p : Progress) (c : Cursor) : (visit s p c).2 =
    if isOwn s c then p.comment (s.span c.node) else { p with found := regionAt s c ++ p.found } := by
  by_cases hkind : c.kind = "comment"
  · simp [visit, isOwn, hkind, regionAt_of_comment]
  · simp only [visit, isOwn, regionAt, hkind, if_false, decide_false, Bool.false_and, Bool.false_eq_true]
    split <;> rfl

/-! ## Regions -/

/-- Whether a fold is a construct. -/
def isRegion (f : Fold) : Bool := f.kind = .region

/-- Whether a fold is a block of comments. -/
def isComment (f : Fold) : Bool := f.kind = .comment

theorem reverse_ofBlock (block : Option (Nat × Nat)) : (ofBlock block).reverse = ofBlock block := by
  unfold ofBlock
  split
  · rfl
  · split <;> rfl

theorem isComment_of_mem_ofBlock {block : Option (Nat × Nat)} (h : f ∈ ofBlock block) : isComment f = true := by
  unfold ofBlock at h
  split at h
  · cases h
  · split at h
    · rw [List.mem_singleton.mp h]
      rfl
    · cases h

theorem filter_region_ofBlock (block : Option (Nat × Nat)) : (ofBlock block).filter isRegion = [] := by
  refine List.filter_eq_nil_iff.mpr fun f hf hregion => ?_
  have hcomment := of_decide_eq_true (isComment_of_mem_ofBlock hf)
  cases hcomment.symm.trans (of_decide_eq_true hregion)

theorem filter_comment_ofBlock (block : Option (Nat × Nat)) : (ofBlock block).filter isComment = ofBlock block :=
  List.filter_eq_self.mpr fun _ => isComment_of_mem_ofBlock

theorem regionAt_cases (s : Source) (c : Cursor) :
    regionAt s c = [] ∨ ∃ f, isRegion f = true ∧ regionAt s c = [f] := by
  unfold regionAt ofConstruct
  simp only
  split
  · split
    · exact Or.inr ⟨_, rfl, rfl⟩
    · exact Or.inl rfl
  · exact Or.inl rfl

/-- A comment leaves the regions as they are. -/
theorem filter_region_comment (p : Progress) (span : Span) :
    (p.comment span).folds.filter isRegion = p.folds.filter isRegion := by
  unfold Progress.comment
  split
  · split <;> simp [Progress.folds, filter_region_ofBlock]
  · simp [Progress.folds, filter_region_ofBlock]

/-- A visit adds the region at the place. -/
theorem filter_region_visit (s : Source) (p : Progress) (c : Cursor) :
    (visit s p c).2.folds.filter isRegion = p.folds.filter isRegion ++ regionAt s c := by
  rw [visit_snd]
  split
  · next hown => rw [filter_region_comment, regionAt_of_comment (isOwn_iff.mp hown).1, List.append_nil]
  · rcases regionAt_cases s c with hnil | ⟨f, hf, hone⟩
    · simp [hnil]
    · simp [hone, hf, Progress.folds, filter_region_ofBlock]

theorem filter_region_foldl (s : Source) (cs : List Cursor) (p : Progress) :
    (cs.foldl (fun p c => (visit s p c).2) p).folds.filter isRegion =
      p.folds.filter isRegion ++ cs.flatMap (regionAt s) := by
  induction cs generalizing p with
  | nil => simp
  | cons c cs ih => rw [List.foldl_cons, ih, filter_region_visit, List.flatMap_cons, List.append_assoc]

/-- The regions of a source are those of its constructs. -/
theorem filter_region_all (s : Source) : ((all s).filter isRegion).Perm ((seen s).flatMap (regionAt s)) := by
  rw [all_eq]
  refine ((sortBy_perm _ _).filter _).trans ?_
  rw [filter_region_foldl]
  exact .refl _

/-! ## Blocks of comments -/

/-- The part of a walk's progress that has to do with comments. -/
def Progress.comments (p : Progress) : Progress := { p with found := p.found.filter isComment }

theorem filter_comment_folds (p : Progress) : p.folds.filter isComment = p.comments.folds := by
  rw [Progress.folds, Progress.folds, List.filter_reverse, List.filter_append, filter_comment_ofBlock]
  rfl

theorem comments_comment (p : Progress) (span : Span) : (p.comment span).comments = p.comments.comment span := by
  obtain ⟨found, _ | ⟨first, last⟩⟩ := p
  · rfl
  · simp only [Progress.comment, Progress.comments]
    split
    · rfl
    · rw [List.filter_append, filter_comment_ofBlock]

/-- Only comments on their own lines make a difference to the blocks. -/
theorem comments_foldl (s : Source) (cs : List Cursor) (p : Progress) :
    (cs.foldl (fun p c => (visit s p c).2) p).comments =
      (cs.filter (isOwn s)).foldl (fun (p : Progress) c => p.comment (s.span c.node)) p.comments := by
  induction cs generalizing p with
  | nil => rfl
  | cons c cs ih =>
    rw [List.foldl_cons, ih, visit_snd]
    cases hown : isOwn s c with
    | true => rw [List.filter_cons_of_pos hown, List.foldl_cons, if_pos rfl, comments_comment]
    | false =>
      have hnone : (regionAt s c).filter isComment = [] := by
        rcases regionAt_cases s c with hnil | ⟨f, hf, hone⟩
        · rw [hnil]
          rfl
        · have hregion : f.kind = .region := of_decide_eq_true hf
          rw [hone]
          simp [isComment, hregion]
      rw [List.filter_cons_of_neg (by simp [hown]), if_neg (by simp), Progress.comments, List.filter_append, hnone]
      rfl

/-- Whether a comment starts on the row after the one on which another ends. -/
def follows (s : Source) (c d : Cursor) : Bool := (s.span c.node).stop.row + 1 = (s.span d.node).start.row

/-- The row on which a run of comments starts. -/
def firstRow (s : Source) (run : List Cursor) : Nat := run.head?.elim 0 fun c => (s.span c.node).start.row

/-- The row on which a run of comments ends. -/
def lastRow (s : Source) (run : List Cursor) : Nat := run.getLast?.elim 0 fun c => (s.span c.node).stop.row

/-- A comment that does not follow the open block closes it. -/
theorem comment_of_gap {span : Span} (h : ∀ first last, p.block = some (first, last) → last + 1 ≠ span.start.row) :
    p.comment span = ⟨ofBlock p.block ++ p.found, some (span.start.row, span.stop.row)⟩ := by
  obtain ⟨found, _ | ⟨first, last⟩⟩ := p
  · rfl
  · exact if_neg (h first last rfl)

/-- Comments that follow each other extend the block. -/
theorem foldl_comment_of_isChain {found : List Fold} {first : Nat} {run : List Cursor}
    (h : (c :: run).IsChain fun c d => follows s c d = true) :
    run.foldl (fun (p : Progress) c => p.comment (s.span c.node)) ⟨found, some (first, (s.span c.node).stop.row)⟩ =
      ⟨found, some (first, lastRow s (c :: run))⟩ := by
  induction run generalizing c with
  | nil => rfl
  | cons d run ih =>
    obtain ⟨hfollows, hrest⟩ := List.isChain_cons_cons.mp h
    have hnext : (s.span c.node).stop.row + 1 = (s.span d.node).start.row := of_decide_eq_true hfollows
    rw [List.foldl_cons, Progress.comment]
    simp only [if_pos hnext]
    rw [ih hrest, lastRow, lastRow, List.getLast?_cons_cons]

/-- Runs of comments that follow each other, with a gap after each run, come to one block for each run. -/
theorem folds_foldl_runs (runs : List (List Cursor)) (hne : [] ∉ runs)
    (hruns : ∀ run ∈ runs, run.IsChain fun c d => follows s c d = true)
    (hgaps : runs.IsChain fun a b => ∃ ha hb, follows s (a.getLast ha) (b.head hb) = false) (p : Progress)
    (hfirst : ∀ run ∈ runs.head?, ∀ first last, p.block = some (first, last) → last + 1 ≠ firstRow s run) :
    (runs.flatten.foldl (fun (p : Progress) c => p.comment (s.span c.node)) p).folds =
      p.folds ++ runs.flatMap fun run => ofBlock (some (firstRow s run, lastRow s run)) := by
  induction runs generalizing p with
  | nil => simp
  | cons run runs ih =>
    rw [List.mem_cons, not_or] at hne
    obtain ⟨hrun, hrest⟩ := List.forall_mem_cons.mp hruns
    obtain ⟨hgap, hgaps'⟩ := List.isChain_cons.mp hgaps
    obtain ⟨c, run, rfl⟩ := List.exists_cons_of_ne_nil (Ne.symm hne.1)
    rw [List.flatten_cons, List.foldl_append, List.foldl_cons, comment_of_gap (hfirst _ rfl),
      foldl_comment_of_isChain hrun, ih hne.2 hrest hgaps', List.flatMap_cons, ← List.append_assoc]
    · refine congrArg (· ++ _) ?_
      simp [Progress.folds, reverse_ofBlock, firstRow]
    · intro next hnext first last hblock
      obtain ⟨ha, hb, hno⟩ := hgap next hnext
      cases hblock
      have hno' := of_decide_eq_false hno
      rwa [firstRow, lastRow, List.head?_eq_some_head hb, List.getLast?_eq_some_getLast ha]

/-- The blocks of a source are the longest runs of comments that follow each other. -/
theorem filter_comment_all (s : Source) : ((all s).filter isComment).Perm
    ((((seen s).filter (isOwn s)).splitBy (follows s)).flatMap fun run => ofBlock (some (firstRow s run, lastRow s run))) := by
  obtain ⟨hflatten, hne, hruns, hgaps⟩ := List.splitBy_eq_iff.mp (Eq.refl (((seen s).filter (isOwn s)).splitBy (follows s)))
  rw [all_eq]
  refine ((sortBy_perm _ _).filter _).trans ?_
  rw [filter_comment_folds, comments_foldl]
  nth_rewrite 1 [hflatten]
  rw [folds_foldl_runs _ hne hruns hgaps _ (by intro _ _ _ _ h; cases h)]
  exact .refl _

/-! ## Rows and lines -/

/-- Whether the construct at a place is folded: at least one row lies between its first and its last. -/
def isLong (s : Source) (c : Cursor) : Bool :=
  foldableKinds.contains c.kind && decide ((s.span c.node).start.row + 2 ≤ (s.span c.node).stop.row)

theorem isLong_iff : isLong s c = true ↔
    foldableKinds.contains c.kind = true ∧ (s.span c.node).start.row + 2 ≤ (s.span c.node).stop.row := by
  rw [isLong, Bool.and_eq_true, decide_eq_true_eq]

/-- The fold of the construct at a place: its last row stays in sight. -/
def regionOf (s : Source) (c : Cursor) : Fold := ⟨(s.span c.node).start.row, (s.span c.node).stop.row - 1, .region⟩

section Rows

variable (hsize : s.text.byteSize < UInt32.size)

include hsize

/-- Rows of a small text are words. -/
theorem row_pointAt_lt (n : Nat) : (s.text.pointAt n).row < UInt32.size := by
  have hrow := s.text.row_pointAt_le n
  have hcount : s.text.count '\n' ≤ s.text.length := List.count_le_length
  have hlength := s.text.length_le_byteSize
  omega

theorem lineWord_firstRow (run : List Cursor) : lineWord (firstRow s run) = firstRow s run := by
  unfold firstRow
  cases run.head? with
  | none => rfl
  | some c => exact Nat.mod_eq_of_lt (row_pointAt_lt hsize _)

theorem lineWord_lastRow (run : List Cursor) : lineWord (lastRow s run) = lastRow s run := by
  unfold lastRow
  cases run.getLast? with
  | none => rfl
  | some c => exact Nat.mod_eq_of_lt (row_pointAt_lt hsize _)

/-- The block of a run of comments has its first and its last row. -/
theorem ofBlock_run (run : List Cursor) : ofBlock (some (firstRow s run, lastRow s run)) =
    if firstRow s run < lastRow s run then [⟨firstRow s run, lastRow s run, .comment⟩] else [] := by
  rw [ofBlock, lineWord_firstRow hsize, lineWord_lastRow hsize]

theorem regionAt_eq (c : Cursor) : regionAt s c = if isLong s c then [regionOf s c] else [] := by
  have hstart : lineWord (s.span c.node).start.row = (s.span c.node).start.row :=
    Nat.mod_eq_of_lt (row_pointAt_lt hsize _)
  have hstop : lineWord ((s.span c.node).stop.row - 1) = (s.span c.node).stop.row - 1 :=
    Nat.mod_eq_of_lt (Nat.lt_of_le_of_lt (Nat.sub_le _ _) (row_pointAt_lt hsize c.node.label.stop))
  have hlong : (s.span c.node).start.row < (s.span c.node).stop.row - 1 ↔
      (s.span c.node).start.row + 2 ≤ (s.span c.node).stop.row := by omega
  rw [regionAt, ofConstruct, isLong, regionOf]
  cases foldableKinds.contains c.kind with
  | false => rfl
  | true => simp only [hstart, hstop, hlong, Bool.true_and, decide_eq_true_eq, if_true]

theorem filter_region_eq : ((all s).filter isRegion).Perm (((seen s).filter (isLong s)).map (regionOf s)) := by
  have hregions : (seen s).flatMap (regionAt s) = ((seen s).filter (isLong s)).map (regionOf s) := by
    rw [funext (regionAt_eq hsize), ← flatMap_filter_eq, List.map_eq_flatMap]
  exact hregions ▸ filter_region_all s

theorem filter_comment_eq : ((all s).filter isComment).Perm
    (((((seen s).filter (isOwn s)).splitBy (follows s)).filter fun run => firstRow s run < lastRow s run).map fun run =>
      ⟨firstRow s run, lastRow s run, .comment⟩) := by
  have hblocks := filter_comment_all s
  rw [funext (ofBlock_run hsize)] at hblocks
  simpa [List.map_eq_flatMap, flatMap_filter_eq] using hblocks

/-- Every fold has more than one line. -/
theorem startLine_lt_endLine (hf : f ∈ all s) : f.startLine < f.endLine := by
  cases hkind : f.kind with
  | region =>
    have hregion := (filter_region_eq hsize).subset (List.mem_filter.mpr ⟨hf, decide_eq_true hkind⟩)
    obtain ⟨c, hc, rfl⟩ := List.mem_map.mp hregion
    have hlong := (isLong_iff.mp (List.mem_filter.mp hc).2).2
    show (s.span c.node).start.row < (s.span c.node).stop.row - 1
    omega
  | comment =>
    have hcomment := (filter_comment_eq hsize).subset (List.mem_filter.mpr ⟨hf, decide_eq_true hkind⟩)
    obtain ⟨run, hrun, rfl⟩ := List.mem_map.mp hcomment
    exact of_decide_eq_true (List.mem_filter.mp hrun).2

end Rows

/-! ## Crossing -/

/-- The lines of a fold. -/
def lines (f : Fold) : Set Nat := Set.Icc f.startLine f.endLine

/-- Whether two folds have no line in common, or one has all lines of the other. -/
def Uncrossed (a b : Fold) : Prop := a.lines ∩ b.lines = ∅ ∨ a.lines ⊆ b.lines ∨ b.lines ⊆ a.lines

theorem Uncrossed.symm {a b : Fold} (h : Uncrossed a b) : Uncrossed b a :=
  h.imp (fun h => (Set.inter_comm b.lines a.lines).trans h) Or.symm

theorem row_mono {t : Text} {m n : Nat} (h : m ≤ n) : (t.pointAt m).row ≤ (t.pointAt n).row := by
  have hle := Point.le_iff.mp (Text.pointAt_le_iff (t := t).mpr h)
  omega

/-- Constructs one inside the other or one behind the other have folds that do not cross. -/
theorem uncrossed_of_leads (hc : isLong s c = true) (h : c.node.Leads d.node) :
    Uncrossed (regionOf s c) (regionOf s d) := by
  have hlong := (isLong_iff.mp hc).2
  rcases h with ⟨-, hstart, hstop⟩ | hbefore
  · exact Or.inr (Or.inr (Set.Icc_subset_Icc (row_mono hstart) (Nat.sub_le_sub_right (row_mono hstop) 1)))
  · -- the second begins on the last row of the first at the earliest, and this row is not folded
    have hrow : (s.span c.node).stop.row ≤ (s.span d.node).start.row := row_mono hbefore
    refine Or.inl (Set.eq_empty_of_forall_notMem fun row hcommon => ?_)
    have hlast : row ≤ (s.span c.node).stop.row - 1 := hcommon.1.2
    have hfirst : (s.span d.node).start.row ≤ row := hcommon.2.1
    omega

theorem precedes_iff {a b : Fold} :
    precedes a b = true ↔ a.startLine < b.startLine ∨ a.startLine = b.startLine ∧ b.endLine ≤ a.endLine := by
  simp [precedes]

theorem pairwise_all (s : Source) :
    (all s).Pairwise fun a b => a.startLine < b.startLine ∨ a.startLine = b.startLine ∧ b.endLine ≤ a.endLine := by
  have htotal : ∀ a b, precedes a b = true ∨ precedes b a = true := fun a b => by
    simp only [precedes_iff]
    omega
  have htrans : ∀ a b c, precedes a b = true → precedes b c = true → precedes a c = true := fun a b c => by
    simp only [precedes_iff]
    omega
  rw [all_eq]
  exact (sortBy_pairwise htotal htrans _).imp precedes_iff.mp

/-- **Regions never cross.** In a text of less than 2^32 bytes whose nodes are nested: the folds are in the order of their
first lines, and of those that start together the longest comes first; each has more than one line; there is one region for
each construct that is not inside a comment and whose last row is at least two below its first, and no other; and of any two
regions either one has all the lines of the other, or they have none in common. -/
theorem regions_uncrossed (hsize : s.text.byteSize < UInt32.size) (hnested : s.root.Nested) :
    (all s).Pairwise (fun a b => a.startLine < b.startLine ∨ a.startLine = b.startLine ∧ b.endLine ≤ a.endLine) ∧
    (∀ f ∈ all s, f.startLine < f.endLine) ∧
    ((all s).filter isRegion).Perm (((seen s).filter (isLong s)).map (regionOf s)) ∧
    ∀ a ∈ (all s).filter isRegion, ∀ b ∈ (all s).filter isRegion, Uncrossed a b := by
  have hregions := filter_region_eq hsize
  refine ⟨pairwise_all s, fun f => startLine_lt_endLine hsize, hregions, fun a ha b hb => ?_⟩
  obtain ⟨c, hc, rfl⟩ := List.mem_map.mp (hregions.subset ha)
  obtain ⟨d, hd, rfl⟩ := List.mem_map.mp (hregions.subset hb)
  have hsymm : Std.Symm fun c d => Uncrossed (regionOf s c) (regionOf s d) := ⟨fun _ _ => Uncrossed.symm⟩
  have hpairs : ((seen s).filter (isLong s)).Pairwise fun c d => Uncrossed (regionOf s c) (regionOf s d) :=
    ((hnested.pairwise_places.filter _).filter _).imp_of_mem fun hc _ hleads =>
      uncrossed_of_leads (List.mem_filter.mp hc).2 hleads
  have hself : ∀ c ∈ (seen s).filter (isLong s), Uncrossed (regionOf s c) (regionOf s c) := fun c _ =>
    Or.inr (Or.inl subset_rfl)
  exact hpairs.forall_of_forall hself hc hd

/-- Two arrays in an array. Two of them begin on the first row, two end on the last, and on a row between one ends and
another begins. -/
def pairOfArrays : Source where
  text := "[[\n1\n], [\n2\n]]\n".toList
  parse := .tree <| .mk ⟨"program", true, false, false, 0, 15, none⟩
    [.mk ⟨"array", true, false, false, 0, 14, none⟩
      [.mk ⟨"[", false, false, false, 0, 1, none⟩ [],
        .mk ⟨"array", true, false, false, 1, 6, none⟩ [.mk ⟨"integer", true, false, false, 3, 4, none⟩ []],
        .mk ⟨",", false, false, false, 6, 7, none⟩ [],
        .mk ⟨"array", true, false, false, 8, 13, none⟩ [.mk ⟨"integer", true, false, false, 10, 11, none⟩ []],
        .mk ⟨"]", false, false, false, 13, 14, none⟩ []]]

/-- The outer array comes first, and the fold of the first inner one ends before the second begins. -/
theorem regions_uncrossed_pairOfArrays :
    all pairOfArrays = [⟨0, 3, .region⟩, ⟨0, 1, .region⟩, ⟨2, 3, .region⟩] ∧
      Uncrossed ⟨0, 1, .region⟩ ⟨2, 3, .region⟩ := by
  have hall : all pairOfArrays = [⟨0, 3, .region⟩, ⟨0, 1, .region⟩, ⟨2, 3, .region⟩] := by decide +kernel
  have hsize : pairOfArrays.text.byteSize < UInt32.size := by decide +kernel
  have hnested : pairOfArrays.root.Nested := by decide +kernel
  obtain ⟨-, -, -, huncrossed⟩ := regions_uncrossed hsize hnested
  rw [hall] at huncrossed
  exact ⟨hall, huncrossed ⟨0, 1, .region⟩ (by decide) ⟨2, 3, .region⟩ (by decide)⟩

end RubyServer.Fold
