/-!
# Stable sorting

`sortBy le` sorts by insertion and keeps the order of what `le` does not tell apart. The result is a rearrangement of
the list (`sortBy_perm`), and it is in order whenever `le` is total and transitive (`sortBy_pairwise`). Then it makes no
difference whether items are left out before the sort or after it (`filter_sortBy`), so that items which may all precede
each other stay in the order they had (`filter_sortBy_of_tied`).
-/

namespace RubyServer

/-- Puts an item in front of the first one that it may precede. -/
def insertBy (le : α → α → Bool) (a : α) : List α → List α
  | [] => [a]
  | b :: l => if le a b then a :: b :: l else b :: insertBy le a l

/-- A list in order; items that may precede each other keep their places. -/
def sortBy (le : α → α → Bool) : List α → List α
  | [] => []
  | a :: l => insertBy le a (sortBy le l)

theorem insertBy_perm (le : α → α → Bool) (a : α) : ∀ l : List α, (insertBy le a l).Perm (a :: l)
  | [] => .refl _
  | b :: l => by
    unfold insertBy
    split
    · exact .refl _
    · exact ((insertBy_perm le a l).cons b).trans (.swap a b l)

theorem sortBy_perm (le : α → α → Bool) : ∀ l : List α, (sortBy le l).Perm l
  | [] => .refl _
  | a :: l => (insertBy_perm le a _).trans ((sortBy_perm le l).cons a)

theorem mem_sortBy {le : α → α → Bool} {a : α} {l : List α} : a ∈ sortBy le l ↔ a ∈ l := (sortBy_perm le l).mem_iff

section Sorted

variable {le : α → α → Bool} (total : ∀ a b, le a b = true ∨ le b a = true)
  (trans : ∀ a b c, le a b = true → le b c = true → le a c = true)

include total trans

theorem insertBy_pairwise (a : α) :
    ∀ {l : List α}, l.Pairwise (fun x y => le x y = true) → (insertBy le a l).Pairwise (fun x y => le x y = true)
  | [], _ => by simp [insertBy]
  | b :: l, h => by
    obtain ⟨hb, hl⟩ := List.pairwise_cons.mp h
    unfold insertBy
    split
    · next hab => exact List.pairwise_cons.mpr ⟨fun x hx => (List.mem_cons.mp hx).elim (· ▸ hab)
        fun hx => trans a b x hab (hb x hx), h⟩
    · next hab =>
      have hba : le b a = true := (total b a).resolve_right hab
      refine List.pairwise_cons.mpr ⟨fun x hx => ?_, insertBy_pairwise a hl⟩
      exact (List.mem_cons.mp ((insertBy_perm le a l).mem_iff.mp hx)).elim (· ▸ hba) (hb x)

/-- A sorted list is in order. -/
theorem sortBy_pairwise : ∀ l : List α, (sortBy le l).Pairwise (fun x y => le x y = true)
  | [] => .nil
  | a :: l => insertBy_pairwise total trans a (sortBy_pairwise l)

end Sorted

/-! ## Stability -/

section Stable

variable {le : α → α → Bool} {keep : α → Bool} {a : α} {l : List α}

theorem insertBy_of_forall_le (h : ∀ b ∈ l, le a b = true) : insertBy le a l = a :: l := by
  cases l with
  | nil => rfl
  | cons b l => rw [insertBy, if_pos (h b List.mem_cons_self)]

/-- A list that is in order stays as it is. -/
theorem sortBy_of_pairwise (h : l.Pairwise fun x y => le x y = true) : sortBy le l = l := by
  induction l with
  | nil => rfl
  | cons a l ih =>
    obtain ⟨ha, hl⟩ := List.pairwise_cons.mp h
    rw [sortBy, ih hl, insertBy_of_forall_le ha]

theorem filter_insertBy_of_neg (ha : keep a = false) : (insertBy le a l).filter keep = l.filter keep := by
  induction l with
  | nil => simp [insertBy, ha]
  | cons b l ih =>
    unfold insertBy
    split
    · rw [List.filter_cons_of_neg (by simp [ha])]
    · rw [List.filter_cons, List.filter_cons, ih]

section Sorted

variable (total : ∀ a b, le a b = true ∨ le b a = true) (trans : ∀ a b c, le a b = true → le b c = true → le a c = true)

include trans

theorem filter_insertBy_of_pos (ha : keep a = true) (h : l.Pairwise fun x y => le x y = true) :
    (insertBy le a l).filter keep = insertBy le a (l.filter keep) := by
  induction l with
  | nil => simp [insertBy, ha]
  | cons b l ih =>
    obtain ⟨hb, hl⟩ := List.pairwise_cons.mp h
    by_cases hab : le a b = true
    · -- whatever is left of the list, all of it may stand behind the new item
      have hall : ∀ x ∈ (b :: l).filter keep, le a x = true := by
        intro x hx
        rcases List.mem_cons.mp (List.mem_filter.mp hx).1 with rfl | hx
        · exact hab
        · exact trans a b x hab (hb x hx)
      rw [insertBy, if_pos hab, List.filter_cons_of_pos ha, insertBy_of_forall_le hall]
    · rw [insertBy, if_neg hab, List.filter_cons, List.filter_cons, ih hl]
      split
      · rw [insertBy, if_neg hab]
      · rfl

include total

/-- Leaving items out and sorting go in either order. -/
theorem filter_sortBy (keep : α → Bool) (l : List α) : (sortBy le l).filter keep = sortBy le (l.filter keep) := by
  induction l with
  | nil => rfl
  | cons a l ih =>
    rw [sortBy]
    cases ha : keep a with
    | false => rw [filter_insertBy_of_neg ha, ih, List.filter_cons_of_neg (by simp [ha])]
    | true =>
      rw [filter_insertBy_of_pos trans ha (sortBy_pairwise total trans l), ih, List.filter_cons_of_pos ha, sortBy]

/-- Items that may all precede each other keep their order. -/
theorem filter_sortBy_of_tied (h : ∀ a b, keep a = true → keep b = true → le a b = true) (l : List α) :
    (sortBy le l).filter keep = l.filter keep := by
  rw [filter_sortBy total trans]
  apply sortBy_of_pairwise
  apply List.pairwise_of_forall_mem_list
  intro a ha b hb
  exact h a b (List.mem_filter.mp ha).2 (List.mem_filter.mp hb).2

end Sorted

end Stable

end RubyServer
