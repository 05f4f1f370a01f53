import Mathlib.Logic.Basic
import RubyServer.Order
import RubyServer.Span

/-!
# Sorting by points

What a text reports is sorted by where it starts, and what starts together stays in the order in which it was found
(`StablySorted`). There is one way to sort a list so (`StablySorted.unique`), and `sortBy` does it (`stablySorted_sortBy`).
-/

namespace RubyServer

namespace Point

theorem le_trans {p q r : Point} (hpq : p ≤ q) (hqr : q ≤ r) : p ≤ r := by
  rcases (show _ ∨ _ from hpq) with h | h <;> rcases (show _ ∨ _ from hqr) with h' | h' <;>
    show _ ∨ _ <;> omega

theorem le_total (p q : Point) : p ≤ q ∨ q ≤ p := by
  show (_ ∨ _) ∨ (_ ∨ _)
  omega

theorem le_antisymm {p q : Point} (hpq : p ≤ q) (hqp : q ≤ p) : p = q := by
  obtain ⟨row, column⟩ := p
  obtain ⟨row', column'⟩ := q
  rcases (show _ ∨ _ from hpq) with h | h <;> rcases (show _ ∨ _ from hqp) with h' | h' <;> simp only at h h'
  · omega
  · omega
  · omega
  · exact congrArg₂ Point.mk h.1 (by omega)

end Point

/-- A list sorted by points: a rearrangement in the order of the points, with the old order where they are equal. -/
structure StablySorted {α : Type} (key : α → Point) (l sorted : List α) : Prop where
  perm : sorted.Perm l
  ordered : sorted.Pairwise fun a b => key a ≤ key b
  stable : ∀ p, sorted.filter (fun a => key a = p) = l.filter fun a => key a = p

/-- Lists in order that agree on what stands at each point are equal. -/
theorem eq_of_ordered {α : Type} {key : α → Point} {a b : List α} (ha : a.Pairwise fun x y => key x ≤ key y)
    (hb : b.Pairwise fun x y => key x ≤ key y)
    (h : ∀ p, a.filter (fun x => key x = p) = b.filter fun x => key x = p) : a = b := by
  induction a generalizing b with
  | nil =>
    cases b with
    | nil => rfl
    | cons y b =>
      have hy := h (key y)
      simp at hy
  | cons x a ih =>
    cases b with
    | nil =>
      have hx := h (key x)
      simp at hx
    | cons y b =>
      obtain ⟨hx, hrest⟩ := List.pairwise_cons.mp ha
      obtain ⟨hy, hrest'⟩ := List.pairwise_cons.mp hb
      -- both begin at the least point, so that the first items at it are their first items
      have hmem (z : α) : z ∈ x :: a ↔ z ∈ y :: b := by
        have hz := congrArg (z ∈ ·) (h (key z))
        simpa using hz
      have hxy : key x ≤ key y := by
        rcases List.mem_cons.mp ((hmem y).mpr List.mem_cons_self) with rfl | hm
        · exact Or.inr ⟨rfl, Nat.le_refl _⟩
        · exact hx y hm
      have hyx : key y ≤ key x := by
        rcases List.mem_cons.mp ((hmem x).mp List.mem_cons_self) with rfl | hm
        · exact Or.inr ⟨rfl, Nat.le_refl _⟩
        · exact hy x hm
      have hkey : key y = key x := Point.le_antisymm hyx hxy
      have hfirst := h (key x)
      rw [List.filter_cons_of_pos (by simp), List.filter_cons_of_pos (by simp [hkey])] at hfirst
      obtain ⟨rfl, -⟩ := List.cons.inj hfirst
      refine congrArg (x :: ·) (ih hrest hrest' fun p => ?_)
      have hp := h p
      rw [List.filter_cons, List.filter_cons] at hp
      split at hp
      · exact (List.cons.inj hp).2
      · exact hp

/-- There is one way to sort a list by points. -/
theorem StablySorted.unique {α : Type} {key : α → Point} {l a b : List α} (ha : StablySorted key l a)
    (hb : StablySorted key l b) : a = b :=
  eq_of_ordered ha.ordered hb.ordered fun p => (ha.stable p).trans (hb.stable p).symm

section SortBy

variable {α : Type} (key : α → Point)

theorem decide_key_total (a b : α) : decide (key a ≤ key b) = true ∨ decide (key b ≤ key a) = true := by
  simpa using Point.le_total (key a) (key b)

theorem decide_key_trans (a b c : α) (hab : decide (key a ≤ key b) = true) (hbc : decide (key b ≤ key c) = true) :
    decide (key a ≤ key c) = true :=
  decide_eq_true (Point.le_trans (of_decide_eq_true hab) (of_decide_eq_true hbc))

theorem stablySorted_sortBy (l : List α) : StablySorted key l (sortBy (fun a b => key a ≤ key b) l) := by
  refine ⟨sortBy_perm _ l, ?_, fun p => ?_⟩
  · exact (sortBy_pairwise (decide_key_total key) (decide_key_trans key) l).imp of_decide_eq_true
  · apply filter_sortBy_of_tied (decide_key_total key) (decide_key_trans key)
    intro a b ha hb
    rw [of_decide_eq_true ha, of_decide_eq_true hb]
    exact decide_eq_true (Or.inr ⟨rfl, Nat.le_refl _⟩)

end SortBy

/-- Sorting by points is what `sortBy` does, and nothing else. -/
theorem stablySorted_sortBy_iff {α : Type} {key : α → Point} {l sorted : List α} :
    StablySorted key l sorted ↔ sorted = sortBy (fun a b => key a ≤ key b) l := by
  have h := stablySorted_sortBy key l
  exact ⟨fun hsorted => hsorted.unique h, fun hsorted => hsorted ▸ h⟩

end RubyServer
