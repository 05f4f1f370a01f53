import RubyServer.Proofs.Forest.Detached

/-!
# What the forest counts

A forest counts the requests that it serves from what it holds, the documents that it parses, and the trees that it drops.
Every operation is entered in its books (`Booked`): a request that is answered is either served or parsed, and a tree that
is parsed is held until it is dropped. But two things are not as the counters have them. Trees go without being counted as
dropped, when all are released or a later version takes the place of one; and a slot that is taken away is counted as
dropped also if it is vacant, though the tree that was in it has been counted already.

So over any run, listening or not, requests balance, and what is dropped or held is what was parsed, with the vacant slots
that were taken away and less the trees that were lost (`counters_balance`).
-/

namespace RubyServer

namespace Table

variable {κ α : Type} [DecidableEq κ]

theorem length_filter_put (p : α → Bool) (k : κ) (a : α) (l : List (κ × α)) :
    ((put k a l).filter fun e => p e.2).length + ((find? k l).any p).toNat =
      (l.filter fun e => p e.2).length + (p a).toNat := by
  induction l with
  | nil => cases h : p a <;> simp [put, find?, h]
  | cons e l ih =>
    obtain ⟨k', b⟩ := e
    by_cases hk : k' = k
    · simp only [put, find?, if_pos hk, List.filter_cons, Option.any_some]
      cases p a <;> cases p b <;> simp
    · simp only [put, find?, if_neg hk, List.filter_cons]
      cases p b
      · exact ih
      · simp only [if_true, List.length_cons]
        omega

theorem length_filter_filter_ne (p : α → Bool) (k : κ) (l : List (κ × α)) (hl : (l.map Prod.fst).Nodup) :
    ((l.filter fun e => e.1 ≠ k).filter fun e => p e.2).length + ((find? k l).any p).toNat =
      (l.filter fun e => p e.2).length := by
  induction l with
  | nil => rfl
  | cons e l ih =>
    obtain ⟨k', b⟩ := e
    rw [List.map_cons, List.nodup_cons] at hl
    have ih := ih hl.2
    by_cases hk : k' = k
    · -- the key does not occur again, so that nothing else goes
      subst hk
      rw [find?_eq_none hl.1] at ih
      rw [List.filter_cons_of_neg (by simp), find?, if_pos rfl, List.filter_cons, Option.any_some]
      cases p b
      · exact ih
      · exact congrArg (· + 1) ih
    · rw [List.filter_cons_of_pos (by simpa using hk), find?, if_neg hk, List.filter_cons, List.filter_cons]
      cases p b
      · exact ih
      · simp only [if_true, List.length_cons]
        omega

end Table

namespace Forest

variable {f f' f'' : Forest} {uri : Uri}

/-- Whether a document has a slot without a tree. -/
def isVacant (f : Forest) (uri : Uri) : Bool := (f.slots.get? uri).any Option.isNone

/-- Whether the tree that is held for an open document is of an earlier version. -/
def isOutdated (store : Store) (f : Forest) (uri : Uri) : Bool :=
  (store.get? uri).any fun doc => (f.cached? uri).any fun held => held.version < doc.version

/-! ## Trees held -/

theorem any_isSome_get? (f : Forest) (uri : Uri) : (f.slots.get? uri).any Option.isSome = (f.cached? uri).isSome := by
  unfold cached?
  cases f.slots.get? uri <;> rfl

theorem cachedCount_insert (f : Forest) (uri : Uri) (tree : Option ParsedDocument) :
    cachedCount { f with slots := f.slots.insert uri tree } + (f.cached? uri).isSome.toNat =
      f.cachedCount + tree.isSome.toNat := by
  have hput := Table.length_filter_put Option.isSome uri tree f.slots.entries
  rwa [show Table.find? uri f.slots.entries = f.slots.get? uri from rfl, any_isSome_get?] at hput

theorem cachedCount_erase (f : Forest) (uri : Uri) :
    cachedCount { f with slots := f.slots.erase uri } + (f.cached? uri).isSome.toNat = f.cachedCount := by
  have herase := Table.length_filter_filter_ne Option.isSome uri f.slots.entries f.slots.nodup
  rwa [show Table.find? uri f.slots.entries = f.slots.get? uri from rfl, any_isSome_get?] at herase

/-! ## The books -/

/-- What happens to the counters of a forest: so many requests are answered, so many vacant slots are taken away, and so
many trees are lost. -/
structure Booked (f f' : Forest) (answered vacated lost : Nat) : Prop where
  requests : f'.hits + f'.parses = f.hits + f.parses + answered
  trees : f'.invalidations + f'.cachedCount + lost + f.parses = f.invalidations + f.cachedCount + vacated + f'.parses

theorem Booked.refl (f : Forest) : Booked f f 0 0 0 := ⟨rfl, rfl⟩

theorem Booked.trans {answered vacated lost answered' vacated' lost' : Nat} (h : Booked f f' answered vacated lost)
    (h' : Booked f' f'' answered' vacated' lost') :
    Booked f f'' (answered + answered') (vacated + vacated') (lost + lost') := by
  obtain ⟨hrequests, htrees⟩ := h
  obtain ⟨hrequests', htrees'⟩ := h'
  exact ⟨by omega, by omega⟩

theorem booked_get? (parse : Grammar) (store : Store) (f : Forest) (uri : Uri) :
    Booked f (f.get? parse store uri).2 (f.get? parse store uri).1.isSome.toNat 0 (f.isOutdated store uri).toNat := by
  unfold get? isOutdated
  cases hdoc : store.get? uri with
  | none => exact .refl f
  | some doc =>
    -- a parse adds a tree, and one that was held goes
    have hinsert := f.cachedCount_insert uri (some (doc.parsed parse uri))
    have hparse : Booked f { f with slots := f.slots.insert uri (some (doc.parsed parse uri)), parses := f.parses + 1 }
        1 0 (f.cached? uri).isSome.toNat := by
      refine ⟨rfl, ?_⟩
      simp only [cachedCount, Option.isSome_some, Bool.toNat_true] at hinsert ⊢
      omega
    cases hheld : f.cached? uri with
    | none =>
      rw [hheld] at hparse
      exact hparse
    | some held =>
      by_cases hv : doc.version ≤ held.version
      · simp only [if_pos hv, Option.any_some, Int.not_lt.mpr hv, decide_false]
        exact ⟨Nat.add_right_comm _ _ _, rfl⟩
      · simp only [if_neg hv, Option.any_some, Int.not_le.mp hv, decide_true]
        rw [hheld] at hparse
        exact hparse

theorem booked_invalidate (f : Forest) (uri : Uri) : Booked f (f.invalidate uri) 0 0 0 := by
  unfold invalidate
  cases hheld : f.cached? uri with
  | none => exact .refl f
  | some held =>
    have hinsert := f.cachedCount_insert uri none
    refine ⟨rfl, ?_⟩
    simp only [cachedCount, hheld, Option.isSome_some, Option.isSome_none, Bool.toNat_true, Bool.toNat_false] at hinsert ⊢
    omega

theorem booked_remove (f : Forest) (uri : Uri) : Booked f (f.remove uri) 0 (f.isVacant uri).toNat 0 := by
  have herase := f.cachedCount_erase uri
  unfold cached? at herase
  unfold remove isVacant Table.contains
  cases hslot : f.slots.get? uri with
  | none => exact .refl f
  | some tree =>
    rw [hslot] at herase
    refine ⟨rfl, ?_⟩
    cases tree with
    | none =>
      simp [cachedCount] at herase ⊢
      omega
    | some held =>
      simp [cachedCount] at herase ⊢
      omega

theorem booked_releaseAll (f : Forest) : Booked f f.releaseAll 0 0 f.cachedCount :=
  ⟨rfl, by simp [releaseAll, cachedCount, EmptyCollection.emptyCollection, Table.empty]⟩

end Forest

namespace Workspace

variable {tools : Tools} {w : Workspace}

/-! ## Acts -/

/-- The requests that an act makes and that are answered. -/
def answered (tools : Tools) (w : Workspace) : Act → Nat
  | .get uri => (w.tree? tools uri).1.isSome.toNat
  | _ => 0

/-- The vacant slots that an act takes away. A workspace that listens takes away the slot of a document that is closed. -/
def vacated (w : Workspace) : Act → Nat
  | .remove uri => (w.forest.isVacant uri).toNat
  | .close uri => (w.listening && w.store.contains uri && w.forest.isVacant uri).toNat
  | _ => 0

/-- The trees that an act drops without counting them: one of an earlier version that is replaced, or all that are held. -/
def lost (w : Workspace) : Act → Nat
  | .get uri => (w.forest.isOutdated w.store uri).toNat
  | .releaseAll => w.forest.cachedCount
  | _ => 0

/-- What acts add up to, each counted in the workspace that it finds. -/
def total (tools : Tools) (count : Workspace → Act → Nat) : Workspace → List Act → Nat
  | _, [] => 0
  | w, a :: acts => count w a + total tools count (w.act tools a) acts

/-- A document that is opened or changed loses the tree that was held for it. -/
theorem booked_commit (w : Workspace) {r : Except DocumentError (Store × DocumentEvent)}
    (hr : ∀ store e, r = .ok (store, e) → ∀ uri, e ≠ .closed uri) : w.forest.Booked (w.commit r).1.forest 0 0 0 := by
  cases r with
  | error e => exact .refl _
  | ok result =>
    obtain ⟨store, e⟩ := result
    show w.forest.Booked ({ w with store := store }.react e).forest 0 0 0
    unfold react
    split
    · cases e with
      | opened uri version => exact Forest.booked_invalidate w.forest uri
      | changed uri version => exact Forest.booked_invalidate w.forest uri
      | closed uri => exact absurd rfl (hr store _ rfl uri)
    · exact .refl _

/-- A document that is closed loses its slot, if the workspace listens. -/
theorem booked_close (w : Workspace) (uri : Uri) : w.forest.Booked (w.close uri).1.forest 0
    (w.listening && w.store.contains uri && w.forest.isVacant uri).toNat 0 := by
  unfold close Store.close
  cases hopen : w.store.contains uri with
  | false =>
    rw [Bool.and_false, Bool.false_and]
    exact .refl _
  | true =>
    show w.forest.Booked ({ w with store := w.store.without uri }.react (.closed uri)).forest 0 _ 0
    unfold react
    cases w.listening with
    | false => exact .refl _
    | true => exact Forest.booked_remove w.forest uri

/-- What an act does to the counters. -/
theorem booked_act (tools : Tools) (w : Workspace) (a : Act) :
    w.forest.Booked (w.act tools a).forest (w.answered tools a) (w.vacated a) (w.lost a) := by
  cases a with
  | openItem item =>
    refine booked_commit w ?_
    intro store e ho uri
    obtain ⟨-, -, -, rfl⟩ := Store.openItem_eq_ok ho
    rintro ⟨⟩
  | change uri changes version =>
    refine booked_commit w ?_
    intro store e hc uri'
    obtain ⟨-, -, -, -, -, -, -, rfl⟩ := Store.change_eq_ok hc
    rintro ⟨⟩
  | close uri => exact booked_close w uri
  | get uri => exact Forest.booked_get? tools.parse w.store w.forest uri
  | invalidate uri => exact Forest.booked_invalidate w.forest uri
  | remove uri => exact Forest.booked_remove w.forest uri
  | releaseAll => exact Forest.booked_releaseAll w.forest

/-- What acts do to the counters, one after the other. -/
theorem booked_foldl (tools : Tools) (w : Workspace) (acts : List Act) :
    w.forest.Booked (acts.foldl (act tools) w).forest (total tools (answered tools) w acts)
      (total tools vacated w acts) (total tools lost w acts) := by
  induction acts generalizing w with
  | nil => exact .refl _
  | cons a acts ih => exact (booked_act tools w a).trans (ih _)

/-- **What the forest counts.** After any acts of a workspace, listening or not, that starts without documents: hits and
parses together are the requests that were answered; and what was counted as dropped and what is held, with the trees that
were lost, are the parses with the vacant slots that were taken away. So what was counted as dropped and what is held are
together at most the parses exactly if there were not more vacant slots taken away than trees lost. -/
theorem counters_balance (tools : Tools) (options : Options) (listening : Bool) (acts : List Act) :
    let start := ofOptions options listening
    let forest := (acts.foldl (act tools) start).forest
    forest.hits + forest.parses = total tools (answered tools) start acts ∧
    forest.invalidations + forest.cachedCount + total tools lost start acts =
      forest.parses + total tools vacated start acts ∧
    (forest.invalidations + forest.cachedCount ≤ forest.parses ↔
      total tools vacated start acts ≤ total tools lost start acts) := by
  intro start forest
  have hbooked : Forest.Booked {} forest (total tools (answered tools) start acts) (total tools vacated start acts)
      (total tools lost start acts) := booked_foldl tools start acts
  have hrequests : forest.hits + forest.parses = 0 + 0 + total tools (answered tools) start acts := hbooked.requests
  have htrees : forest.invalidations + forest.cachedCount + total tools lost start acts + 0 =
      0 + 0 + total tools vacated start acts + forest.parses := hbooked.trees
  exact ⟨by omega, by omega, by omega⟩

/-- A tree is dropped, and then its slot is taken away. -/
def droppedTwice : List Act :=
  [.openItem ⟨"file:///a.rb", 1, "ruby", "a".toList⟩, .get "file:///a.rb", .invalidate "file:///a.rb",
    .remove "file:///a.rb"]

/-- A document is asked for, changed, and closed. -/
def changedAndClosed : List Act :=
  [.openItem ⟨"file:///a.rb", 1, "ruby", "a".toList⟩, .get "file:///a.rb",
    .change "file:///a.rb" [⟨none, "b".toList⟩] 2, .close "file:///a.rb"]

/-- The one tree that was parsed is counted as dropped twice, by hand or by a workspace that listens. -/
theorem counters_balance_vacated :
    ¬ (detached flat {} droppedTwice).forest.invalidations + (detached flat {} droppedTwice).forest.cachedCount ≤
        (detached flat {} droppedTwice).forest.parses ∧
    ¬ (afterActs flat {} changedAndClosed).forest.invalidations + (afterActs flat {} changedAndClosed).forest.cachedCount ≤
        (afterActs flat {} changedAndClosed).forest.parses := by
  obtain ⟨-, -, hbyHand⟩ := counters_balance flat {} false droppedTwice
  obtain ⟨-, -, hlistening⟩ := counters_balance flat {} true changedAndClosed
  exact ⟨fun h => absurd (hbyHand.mp h) (by decide), fun h => absurd (hlistening.mp h) (by decide)⟩

end Workspace

end RubyServer
