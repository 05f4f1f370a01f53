import RubyServer.Proofs.Document.Offsets
import RubyServer.Proofs.Store.Commit
import RubyServer.Rehearsal.Documents

/-!
# Changes that come together are made together

Each of several changes is meant for the text that the ones before it have made. They go through if all of them fit the
text they are meant for, and then leave the text of one change after the other (`Change.applyAll_of_not_misfit`); if one
does not, none is made (`Change.applyAll_of_misfit`). Before that the store asks whether the document is open and whether
the version is a later one, and after it whether the text is too large (`Store.change_of_not_open` to
`Store.change_of_fits`). A call that fails leaves everything as it was, and one that succeeds changes no other document
(`change_all_or_nothing`).
-/

namespace RubyServer

namespace Change

variable {t : Text} {c : Change} {changes : List Change}

/-! ## One change -/

/-- A change has a range of which an end is not found in a text, or of which the start is found behind the end. -/
def Misplaced (t : Text) (c : Change) : Prop :=
  ∃ range, c.range = some range ∧
    ((∃ fault, Document.offset? t range.start = .error fault) ∨
      (∃ fault, Document.offset? t range.stop = .error fault) ∨
      ∃ start stop, Document.offset? t range.start = .ok start ∧ Document.offset? t range.stop = .ok stop ∧
        stop < start)

/-- The text with a change made: the characters up to its start, its own text, and the characters from its stop on. A
change with an end that is not found is not made. -/
def edited (t : Text) (c : Change) : Text :=
  match c.range with
  | none => c.text
  | some range =>
    match Document.offset? t range.start, Document.offset? t range.stop with
    | .ok start, .ok stop => t.take start ++ c.text ++ t.drop stop
    | _, _ => t

theorem apply_cases (t : Text) (c : Change) :
    (Misplaced t c ∧ ∃ fault, c.apply t = .error fault) ∨ (¬ Misplaced t c ∧ c.apply t = .ok (edited t c)) := by
  obtain ⟨_ | range, new⟩ := c
  · right
    refine ⟨?_, rfl⟩
    rintro ⟨range, hrange, -⟩
    cases hrange
  · rcases Document.apply_range_cases t range new with
      ⟨fault, hstart, happly⟩ | ⟨start, fault, -, hstop, happly⟩ | ⟨start, stop, hstart, hstop, happly⟩
    · exact Or.inl ⟨⟨range, rfl, Or.inl ⟨fault, hstart⟩⟩, fault, happly⟩
    · exact Or.inl ⟨⟨range, rfl, Or.inr (Or.inl ⟨fault, hstop⟩)⟩, fault, happly⟩
    · by_cases hlt : stop < start
      · rw [if_pos hlt] at happly
        exact Or.inl ⟨⟨range, rfl, Or.inr (Or.inr ⟨start, stop, hstart, hstop, hlt⟩)⟩, _, happly⟩
      · rw [if_neg hlt] at happly
        refine Or.inr ⟨?_, by simp only [happly, edited, hstart, hstop, splice]⟩
        rintro ⟨range', hrange, hno⟩
        obtain rfl := Option.some.inj hrange
        rw [hstart, hstop] at hno
        rcases hno with ⟨_, h⟩ | ⟨_, h⟩ | ⟨start', stop', h, h', hlt'⟩
        · cases h
        · cases h
        · cases h
          cases h'
          exact hlt hlt'

/-! ## Several changes -/

/-- One of several changes is misplaced in the text that the ones before it have made. -/
def Misfit (t : Text) (changes : List Change) : Prop :=
  ∃ before c after, changes = before ++ c :: after ∧ Misplaced (before.foldl edited t) c

theorem not_misfit_nil (t : Text) : ¬ Misfit t [] := by
  rintro ⟨before, c, after, heq, -⟩
  simp at heq

theorem misfit_cons_iff : Misfit t (c :: changes) ↔ Misplaced t c ∨ Misfit (edited t c) changes := by
  constructor
  · rintro ⟨before, c', after, heq, h⟩
    cases before with
    | nil =>
      cases heq
      exact Or.inl h
    | cons d before =>
      cases heq
      exact Or.inr ⟨before, c', after, rfl, h⟩
  · rintro (h | ⟨before, c', after, rfl, h⟩)
    · exact ⟨[], c, changes, rfl, h⟩
    · exact ⟨c :: before, c', after, rfl, h⟩

theorem applyAll_of_misfit (h : Misfit t changes) : ∃ fault, applyAll t changes = .error fault := by
  induction changes generalizing t with
  | nil => exact absurd h (not_misfit_nil t)
  | cons c changes ih =>
    rcases apply_cases t c with ⟨-, fault, happly⟩ | ⟨hplaced, happly⟩
    · exact ⟨fault, by simp only [applyAll, happly, bind, Except.bind]⟩
    · obtain ⟨fault, hall⟩ := ih ((misfit_cons_iff.mp h).resolve_left hplaced)
      exact ⟨fault, by simp only [applyAll, happly, bind, Except.bind, hall]⟩

theorem applyAll_of_not_misfit (h : ¬ Misfit t changes) : applyAll t changes = .ok (changes.foldl edited t) := by
  induction changes generalizing t with
  | nil => rfl
  | cons c changes ih =>
    rw [misfit_cons_iff, not_or] at h
    rcases apply_cases t c with ⟨hmis, -⟩ | ⟨-, happly⟩
    · exact absurd hmis h.1
    · simp only [applyAll, happly, bind, Except.bind, ih h.2, List.foldl_cons]

end Change

/-! ## The checks of the store, in order -/

namespace Store

variable {s : Store} {uri : Uri} {doc : Document} {changes : List Change} {version : Int}

theorem change_of_not_open (h : s.get? uri = none) (changes : List Change) (version : Int) :
    s.change uri changes version = .error (.notOpen uri) := by
  simp only [change, h]

theorem change_of_stale (h : s.get? uri = some doc) (hv : version ≤ doc.version) (changes : List Change) :
    s.change uri changes version = .error (.staleVersion uri doc.version version) := by
  simp only [change, h, if_pos hv]

theorem change_of_misfit (h : s.get? uri = some doc) (hv : doc.version < version)
    (hmis : Change.Misfit doc.text changes) :
    ∃ fault, s.change uri changes version = .error (.invalidRange uri fault) := by
  obtain ⟨fault, happly⟩ := Change.applyAll_of_misfit hmis
  exact ⟨fault, by simp only [change, h, if_neg (Int.not_le.mpr hv), happly]⟩

theorem change_of_too_large (h : s.get? uri = some doc) (hv : doc.version < version)
    (hfit : ¬ Change.Misfit doc.text changes)
    (hsize : s.maxSize < Text.byteSize (changes.foldl Change.edited doc.text)) :
    s.change uri changes version =
      .error (.tooLarge uri (Text.byteSize (changes.foldl Change.edited doc.text)) s.maxSize) := by
  simp only [change, h, if_neg (Int.not_le.mpr hv), Change.applyAll_of_not_misfit hfit, if_pos hsize]

theorem change_of_fits (h : s.get? uri = some doc) (hv : doc.version < version)
    (hfit : ¬ Change.Misfit doc.text changes)
    (hsize : Text.byteSize (changes.foldl Change.edited doc.text) ≤ s.maxSize) :
    s.change uri changes version =
      .ok (s.put uri { doc with version := version, text := changes.foldl Change.edited doc.text },
        .changed uri version) := by
  simp only [change, h, if_neg (Int.not_le.mpr hv), Change.applyAll_of_not_misfit hfit, if_neg (Nat.not_lt.mpr hsize)]
  rfl

end Store

/-! ## A call and what it leaves -/

namespace Rehearsal.ObservedStore

theorem store_unsubscribe (o : ObservedStore) (name : String) : (o.unsubscribe name).store = o.store := by
  unfold unsubscribe
  split <;> rfl

theorem store_notify (event : DocumentEvent) (watcher : Watcher) (o : ObservedStore) :
    (notify event watcher o).store = o.store := by
  unfold notify
  apply List.foldlRecOn (motive := fun o' : ObservedStore => o'.store = o.store)
  · rfl
  · intro o' h name _
    rw [store_unsubscribe, h]

/-- Observers do not touch the store. -/
theorem store_commit (o : ObservedStore) (store : Store) (event : DocumentEvent) :
    (o.commit store event).store = store := by
  unfold commit Registry.dispatch
  apply List.foldlRecOn (motive := fun progress : ObservedStore × Nat => progress.1.store = store)
  · rfl
  · intro progress h observer _
    unfold Registry.turn
    split
    · rw [store_notify, h]
    · exact h

variable {o : ObservedStore} {uri : Uri} {changes : List Change} {version : Int}

theorem change_of_error {e : DocumentError} (h : o.store.change uri changes version = .error e) :
    o.change uri changes version = (o, some e) := by
  simp only [ObservedStore.change, h]

theorem change_of_ok {store : Store} {e : DocumentEvent} (h : o.store.change uri changes version = .ok (store, e)) :
    o.change uri changes version = (o.commit store e, none) := by
  simp only [ObservedStore.change, h]

/-- **All or nothing.** A change is refused for the first of these reasons: the document is not open, the version is no
later one, one of the changes does not fit the text that the ones before it have made, the text after all of them is too
large. Otherwise it succeeds, and the document has the version and the text of one change after the other. A change that
is refused leaves everything as it was, and one that succeeds leaves all other documents as they were. -/
theorem change_all_or_nothing (o : ObservedStore) (uri : Uri) (changes : List Change) (version : Int) :
    let after := (o.change uri changes version).1
    let error? := (o.change uri changes version).2
    (error? = some (.notOpen uri) ↔ o.store.get? uri = none) ∧
    (∀ doc, o.store.get? uri = some doc →
      let text := changes.foldl Change.edited doc.text
      (error? = some (.staleVersion uri doc.version version) ↔ version ≤ doc.version) ∧
      ((∃ fault, error? = some (.invalidRange uri fault)) ↔
        doc.version < version ∧ Change.Misfit doc.text changes) ∧
      (error? = some (.tooLarge uri (Text.byteSize text) o.store.maxSize) ↔
        doc.version < version ∧ ¬ Change.Misfit doc.text changes ∧ o.store.maxSize < Text.byteSize text) ∧
      (error? = none ↔
        doc.version < version ∧ ¬ Change.Misfit doc.text changes ∧ Text.byteSize text ≤ o.store.maxSize) ∧
      (error? = none → after.store.get? uri = some { doc with version := version, text := text })) ∧
    (error? ≠ none → after = o) ∧
    ∀ uri', uri' ≠ uri → after.store.get? uri' = o.store.get? uri' := by
  intro after error?
  cases hdoc : o.store.get? uri with
  | none =>
    have hr := change_of_error (Store.change_of_not_open hdoc changes version)
    simp [after, error?, hr]
  | some doc =>
    by_cases hv : version ≤ doc.version
    · have hr := change_of_error (Store.change_of_stale hdoc hv changes)
      simp [after, error?, hr, hv]
    · have hlt := Int.not_le.mp hv
      by_cases hmis : Change.Misfit doc.text changes
      · obtain ⟨fault, herror⟩ := Store.change_of_misfit hdoc hlt hmis
        have hr := change_of_error herror
        simp [after, error?, hr, hlt, hmis]
      · by_cases hsize : o.store.maxSize < Text.byteSize (changes.foldl Change.edited doc.text)
        · have hr := change_of_error (Store.change_of_too_large hdoc hlt hmis hsize)
          simp [after, error?, hr, hlt, hmis, hsize]
        · have hle := Nat.not_lt.mp hsize
          have hr := change_of_ok (Store.change_of_fits hdoc hlt hmis hle)
          have hothers (new : Document) (uri' : Uri) (hne : uri' ≠ uri) :
              (o.store.put uri new).get? uri' = o.store.get? uri' := Store.get?_put_of_ne o.store new (Ne.symm hne)
          simpa [after, error?, hr, hlt, hmis, hle, store_commit] using hothers _

end Rehearsal.ObservedStore

end RubyServer
