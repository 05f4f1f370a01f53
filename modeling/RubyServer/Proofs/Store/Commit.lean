import RubyServer.Store

/-!
# What a committed change of the store does

A call that succeeds puts one document in place or takes one away, and says so in one event. The inversion lemmas
(`openItem_eq_ok`, `change_eq_ok`, `close_eq_some`) list what was checked on the way; `Commits` is what they have in
common, and `Commits.get?_of_ne` says that no other document is touched.
-/

namespace RubyServer.Store

variable {s s' : Store} {uri : Uri} {e : DocumentEvent}

/-- The store with a document in place of the one it had under a uri. -/
def put (s : Store) (uri : Uri) (doc : Document) : Store := { s with documents := s.documents.insert uri doc }

@[simp] theorem get?_put_self (s : Store) (uri : Uri) (doc : Document) : (s.put uri doc).get? uri = some doc :=
  Table.get?_insert_self _ _ _

theorem get?_put_of_ne (s : Store) {uri uri' : Uri} (doc : Document) (h : uri ≠ uri') :
    (s.put uri doc).get? uri' = s.get? uri' := by
  show (s.documents.insert uri doc).get? uri' = s.get? uri'
  rw [Table.get?_insert, if_neg h]
  rfl

/-- The store without a document. -/
def without (s : Store) (uri : Uri) : Store := { s with documents := s.documents.erase uri }

@[simp] theorem get?_without_self (s : Store) (uri : Uri) : (s.without uri).get? uri = none :=
  Table.get?_erase_self _ _

theorem get?_without_of_ne (s : Store) {uri uri' : Uri} (h : uri ≠ uri') : (s.without uri).get? uri' = s.get? uri' := by
  show (s.documents.erase uri).get? uri' = s.get? uri'
  rw [Table.get?_erase, if_neg h]
  rfl

/-- A successful opening: the text fits, and an open document is replaced by a later version. -/
theorem openItem_eq_ok {item : DocumentItem} (h : s.openItem item = .ok (s', e)) :
    Text.byteSize item.text ≤ s.maxSize ∧ (∀ doc, s.get? item.uri = some doc → doc.version < item.version) ∧
      s' = s.put item.uri ⟨item.version, item.languageId, item.text⟩ ∧ e = .opened item.uri item.version := by
  unfold openItem at h
  simp only at h
  split at h
  · cases h
  · next hsize =>
    cases hdoc : s.get? item.uri with
    | none =>
      rw [hdoc] at h
      cases h
      exact ⟨Nat.not_lt.mp hsize, fun _ hd => (by cases hd), rfl, rfl⟩
    | some current =>
      rw [hdoc] at h
      simp only at h
      split at h
      · cases h
      · next hv =>
        cases h
        refine ⟨Nat.not_lt.mp hsize, fun doc hd => ?_, rfl, rfl⟩
        cases hd
        exact Int.not_le.mp hv

/-- Conversely, whatever fits is opened, unless there is such a version or a later one. -/
theorem openItem_of_fits {item : DocumentItem} (hsize : Text.byteSize item.text ≤ s.maxSize)
    (hnew : ∀ doc, s.get? item.uri = some doc → doc.version < item.version) :
    s.openItem item =
      .ok (s.put item.uri ⟨item.version, item.languageId, item.text⟩, .opened item.uri item.version) := by
  unfold openItem
  simp only [if_neg (Nat.not_lt.mpr hsize)]
  cases hdoc : s.get? item.uri with
  | none => rfl
  | some doc => exact if_neg (Int.not_le.mpr (hnew doc hdoc))

/-- A successful change: the document is open at an earlier version, every range is found, and the new text fits. -/
theorem change_eq_ok {changes : List Change} {version : Int} (h : s.change uri changes version = .ok (s', e)) :
    ∃ doc text, s.get? uri = some doc ∧ doc.version < version ∧ Change.applyAll doc.text changes = .ok text ∧
      Text.byteSize text ≤ s.maxSize ∧ s' = s.put uri { doc with version := version, text := text } ∧
      e = .changed uri version := by
  unfold change at h
  cases hdoc : s.get? uri with
  | none => rw [hdoc] at h; cases h
  | some doc =>
    rw [hdoc] at h
    simp only at h
    split at h
    · cases h
    · next hv =>
      cases happly : Change.applyAll doc.text changes with
      | error fault => rw [happly] at h; cases h
      | ok text =>
        rw [happly] at h
        simp only at h
        split at h
        · cases h
        · next hsize =>
          cases h
          exact ⟨doc, text, rfl, Int.not_le.mp hv, happly, Nat.not_lt.mp hsize, rfl, rfl⟩

/-- A successful closing. -/
theorem close_eq_some (h : s.close uri = some (s', e)) :
    (∃ doc, s.get? uri = some doc) ∧ s' = s.without uri ∧ e = .closed uri := by
  unfold close at h
  split at h
  · next hc =>
    cases h
    exact ⟨Option.isSome_iff_exists.mp hc, rfl, rfl⟩
  · cases h

/-! ## Commits -/

/-- What calls that succeed have in common: a document is put in place under an event with its version, or an open one
is taken away. -/
inductive Commits (s : Store) : Store → DocumentEvent → Prop
  | opened {uri : Uri} {doc : Document} : (∀ old, s.get? uri = some old → old.version < doc.version) →
      Commits s (s.put uri doc) (.opened uri doc.version)
  | changed {uri : Uri} {doc old : Document} : s.get? uri = some old → old.version < doc.version →
      Commits s (s.put uri doc) (.changed uri doc.version)
  | closed {uri : Uri} {old : Document} : s.get? uri = some old → Commits s (s.without uri) (.closed uri)

theorem commits_of_openItem {item : DocumentItem} (h : s.openItem item = .ok (s', e)) : Commits s s' e := by
  obtain ⟨-, hv, rfl, rfl⟩ := openItem_eq_ok h
  exact .opened hv

theorem commits_of_change {changes : List Change} {version : Int} (h : s.change uri changes version = .ok (s', e)) :
    Commits s s' e := by
  obtain ⟨doc, text, hdoc, hv, -, -, rfl, rfl⟩ := change_eq_ok h
  exact .changed hdoc hv

theorem commits_of_close (h : s.close uri = some (s', e)) : Commits s s' e := by
  obtain ⟨⟨doc, hdoc⟩, rfl, rfl⟩ := close_eq_some h
  exact .closed hdoc

/-- A commit leaves all other documents alone. -/
theorem Commits.get?_of_ne (h : Commits s s' e) {uri' : Uri} (hne : e.uri ≠ uri') : s'.get? uri' = s.get? uri' := by
  cases h with
  | opened _ => exact get?_put_of_ne s _ hne
  | changed _ _ => exact get?_put_of_ne s _ hne
  | closed _ => exact get?_without_of_ne s hne

end RubyServer.Store
