import RubyServer.Proofs.Store.Commit
import RubyServer.Workspace

/-!
# The forest keeps up with the store

While a workspace listens to its documents, a tree that is held is the parse of the document as it is stored, version
and all (`Fresh`): every committed change drops the tree it makes old (`Fresh.react`), and what is parsed anew is fresh
(`Fresh.get?`). So whatever happens to the documents and the trees, and in whatever order, asking for a tree gives the
parse of the current text (`tree?_eq_of_acts`).

Version numbers alone would not do: a document that is closed and opened again may come back at a version it had
before.
-/

namespace RubyServer

/-- A document, parsed. -/
def Document.parsed (parse : Grammar) (uri : Uri) (doc : Document) : ParsedDocument :=
  ⟨uri, doc.version, ⟨doc.text, parse doc.text⟩⟩

namespace Forest

variable {parse : Grammar} {store store' : Store} {f : Forest}

/-! ## The tree held after each operation -/

theorem cached?_invalidate (f : Forest) (uri uri' : Uri) :
    (f.invalidate uri).cached? uri' = if uri = uri' then none else f.cached? uri' := by
  unfold invalidate
  cases h : f.cached? uri with
  | none =>
    by_cases hu : uri = uri'
    · subst hu
      rw [if_pos rfl]
      exact h
    · rw [if_neg hu]
  | some tree =>
    show ((f.slots.insert uri none).get? uri').bind id = _
    rw [Table.get?_insert]
    by_cases hu : uri = uri'
    · rw [if_pos hu, if_pos hu]
      rfl
    · rw [if_neg hu, if_neg hu]
      rfl

theorem cached?_remove (f : Forest) (uri uri' : Uri) :
    (f.remove uri).cached? uri' = if uri = uri' then none else f.cached? uri' := by
  unfold remove
  split
  · show ((f.slots.erase uri).get? uri').bind id = _
    rw [Table.get?_erase]
    by_cases hu : uri = uri'
    · rw [if_pos hu, if_pos hu]
      rfl
    · rw [if_neg hu, if_neg hu]
      rfl
  · next h =>
    by_cases hu : uri = uri'
    · subst hu
      rw [if_pos rfl]
      have hs : f.slots.get? uri = none := Option.not_isSome_iff_eq_none.mp h
      show (f.slots.get? uri).bind id = none
      rw [hs]
      rfl
    · rw [if_neg hu]

/-! ## Freshness -/

/-- Every tree held is the parse of an open document as it is stored. -/
def Fresh (parse : Grammar) (store : Store) (f : Forest) : Prop :=
  ∀ uri tree, f.cached? uri = some tree → ∃ doc, store.get? uri = some doc ∧ tree = doc.parsed parse uri

theorem fresh_empty (parse : Grammar) (store : Store) : Fresh parse store {} := by
  intro uri tree h
  cases h

theorem Fresh.invalidate (h : Fresh parse store f) (uri : Uri) : Fresh parse store (f.invalidate uri) := by
  intro uri' tree ht
  rw [cached?_invalidate] at ht
  split at ht
  · cases ht
  · exact h uri' tree ht

theorem Fresh.remove (h : Fresh parse store f) (uri : Uri) : Fresh parse store (f.remove uri) := by
  intro uri' tree ht
  rw [cached?_remove] at ht
  split at ht
  · cases ht
  · exact h uri' tree ht

theorem Fresh.releaseAll (f : Forest) : Fresh parse store f.releaseAll := by
  intro uri tree ht
  cases ht

/-- Freshness goes over to another store that differs in one document only, once the tree of that one is gone. -/
theorem Fresh.of_agree (h : Fresh parse store f) {uri : Uri} (hnone : f.cached? uri = none)
    (hagree : ∀ uri', uri ≠ uri' → store'.get? uri' = store.get? uri') : Fresh parse store' f := by
  intro uri' tree ht
  have hne : uri ≠ uri' := by
    rintro rfl
    rw [hnone] at ht
    cases ht
  rw [hagree uri' hne]
  exact h uri' tree ht

/-- Asking a fresh forest gives the parse of the document, if it is open, and leaves the forest fresh. -/
theorem Fresh.get? (h : Fresh parse store f) (uri : Uri) :
    (f.get? parse store uri).1 = (store.get? uri).map (Document.parsed parse uri) ∧
      Fresh parse store (f.get? parse store uri).2 := by
  unfold Forest.get?
  cases hdoc : store.get? uri with
  | none => exact ⟨rfl, h⟩
  | some doc =>
    -- a tree that is parsed now is the only one that is new
    have hparsed : Fresh parse store
        { f with slots := f.slots.insert uri (some (doc.parsed parse uri)), parses := f.parses + 1 } := by
      intro uri' tree ht
      have ht : ((f.slots.insert uri (some (doc.parsed parse uri))).get? uri').bind id = some tree := ht
      rw [Table.get?_insert] at ht
      by_cases hu : uri = uri'
      · subst hu
        rw [if_pos rfl] at ht
        cases ht
        exact ⟨doc, hdoc, rfl⟩
      · rw [if_neg hu] at ht
        exact h uri' tree ht
    cases hc : f.cached? uri with
    | none => exact ⟨rfl, hparsed⟩
    | some tree =>
      obtain ⟨doc', hdoc', rfl⟩ := h uri tree hc
      obtain rfl : doc = doc' := Option.some.inj (hdoc.symm.trans hdoc')
      simp only [Document.parsed, Int.le_refl, ↓reduceIte]
      exact ⟨rfl, h⟩

end Forest

/-! ## In a workspace -/

namespace Workspace

variable {tools : Tools} {w : Workspace}

/-- A workspace that listens, with a fresh forest. -/
structure KeepsUp (tools : Tools) (w : Workspace) : Prop where
  listening : w.listening = true
  fresh : w.forest.Fresh tools.parse w.store

theorem keepsUp_ofOptions (tools : Tools) (options : Options) : KeepsUp tools (ofOptions options true) :=
  ⟨rfl, Forest.fresh_empty _ _⟩

/-- The forest after an event: the tree of the document is gone. -/
theorem forest_react (hw : w.listening = true) (e : DocumentEvent) :
    (w.react e).forest = w.forest.invalidate e.uri ∨ (w.react e).forest = w.forest.remove e.uri := by
  unfold react
  rw [if_pos hw]
  cases e with
  | opened uri version => exact Or.inl rfl
  | changed uri version => exact Or.inl rfl
  | closed uri => exact Or.inr rfl

theorem store_react (w : Workspace) (e : DocumentEvent) : (w.react e).store = w.store := by
  unfold react
  split
  · cases e <;> rfl
  · rfl

theorem listening_react (w : Workspace) (e : DocumentEvent) : (w.react e).listening = w.listening := by
  unfold react
  split
  · cases e <;> rfl
  · rfl

/-- Taking in a commit keeps up. -/
theorem KeepsUp.react (h : KeepsUp tools w) {store : Store} {e : DocumentEvent} (hc : w.store.Commits store e) :
    KeepsUp tools ({ w with store := store }.react e) := by
  refine ⟨?_, ?_⟩
  · rw [listening_react]
    exact h.listening
  · rw [store_react]
    have hagree : ∀ uri', e.uri ≠ uri' → store.get? uri' = w.store.get? uri' := fun _ => hc.get?_of_ne
    rcases forest_react (w := { w with store := store }) h.listening e with hf | hf
    · rw [hf]
      exact (h.fresh.invalidate e.uri).of_agree (by rw [Forest.cached?_invalidate, if_pos rfl]) hagree
    · rw [hf]
      exact (h.fresh.remove e.uri).of_agree (by rw [Forest.cached?_remove, if_pos rfl]) hagree

theorem KeepsUp.openItem (h : KeepsUp tools w) (item : DocumentItem) : KeepsUp tools (w.openItem item).1 := by
  unfold Workspace.openItem commit
  cases ho : w.store.openItem item with
  | error e => exact h
  | ok r => exact h.react (Store.commits_of_openItem ho)

theorem KeepsUp.change (h : KeepsUp tools w) (uri : Uri) (changes : List Change) (version : Int) :
    KeepsUp tools (w.change uri changes version).1 := by
  unfold Workspace.change commit
  cases hc : w.store.change uri changes version with
  | error e => exact h
  | ok r => exact h.react (Store.commits_of_change hc)

theorem KeepsUp.close (h : KeepsUp tools w) (uri : Uri) : KeepsUp tools (w.close uri).1 := by
  unfold Workspace.close
  cases hc : w.store.close uri with
  | none => exact h
  | some r => exact h.react (Store.commits_of_close hc)

/-- Asking for a tree. -/
theorem KeepsUp.tree? (h : KeepsUp tools w) (uri : Uri) :
    (w.tree? tools uri).1 = (w.store.get? uri).map (Document.parsed tools.parse uri) ∧
      KeepsUp tools (w.tree? tools uri).2 :=
  ⟨(h.fresh.get? uri).1, h.listening, (h.fresh.get? uri).2⟩

/-! ## Runs -/

/-- What may be done to the documents and the trees of a workspace. -/
inductive Act where
  | openItem (item : DocumentItem)
  | change (uri : Uri) (changes : List Change) (version : Int)
  | close (uri : Uri)
  | get (uri : Uri)
  | invalidate (uri : Uri)
  | remove (uri : Uri)
  | releaseAll

/-- The workspace after an act. -/
def act (tools : Tools) (w : Workspace) : Act → Workspace
  | .openItem item => (w.openItem item).1
  | .change uri changes version => (w.change uri changes version).1
  | .close uri => (w.close uri).1
  | .get uri => (w.tree? tools uri).2
  | .invalidate uri => { w with forest := w.forest.invalidate uri }
  | .remove uri => { w with forest := w.forest.remove uri }
  | .releaseAll => { w with forest := w.forest.releaseAll }

/-- The workspace after several acts, starting without documents. -/
def afterActs (tools : Tools) (options : Options) (acts : List Act) : Workspace :=
  acts.foldl (act tools) (ofOptions options true)

theorem KeepsUp.act (h : KeepsUp tools w) (a : Act) : KeepsUp tools (w.act tools a) := by
  cases a with
  | openItem item => exact h.openItem item
  | change uri changes version => exact h.change uri changes version
  | close uri => exact h.close uri
  | get uri => exact (h.tree? uri).2
  | invalidate uri => exact ⟨h.listening, h.fresh.invalidate uri⟩
  | remove uri => exact ⟨h.listening, h.fresh.remove uri⟩
  | releaseAll => exact ⟨h.listening, .releaseAll _⟩

theorem keepsUp_afterActs (tools : Tools) (options : Options) (acts : List Act) :
    KeepsUp tools (afterActs tools options acts) := by
  unfold afterActs
  apply List.foldlRecOn (motive := KeepsUp tools)
  · exact keepsUp_ofOptions tools options
  · intro w h a _
    exact h.act a

/-- **The forest keeps up with the store.** After any acts, a tree that is held is the parse of its document, which is
open, at its version; and asking for a tree gives this parse exactly if the document is open. -/
theorem tree?_eq_of_acts (tools : Tools) (options : Options) (acts : List Act) (uri : Uri) :
    (∀ tree, (afterActs tools options acts).forest.cached? uri = some tree →
      ∃ doc, (afterActs tools options acts).store.get? uri = some doc ∧ tree.version = doc.version ∧
        tree.source.text = doc.text) ∧
    ((afterActs tools options acts).tree? tools uri).1 =
      ((afterActs tools options acts).store.get? uri).map (Document.parsed tools.parse uri) := by
  have h := keepsUp_afterActs tools options acts
  refine ⟨?_, (h.tree? uri).1⟩
  intro tree ht
  obtain ⟨doc, hdoc, rfl⟩ := h.fresh uri tree ht
  exact ⟨doc, hdoc, rfl, rfl⟩

end Workspace

end RubyServer
