import Mathlib.Data.List.Induction
import RubyServer.Proofs.Forest.Freshness

/-!
# A forest by itself

A workspace that does not listen to its documents keeps their trees through a closing. What is served then is decided by
version numbers alone, and these go up only while a document stays open: opened again, it may be at a version for which
a tree of the text before the closing is still held.

The acts show when this happens. A tree stays with the forest (`Kept`) from the request that was answered with it until
something drops it or a later version takes its place (`kept_of_cached?`, `exists_cached?_of_kept`). So a request is
answered from the present document exactly if every tree that was kept is of an earlier version or of the same version
and text (`servesCurrent_iff`); and this is so as long as a document is not closed while its tree is held
(`NotAhead`).
-/

namespace RubyServer

namespace Forest

variable {parse : Grammar} {store : Store} {f : Forest} {uri : Uri}

theorem get?_of_not_open (hnone : store.get? uri = none) : f.get? parse store uri = (none, f) := by
  unfold Forest.get?
  rw [hnone]

/-- What a request for the tree of an open document comes to: the tree that is held, if it is not of an earlier version,
or the parse of the document, which is held from then on. -/
theorem get?_cases (parse : Grammar) (f : Forest) {doc : Document} (hdoc : store.get? uri = some doc) :
    (∃ held, f.cached? uri = some held ∧ doc.version ≤ held.version ∧ (f.get? parse store uri).1 = some held ∧
      ∀ uri', (f.get? parse store uri).2.cached? uri' = f.cached? uri') ∨
    (∀ held, f.cached? uri = some held → held.version < doc.version) ∧
      (f.get? parse store uri).1 = some (doc.parsed parse uri) ∧
      ∀ uri', (f.get? parse store uri).2.cached? uri' =
        if uri = uri' then some (doc.parsed parse uri) else f.cached? uri' := by
  have hinsert : ∀ uri', ((f.slots.insert uri (some (doc.parsed parse uri))).get? uri').bind id =
      if uri = uri' then some (doc.parsed parse uri) else f.cached? uri' := by
    intro uri'
    rw [Table.get?_insert]
    split
    · rfl
    · rfl
  unfold Forest.get?
  rw [hdoc]
  cases hc : f.cached? uri with
  | none => exact Or.inr ⟨fun held hh => (by cases hh), rfl, hinsert⟩
  | some held =>
    simp only
    by_cases hv : doc.version ≤ held.version
    · rw [if_pos hv]
      exact Or.inl ⟨held, rfl, hv, rfl, fun _ => rfl⟩
    · rw [if_neg hv]
      refine Or.inr ⟨?_, rfl, hinsert⟩
      intro held' hh
      cases hh
      exact Int.not_le.mp hv

end Forest

namespace Workspace

variable {tools : Tools} {options : Options} {w : Workspace} {acts : List Act} {uri : Uri} {tree : ParsedDocument}

/-! ## Acts without a listener -/

/-- Whether an act drops the tree of a document. -/
def Act.Drops (uri : Uri) : Act → Prop
  | .invalidate uri' => uri' = uri
  | .remove uri' => uri' = uri
  | .releaseAll => True
  | _ => False

/-- A workspace that does not listen, after several acts, starting without documents. -/
def detached (tools : Tools) (options : Options) (acts : List Act) : Workspace :=
  acts.foldl (act tools) (ofOptions options false)

theorem detached_append (tools : Tools) (options : Options) (earlier later : List Act) :
    detached tools options (earlier ++ later) = later.foldl (act tools) (detached tools options earlier) :=
  List.foldl_append

theorem detached_concat (tools : Tools) (options : Options) (acts : List Act) (a : Act) :
    detached tools options (acts ++ [a]) = (detached tools options acts).act tools a :=
  detached_append tools options acts [a]

theorem react_of_not_listening (hw : w.listening = false) (e : DocumentEvent) : w.react e = w := by
  unfold react
  rw [hw]
  rfl

theorem forest_commit (hw : w.listening = false) (r : Except DocumentError (Store × DocumentEvent)) :
    (w.commit r).1.forest = w.forest := by
  match r with
  | .error e => rfl
  | .ok (store, e) =>
    show ({ w with store := store }.react e).forest = w.forest
    rw [react_of_not_listening (w := { w with store := store }) hw e]

theorem forest_close (hw : w.listening = false) (uri : Uri) : (w.close uri).1.forest = w.forest := by
  unfold close
  split
  · next store e _ =>
    show ({ w with store := store }.react e).forest = w.forest
    rw [react_of_not_listening (w := { w with store := store }) hw e]
  · rfl

/-- What an act does to a workspace that does not listen: nothing to its documents, or one commit and nothing else. -/
theorem act_cases (tools : Tools) (hw : w.listening = false) (a : Act) :
    w.act tools a = { w with forest := (w.act tools a).forest } ∨
      ∃ store e, w.store.Commits store e ∧ w.act tools a = { w with store := store } ∧
        ∀ uri, e = .closed uri → a = .close uri := by
  cases a with
  | openItem item =>
    simp only [act, Workspace.openItem]
    cases ho : w.store.openItem item with
    | error e => exact Or.inl rfl
    | ok r =>
      obtain ⟨store, e⟩ := r
      have hreact := react_of_not_listening (w := { w with store := store }) hw e
      refine Or.inr ⟨store, e, Store.commits_of_openItem ho, hreact, ?_⟩
      obtain ⟨-, -, -, rfl⟩ := Store.openItem_eq_ok ho
      rintro uri ⟨⟩
  | change uri changes version =>
    simp only [act, Workspace.change]
    cases hc : w.store.change uri changes version with
    | error e => exact Or.inl rfl
    | ok r =>
      obtain ⟨store, e⟩ := r
      have hreact := react_of_not_listening (w := { w with store := store }) hw e
      refine Or.inr ⟨store, e, Store.commits_of_change hc, hreact, ?_⟩
      obtain ⟨-, -, -, -, -, -, -, rfl⟩ := Store.change_eq_ok hc
      rintro uri ⟨⟩
  | close uri =>
    simp only [act, Workspace.close]
    cases hc : w.store.close uri with
    | none => exact Or.inl rfl
    | some r =>
      obtain ⟨store, e⟩ := r
      have hreact := react_of_not_listening (w := { w with store := store }) hw e
      refine Or.inr ⟨store, e, Store.commits_of_close hc, hreact, ?_⟩
      obtain ⟨-, -, rfl⟩ := Store.close_eq_some hc
      rintro uri ⟨⟩
      rfl
  | get uri => exact Or.inl rfl
  | invalidate uri => exact Or.inl rfl
  | remove uri => exact Or.inl rfl
  | releaseAll => exact Or.inl rfl

theorem listening_act (tools : Tools) (hw : w.listening = false) (a : Act) : (w.act tools a).listening = false := by
  rcases act_cases tools hw a with heq | ⟨store, e, -, heq, -⟩
  · rw [heq]
    exact hw
  · rw [heq]
    exact hw

theorem listening_detached (tools : Tools) (options : Options) (acts : List Act) :
    (detached tools options acts).listening = false := by
  unfold detached
  apply List.foldlRecOn (motive := fun w : Workspace => w.listening = false)
  · rfl
  · intro w hw a _
    exact listening_act tools hw a

/-! ## The tree held after an act -/

/-- What a request is answered with. -/
theorem tree?_cases (tools : Tools) {doc : Document} (hdoc : w.store.get? uri = some doc) :
    (∃ held, w.forest.cached? uri = some held ∧ doc.version ≤ held.version ∧ (w.tree? tools uri).1 = some held) ∨
    (∀ held, w.forest.cached? uri = some held → held.version < doc.version) ∧
      (w.tree? tools uri).1 = some (doc.parsed tools.parse uri) := by
  rcases Forest.get?_cases tools.parse w.forest hdoc with ⟨held, hheld, hle, hserved, -⟩ | ⟨hearlier, hserved, -⟩
  · exact Or.inl ⟨held, hheld, hle, hserved⟩
  · exact Or.inr ⟨hearlier, hserved⟩

theorem tree?_eq_none_iff : (w.tree? tools uri).1 = none ↔ w.store.get? uri = none := by
  cases hdoc : w.store.get? uri with
  | none => exact iff_of_true (congrArg Prod.fst (Forest.get?_of_not_open hdoc)) rfl
  | some doc =>
    rcases tree?_cases tools hdoc with ⟨held, -, -, hserved⟩ | ⟨-, hserved⟩ <;> simp [hserved]

theorem cached?_act_of_drops (tools : Tools) {a : Act} (hd : a.Drops uri) :
    (w.act tools a).forest.cached? uri = none := by
  cases a with
  | invalidate uri' =>
    show (w.forest.invalidate uri').cached? uri = none
    exact (Forest.cached?_invalidate _ _ _).trans (if_pos hd)
  | remove uri' =>
    show (w.forest.remove uri').cached? uri = none
    exact (Forest.cached?_remove _ _ _).trans (if_pos hd)
  | releaseAll => rfl
  | _ => cases hd

/-- A request leaves the tree that it is answered with, and a request for a document that is not open leaves all. -/
theorem cached?_act_get (tools : Tools) (w : Workspace) (uri : Uri) :
    (w.act tools (.get uri)).forest.cached? uri = (w.tree? tools uri).1.or (w.forest.cached? uri) := by
  show (w.forest.get? tools.parse w.store uri).2.cached? uri = (w.forest.get? tools.parse w.store uri).1.or _
  cases hdoc : w.store.get? uri with
  | none =>
    rw [Forest.get?_of_not_open hdoc]
    rfl
  | some doc =>
    rcases Forest.get?_cases tools.parse w.forest hdoc with ⟨held, hheld, -, hserved, hcached⟩ | ⟨-, hserved, hcached⟩
    · rw [hserved, hcached, hheld]
      rfl
    · rw [hserved, hcached, if_pos rfl]
      rfl

theorem cached?_act_of_not_drops (hw : w.listening = false) {a : Act} (hd : ¬ a.Drops uri) (hget : a ≠ .get uri) :
    (w.act tools a).forest.cached? uri = w.forest.cached? uri := by
  cases a with
  | get uri' =>
    have hne : uri' ≠ uri := fun e => hget (e ▸ rfl)
    show (w.forest.get? tools.parse w.store uri').2.cached? uri = _
    cases hdoc : w.store.get? uri' with
    | none => rw [Forest.get?_of_not_open hdoc]
    | some doc =>
      rcases Forest.get?_cases tools.parse w.forest hdoc with ⟨_, -, -, -, hcached⟩ | ⟨-, -, hcached⟩
      · exact hcached uri
      · rw [hcached, if_neg hne]
  | invalidate uri' =>
    show (w.forest.invalidate uri').cached? uri = _
    exact (Forest.cached?_invalidate _ _ _).trans (if_neg hd)
  | remove uri' =>
    show (w.forest.remove uri').cached? uri = _
    exact (Forest.cached?_remove _ _ _).trans (if_neg hd)
  | releaseAll => exact absurd trivial hd
  | openItem item => exact congrArg (Forest.cached? · uri) (forest_commit hw _)
  | change uri' changes version => exact congrArg (Forest.cached? · uri) (forest_commit hw _)
  | close uri' => exact congrArg (Forest.cached? · uri) (forest_close hw uri')

/-! ## Trees that were kept -/

/-- A tree that a request was answered with, and that nothing has dropped since. -/
def Kept (tools : Tools) (options : Options) (acts : List Act) (uri : Uri) (tree : ParsedDocument) : Prop :=
  ∃ earlier later, acts = earlier ++ .get uri :: later ∧ (∀ a ∈ later, ¬ a.Drops uri) ∧
    ((detached tools options earlier).tree? tools uri).1 = some tree

theorem kept_concat {a : Act} : Kept tools options (acts ++ [a]) uri tree ↔
    ¬ a.Drops uri ∧ (Kept tools options acts uri tree ∨
      a = .get uri ∧ ((detached tools options acts).tree? tools uri).1 = some tree) := by
  constructor
  · rintro ⟨earlier, later, heq, hkept, hserved⟩
    rcases List.eq_nil_or_concat later with rfl | ⟨front, b, rfl⟩
    · obtain ⟨rfl, hlast⟩ := List.append_inj' heq rfl
      obtain rfl : a = .get uri := by simpa using hlast
      exact ⟨fun hd => hd, Or.inr ⟨rfl, hserved⟩⟩
    · rw [List.concat_eq_append, ← List.cons_append, ← List.append_assoc] at heq
      obtain ⟨rfl, hlast⟩ := List.append_inj' heq rfl
      obtain rfl : a = b := by simpa using hlast
      rw [List.concat_eq_append] at hkept
      refine ⟨hkept a (by simp), Or.inl ⟨earlier, front, rfl, ?_, hserved⟩⟩
      intro a' hm
      exact hkept a' (List.mem_append_left _ hm)
  · rintro ⟨hd, ⟨earlier, later, rfl, hkept, hserved⟩ | ⟨rfl, hserved⟩⟩
    · refine ⟨earlier, later ++ [a], by simp, ?_, hserved⟩
      intro a' hm
      rcases List.mem_append.mp hm with hm | hm
      · exact hkept a' hm
      · rw [List.mem_singleton.mp hm]
        exact hd
    · exact ⟨acts, [], rfl, fun _ hm => (by cases hm), hserved⟩

/-- What is held was given before. -/
theorem kept_of_cached? (hc : (detached tools options acts).forest.cached? uri = some tree) :
    Kept tools options acts uri tree := by
  induction acts using List.reverseRecOn generalizing tree with
  | nil => cases hc
  | append_singleton acts a ih =>
    rw [detached_concat] at hc
    rw [kept_concat]
    by_cases hd : a.Drops uri
    · rw [cached?_act_of_drops tools hd] at hc
      cases hc
    · refine ⟨hd, ?_⟩
      by_cases hget : a = .get uri
      · subst hget
        rw [cached?_act_get] at hc
        rcases Option.or_eq_some_iff.mp hc with hserved | ⟨-, hheld⟩
        · exact Or.inr ⟨rfl, hserved⟩
        · exact Or.inl (ih hheld)
      · rw [cached?_act_of_not_drops (listening_detached tools options acts) hd hget] at hc
        exact Or.inl (ih hc)

/-- What was given and not dropped is held, unless a later version took its place. -/
theorem exists_cached?_of_kept (hk : Kept tools options acts uri tree) :
    ∃ held, (detached tools options acts).forest.cached? uri = some held ∧
      (held = tree ∨ tree.version < held.version) := by
  induction acts using List.reverseRecOn generalizing tree with
  | nil =>
    obtain ⟨earlier, later, heq, -⟩ := hk
    simp at heq
  | append_singleton acts a ih =>
    obtain ⟨hd, hk⟩ := kept_concat.mp hk
    rw [detached_concat]
    by_cases hget : a = .get uri
    · subst hget
      rw [cached?_act_get]
      rcases hk with hk | ⟨-, hserved⟩
      · obtain ⟨held, hheld, hle⟩ := ih hk
        cases hdoc : (detached tools options acts).store.get? uri with
        | none =>
          rw [tree?_eq_none_iff.mpr hdoc]
          exact ⟨held, hheld, hle⟩
        | some doc =>
          rcases tree?_cases tools hdoc with ⟨held', hheld', -, hserved⟩ | ⟨hearlier, hserved⟩
          · rw [hserved]
            exact ⟨held', rfl, Option.some.inj (hheld.symm.trans hheld') ▸ hle⟩
          · rw [hserved]
            have hlt : held.version < doc.version := hearlier held hheld
            refine ⟨doc.parsed tools.parse uri, rfl, Or.inr ?_⟩
            rcases hle with rfl | hle
            · exact hlt
            · exact Int.lt_trans hle hlt
      · exact ⟨tree, by rw [hserved]; rfl, Or.inl rfl⟩
    · rw [cached?_act_of_not_drops (listening_detached tools options acts) hd hget]
      rcases hk with hk | ⟨rfl, -⟩
      · exact ih hk
      · exact absurd rfl hget

/-! ## Trees that are not ahead -/

/-- A tree that is held for a document is of an earlier version of it, or its parse. -/
def NotAhead (tools : Tools) (w : Workspace) (uri : Uri) : Prop :=
  ∀ tree, w.forest.cached? uri = some tree →
    ∃ doc, w.store.get? uri = some doc ∧ (tree.version < doc.version ∨ tree = doc.parsed tools.parse uri)

theorem NotAhead.tree? (h : NotAhead tools w uri) :
    (w.tree? tools uri).1 = (w.store.get? uri).map (Document.parsed tools.parse uri) := by
  cases hdoc : w.store.get? uri with
  | none => exact tree?_eq_none_iff.mpr hdoc
  | some doc =>
    rcases tree?_cases tools hdoc with ⟨held, hheld, hle, hserved⟩ | ⟨-, hserved⟩
    · obtain ⟨doc', hdoc', hahead⟩ := h held hheld
      obtain rfl := Option.some.inj (hdoc.symm.trans hdoc')
      rcases hahead with hlt | rfl
      · exact absurd hle (Int.not_le.mpr hlt)
      · exact hserved
    · exact hserved

/-- A commit that is no closing moves a document on, or leaves it alone. -/
theorem NotAhead.commit (h : NotAhead tools w uri) {store : Store} {e : DocumentEvent}
    (hc : w.store.Commits store e) (hclose : e ≠ .closed uri) : NotAhead tools { w with store := store } uri := by
  intro tree ht
  obtain ⟨old, hold, hahead⟩ := h tree ht
  have hle : tree.version ≤ old.version := by
    rcases hahead with hlt | rfl
    · exact Int.le_of_lt hlt
    · exact Int.le_refl _
  by_cases hu : e.uri = uri
  · cases hc with
    | @opened _ doc hlt =>
      obtain rfl := hu
      exact ⟨doc, Store.get?_put_self _ _ _, Or.inl (Int.lt_of_le_of_lt hle (hlt old hold))⟩
    | @changed _ doc old' hold' hlt =>
      obtain rfl := hu
      obtain rfl := Option.some.inj (hold.symm.trans hold')
      exact ⟨doc, Store.get?_put_self _ _ _, Or.inl (Int.lt_of_le_of_lt hle hlt)⟩
    | closed _ =>
      obtain rfl := hu
      exact absurd rfl hclose
  · exact ⟨old, (hc.get?_of_ne hu).trans hold, hahead⟩

theorem NotAhead.act (h : NotAhead tools w uri) (hw : w.listening = false) {a : Act} (hclose : a ≠ .close uri) :
    NotAhead tools (w.act tools a) uri := by
  rcases act_cases tools hw a with heq | ⟨store, e, hc, heq, hclosed⟩
  · intro tree ht
    have hstore : (w.act tools a).store = w.store := by rw [heq]
    rw [hstore]
    by_cases hd : a.Drops uri
    · rw [cached?_act_of_drops tools hd] at ht
      cases ht
    · by_cases hget : a = .get uri
      · subst hget
        rw [cached?_act_get, h.tree?] at ht
        rcases Option.or_eq_some_iff.mp ht with hserved | ⟨-, hheld⟩
        · obtain ⟨doc, hdoc, rfl⟩ := Option.map_eq_some_iff.mp hserved
          exact ⟨doc, hdoc, Or.inr rfl⟩
        · exact h tree hheld
      · rw [cached?_act_of_not_drops hw hd hget] at ht
        exact h tree ht
  · rw [heq]
    exact h.commit hc fun e => hclose (hclosed uri e)

/-- While a document is not closed, no tree gets ahead of it. -/
theorem NotAhead.foldl (h : NotAhead tools w uri) (hw : w.listening = false) {acts : List Act}
    (hclose : .close uri ∉ acts) : NotAhead tools (acts.foldl (Workspace.act tools) w) uri := by
  induction acts generalizing w with
  | nil => exact h
  | cons a acts ih =>
    rw [List.mem_cons, not_or] at hclose
    exact ih (h.act hw fun e => hclose.1 e.symm) (listening_act tools hw a) hclose.2

/-! ## What is served -/

/-- Whether a request is answered from the present document: with its version and its text. -/
def ServesCurrent (tools : Tools) (w : Workspace) (uri : Uri) : Prop :=
  ∀ tree, (w.tree? tools uri).1 = some tree →
    ∃ doc, w.store.get? uri = some doc ∧ tree.version = doc.version ∧ tree.source.text = doc.text

/-- **When a forest by itself serves the present document.** After any acts of a workspace that does not listen, a
request fails exactly if the document is not open. It is answered from the present document exactly if every tree with
which a request was answered before, and which nothing has dropped since, is of an earlier version, or of the same
version and text. This is always so for a document that has not been closed since the forest held no tree of it. -/
theorem servesCurrent_iff (tools : Tools) (options : Options) (acts : List Act) (uri : Uri) :
    (((detached tools options acts).tree? tools uri).1 = none ↔ (detached tools options acts).store.get? uri = none) ∧
    ((detached tools options acts).ServesCurrent tools uri ↔
      ∀ doc, (detached tools options acts).store.get? uri = some doc → ∀ tree, Kept tools options acts uri tree →
        tree.version < doc.version ∨ tree.version = doc.version ∧ tree.source.text = doc.text) ∧
    ∀ earlier later, acts = earlier ++ later → (detached tools options earlier).forest.cached? uri = none →
      .close uri ∉ later → ((detached tools options acts).tree? tools uri).1 =
        ((detached tools options acts).store.get? uri).map (Document.parsed tools.parse uri) := by
  refine ⟨tree?_eq_none_iff, ⟨?_, ?_⟩, ?_⟩
  · intro hserves doc hdoc tree hk
    obtain ⟨held, hheld, hle⟩ := exists_cached?_of_kept hk
    rcases tree?_cases tools hdoc with ⟨held', hheld', -, hserved⟩ | ⟨hearlier, -⟩
    · -- the tree held is served, so it is the present one, and the tree that was kept is this one or an earlier one
      obtain rfl := Option.some.inj (hheld.symm.trans hheld')
      obtain ⟨doc', hdoc', hver, htext⟩ := hserves held hserved
      obtain rfl := Option.some.inj (hdoc.symm.trans hdoc')
      rcases hle with rfl | hlt
      · exact Or.inr ⟨hver, htext⟩
      · exact Or.inl (hver ▸ hlt)
    · have hlt := hearlier held hheld
      rcases hle with rfl | hlt'
      · exact Or.inl hlt
      · exact Or.inl (Int.lt_trans hlt' hlt)
  · intro hkept tree hserved
    cases hdoc : (detached tools options acts).store.get? uri with
    | none =>
      rw [tree?_eq_none_iff.mpr hdoc] at hserved
      cases hserved
    | some doc =>
      refine ⟨doc, rfl, ?_⟩
      rcases tree?_cases tools hdoc with ⟨held, hheld, hle, hserved'⟩ | ⟨-, hserved'⟩
      · obtain rfl := Option.some.inj (hserved'.symm.trans hserved)
        rcases hkept doc hdoc held (kept_of_cached? hheld) with hlt | hsame
        · exact absurd hle (Int.not_le.mpr hlt)
        · exact hsame
      · obtain rfl := Option.some.inj (hserved'.symm.trans hserved)
        exact ⟨rfl, rfl⟩
  · rintro earlier later rfl hnone hclose
    rw [detached_append]
    have hstart : NotAhead tools (detached tools options earlier) uri := by
      intro tree ht
      rw [hnone] at ht
      cases ht
    exact (hstart.foldl (listening_detached tools options earlier) hclose).tree?

/-- Trees without any structure. -/
def flat : Tools :=
  ⟨fun t => .tree (.mk ⟨"program", true, false, false, 0, Text.byteSize t, none⟩ []), Engine.standard⟩

/-- A document is asked for, closed, and opened again at a lower version. -/
def reopened : List Act :=
  [.openItem ⟨"file:///a.rb", 5, "ruby", "five".toList⟩, .get "file:///a.rb", .close "file:///a.rb",
    .openItem ⟨"file:///a.rb", 3, "ruby", "three".toList⟩]

/-- What was opened again is not what is served. -/
theorem not_servesCurrent_reopened : ¬ (detached flat {} reopened).ServesCurrent flat "file:///a.rb" := by
  intro hserves
  have hdoc : (detached flat {} reopened).store.get? "file:///a.rb" = some ⟨3, "ruby", "three".toList⟩ := by decide
  have hkept : Kept flat {} reopened "file:///a.rb"
      (Document.parsed flat.parse "file:///a.rb" ⟨5, "ruby", "five".toList⟩) := by
    refine ⟨reopened.take 1, reopened.drop 2, rfl, ?_, rfl⟩
    intro a hm
    simp only [reopened, List.drop, List.mem_cons, List.not_mem_nil, or_false] at hm
    rcases hm with rfl | rfl <;> exact fun hd => hd
  rcases (servesCurrent_iff flat {} reopened "file:///a.rb").2.1.mp hserves _ hdoc _ hkept with hlt | ⟨hver, -⟩
  · exact absurd hlt (by decide)
  · exact absurd hver (by decide)

end Workspace

end RubyServer
