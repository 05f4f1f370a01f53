import Mathlib.Data.List.Forall2
import RubyServer.Proofs.Forest.Freshness
import RubyServer.Proofs.Linter.Delivery

/-!
# The lint runs keep up with the documents

In a workspace that listens, the version scheduled last for a document is the one it is stored at, and there is none
for a document that is not open (`Follows`). A live run is therefore for the document as it is now, and what it has
linted is the tree of the present text. No step loses it: the tree is there, it has the version of the run, and nothing
later was delivered, so a live run stays until it is delivered or something takes its place (`Advances`).
-/

namespace RubyServer

/-- Whether a notice shows a diagnostic on a text: it stands where the diagnostic does, weighs as much, has the rule for
its code, and says the message, with the suggestion in parentheses if there is one. -/
structure Notice.Shows (t : Text) (d : Diagnostic) (n : Notice) : Prop where
  start : n.range.start = (LineIndex.ofText t).position d.span.start
  stop : n.range.stop = (LineIndex.ofText t).position d.span.stop
  severity : n.severity = d.severity
  code : n.code = d.rule
  message : n.message =
    match d.suggestion with
    | none => d.message
    | some suggestion => d.message ++ " (" ++ suggestion ++ ")"

/-- Whether notices show an outcome on a text: one for each diagnostic, in order, or a single error at the start of the
text that says why linting failed. -/
inductive LintOutcome.Shown (t : Text) : LintOutcome → List Notice → Prop where
  | found {ds : List Diagnostic} {notices : List Notice} (h : List.Forall₂ (Notice.Shows t) ds notices) :
    Shown t (.found ds) notices
  | failed (e : LintError) :
    Shown t (.failed e) [⟨⟨⟨0, 0⟩, ⟨0, 0⟩⟩, .error, "lint-failure", "Linting failed: " ++ e.message⟩]
  | crashed :
    Shown t .crashed [⟨⟨⟨0, 0⟩, ⟨0, 0⟩⟩, .error, "lint-failure", "Linting failed: internal error in lint task"⟩]

/-- Whether notices are what a lint of a document as it is came to. The lints are given that took place. -/
def Document.Yields (tools : Tools) (lints : List (ParsedDocument × Settings)) (uri : Uri) (doc : Document)
    (notices : List Notice) : Prop :=
  ∃ settings, (doc.parsed tools.parse uri, settings) ∈ lints ∧
    (tools.engine (doc.parsed tools.parse uri) settings).Shown doc.text notices

/-- Each diagnostic is shown by its notice. -/
theorem Notice.shows_ofDiagnostics (t : Text) (ds : List Diagnostic) :
    List.Forall₂ (Notice.Shows t) ds (Notice.ofDiagnostics t ds) := by
  rw [Notice.ofDiagnostics, List.forall₂_map_right_iff, List.forall₂_same]
  intro d _
  exact ⟨rfl, rfl, rfl, rfl, rfl⟩

theorem Document.Yields.mono {tools : Tools} {lints lints' : List (ParsedDocument × Settings)} {uri : Uri}
    {doc : Document} {notices : List Notice} (h : doc.Yields tools lints uri notices) (hsub : lints ⊆ lints') :
    doc.Yields tools lints' uri notices := by
  obtain ⟨settings, hm, hshown⟩ := h
  exact ⟨settings, hsub hm, hshown⟩

namespace Linter

variable {tools : Tools} {lints : List (ParsedDocument × Settings)} {store store' : Store} {l : Linter} {uri : Uri}

/-- A run on a tree of its own version has a result, which shows the outcome. -/
theorem resultOf_of_version {r : Run} {tree : ParsedDocument} (hv : tree.version = r.version) (outcome : LintOutcome) :
    ∃ notices, resultOf r tree outcome = some ⟨r.uri, r.version, notices⟩ ∧ outcome.Shown tree.source.text notices := by
  cases outcome with
  | found ds => exact ⟨_, if_pos hv, .found (Notice.shows_ofDiagnostics _ ds)⟩
  | failed e => exact ⟨_, if_pos hv, .failed e⟩
  | crashed => exact ⟨_, rfl, .crashed⟩

/-! ## Documents with a live run -/

/-- Whether a document has a live run. -/
def Busy (l : Linter) (uri : Uri) : Prop := ∃ r, l.Live r ∧ r.uri = uri

theorem busy_moveTo {t : Ticket} {stage : Stage} : (l.moveTo t stage).Busy uri ↔ l.Busy uri := by
  constructor
  · rintro ⟨r, hr, rfl⟩
    obtain ⟨r₀, hr₀, rfl⟩ := live_moveTo.mp hr
    exact ⟨r₀, hr₀, (r₀.uri_onTo t stage).symm⟩
  · rintro ⟨r, hr, rfl⟩
    exact ⟨_, live_moveTo.mpr ⟨r, hr, rfl⟩, r.uri_onTo t stage⟩

theorem busy_drop {t : Ticket} (hnot : ∀ r, l.Live r → r.ticket ≠ t) : (l.drop t).Busy uri ↔ l.Busy uri := by
  constructor
  · rintro ⟨r, hr, hu⟩
    exact ⟨r, (live_drop.mp hr).1, hu⟩
  · rintro ⟨r, hr, hu⟩
    exact ⟨r, live_drop.mpr ⟨hr, hnot r hr⟩, hu⟩

theorem busy_schedule (h : Sound l) {version : Int} (hacc : l.Accepts uri version) (due : Nat) {uri' : Uri} :
    (l.schedule uri version due).Busy uri' ↔ uri = uri' ∨ l.Busy uri' := by
  obtain ⟨r₀, -, hu₀, -, -, -, hlive⟩ := live_schedule h due hacc
  constructor
  · rintro ⟨r, hr, rfl⟩
    rcases (hlive r).mp hr with ⟨hr, -⟩ | rfl
    · exact Or.inr ⟨r, hr, rfl⟩
    · exact Or.inl hu₀.symm
  · by_cases hu : uri = uri'
    · intro _
      exact ⟨r₀, (hlive r₀).mpr (Or.inr rfl), hu₀.trans hu⟩
    · rintro (rfl | ⟨r, hr, rfl⟩)
      · exact absurd rfl hu
      · exact ⟨r, (hlive r).mpr (Or.inl ⟨hr, fun e => hu e.symm⟩), rfl⟩

theorem busy_forget (h : Sound l) {uri' : Uri} : (l.forget uri).Busy uri' ↔ uri ≠ uri' ∧ l.Busy uri' := by
  constructor
  · rintro ⟨r, hr, rfl⟩
    obtain ⟨hr, hne⟩ := (live_forget h).mp hr
    exact ⟨fun e => hne e.symm, r, hr, rfl⟩
  · rintro ⟨hne, r, hr, rfl⟩
    exact ⟨r, (live_forget h).mpr ⟨hr, fun e => hne e.symm⟩, rfl⟩

theorem busy_delivered (h : Sound l) {r : Run} (hr : l.Live r) :
    (l.delivered r).Busy uri ↔ r.uri ≠ uri ∧ l.Busy uri := by
  constructor
  · rintro ⟨r', hr', rfl⟩
    obtain ⟨hr', hne⟩ := live_delivered.mp hr'
    refine ⟨?_, r', hr', rfl⟩
    intro e
    rw [hr.eq_of_uri h hr' e] at hne
    exact hne rfl
  · rintro ⟨hne, r', hr', rfl⟩
    refine ⟨r', live_delivered.mpr ⟨hr', ?_⟩, rfl⟩
    intro e
    rw [h.eq_of_ticket hr'.1 hr.1 e] at hne
    exact hne rfl

/-! ## Following the store -/

/-- The runs are for the documents as they are stored, and what has linted is the tree of the present text. -/
structure Follows (tools : Tools) (lints : List (ParsedDocument × Settings)) (store : Store) (l : Linter) : Prop where
  sound : Sound l
  running : l.stopped = false
  scheduled : ∀ uri, l.scheduled? uri = (store.get? uri).map Document.version
  linted : ∀ r, l.Live r → ∀ result, r.stage = .linted result →
    ∀ doc, store.get? r.uri = some doc → doc.Yields tools lints r.uri result.notices

theorem follows_empty (tools : Tools) (lints : List (ParsedDocument × Settings)) (maxSize : Nat) :
    Follows tools lints { maxSize := maxSize } {} where
  sound := sound_empty
  running := rfl
  scheduled := fun _ => rfl
  linted := fun r hr => by cases hr.1

/-- A live run is for an open document, at its version. -/
theorem Follows.exists_doc (h : Follows tools lints store l) {r : Run} (hr : l.Live r) :
    ∃ doc, store.get? r.uri = some doc ∧ doc.version = r.version := by
  have hs := hr.scheduled?_eq h.sound
  rw [h.scheduled] at hs
  exact Option.map_eq_some_iff.mp hs

theorem Follows.mono {lints' : List (ParsedDocument × Settings)} (h : Follows tools lints store l)
    (hsub : lints ⊆ lints') : Follows tools lints' store l := by
  refine ⟨h.sound, h.running, h.scheduled, ?_⟩
  intro r hr result hs doc hdoc
  exact (h.linted r hr result hs doc hdoc).mono hsub

theorem Follows.moveTo (h : Follows tools lints store l) {t : Ticket} {stage : Stage} (hsound : Sound (l.moveTo t stage))
    (hstage : ∀ r, l.Live r → r.ticket = t → ∀ result, stage = .linted result →
      ∀ doc, store.get? r.uri = some doc → doc.Yields tools lints r.uri result.notices) :
    Follows tools lints store (l.moveTo t stage) := by
  refine ⟨hsound, h.running, h.scheduled, ?_⟩
  intro r hr result hs
  obtain ⟨r₀, hr₀, rfl⟩ := live_moveTo.mp hr
  rw [Run.uri_onTo]
  rw [Run.stage_onTo] at hs
  split at hs
  · next ht => exact hstage r₀ hr₀ ht result hs
  · exact h.linted r₀ hr₀ result hs

theorem Follows.drop (h : Follows tools lints store l) (t : Ticket) : Follows tools lints store (l.drop t) :=
  ⟨h.sound.drop t, h.running, h.scheduled, fun r hr => h.linted r (live_drop.mp hr).1⟩

theorem Follows.await (h : Follows tools lints store l) (t : Ticket) :
    Follows tools lints store (l.moveTo t .awaitingSettings) :=
  h.moveTo (h.sound.moveTo fun _ _ _ _ e => by cases e) fun _ _ _ _ e => by cases e

theorem Follows.settle (h : Follows tools lints store l) (t : Ticket) (settings : Settings) :
    Follows tools lints store (l.settle t settings) ∧ ∀ uri, (l.settle t settings).Busy uri ↔ l.Busy uri := by
  unfold Linter.settle
  split
  · next hc =>
    refine ⟨h.drop t, fun uri => busy_drop ?_⟩
    rintro r hr rfl
    rw [hr.2] at hc
    cases hc
  · have hsound : Sound (l.moveTo t (.linting settings)) := h.sound.moveTo fun _ _ _ _ e => by cases e
    exact ⟨h.moveTo hsound fun _ _ _ _ e => (by cases e), fun uri => busy_moveTo⟩

/-- A run that lints what it should goes on if it is live. One that is not live may be given anything. -/
theorem Follows.finish (h : Follows tools lints store l) {r : Run} (hr : r ∈ l.runs) {tree : ParsedDocument}
    {settings : Settings} (hm : (tree, settings) ∈ lints)
    (htree : ∀ doc, store.get? r.uri = some doc → tree = doc.parsed tools.parse r.uri) :
    Follows tools lints store (l.finish r tree (tools.engine tree settings)) ∧
      ∀ uri, (l.finish r tree (tools.engine tree settings)).Busy uri ↔ l.Busy uri := by
  have hsound := h.sound.finish hr tree (tools.engine tree settings)
  -- a live run has the version of the tree, so it has a result
  have hlive : ∀ r', l.Live r' → r'.ticket = r.ticket →
      ∃ notices, resultOf r tree (tools.engine tree settings) = some ⟨r.uri, r.version, notices⟩ ∧
        (tools.engine tree settings).Shown tree.source.text notices := by
    intro r' hr' ht
    rw [h.sound.eq_of_ticket hr'.1 hr ht] at hr'
    obtain ⟨doc, hdoc, hv⟩ := h.exists_doc hr'
    apply resultOf_of_version
    rw [htree doc hdoc]
    exact hv
  unfold Linter.finish at hsound ⊢
  cases hres : resultOf r tree (tools.engine tree settings) with
  | none =>
    refine ⟨h.drop r.ticket, fun uri => busy_drop ?_⟩
    intro r' hr' ht
    obtain ⟨notices, hresult, -⟩ := hlive r' hr' ht
    cases hresult.symm.trans hres
  | some result =>
    rw [hres] at hsound
    refine ⟨h.moveTo hsound ?_, fun uri => busy_moveTo⟩
    intro r' hr' ht result' hstage doc hdoc
    cases hstage
    obtain ⟨notices, hresult, hshown⟩ := hlive r' hr' ht
    cases hresult.symm.trans hres
    obtain rfl := h.sound.eq_of_ticket hr'.1 hr ht
    obtain rfl := htree doc hdoc
    exact ⟨settings, hm, hshown⟩

/-- Scheduling a document at the version it is put in place at, which is not before the one it had. -/
theorem Follows.schedule (h : Follows tools lints store l) {doc : Document}
    (hle : ∀ old, store.get? uri = some old → old.version ≤ doc.version) (hdoc : store'.get? uri = some doc)
    (hagree : ∀ uri', uri ≠ uri' → store'.get? uri' = store.get? uri') (due : Nat) :
    Follows tools lints store' (l.schedule uri doc.version due) ∧
      ∀ uri', (l.schedule uri doc.version due).Busy uri' ↔ uri = uri' ∨ l.Busy uri' := by
  have hacc : l.Accepts uri doc.version := by
    refine ⟨h.running, ?_⟩
    intro v hv
    rw [h.scheduled] at hv
    obtain ⟨old, hold, rfl⟩ := Option.map_eq_some_iff.mp hv
    exact hle old hold
  refine ⟨⟨h.sound.schedule _ _ _, ?_, ?_, ?_⟩, fun uri' => busy_schedule h.sound hacc due⟩
  · rw [stopped_schedule h.sound]
    exact h.running
  · intro uri'
    rw [scheduled?_schedule h.sound hacc]
    split
    · next e =>
      subst e
      rw [hdoc]
      rfl
    · next hne => rw [hagree uri' hne, h.scheduled]
  · intro r hr result hs
    obtain ⟨r₀, -, -, -, hstage, -, hlive⟩ := live_schedule h.sound due hacc
    rcases (hlive r).mp hr with ⟨hr, hne⟩ | rfl
    · rw [hagree r.uri (fun e => hne e.symm)]
      exact h.linted r hr result hs
    · rw [hstage] at hs
      cases hs

theorem Follows.forget (h : Follows tools lints store l) (hnone : store'.get? uri = none)
    (hagree : ∀ uri', uri ≠ uri' → store'.get? uri' = store.get? uri') :
    Follows tools lints store' (l.forget uri) ∧ ∀ uri', (l.forget uri).Busy uri' ↔ uri ≠ uri' ∧ l.Busy uri' := by
  refine ⟨⟨h.sound.forget uri, ?_, ?_, ?_⟩, fun uri' => busy_forget h.sound⟩
  · rw [(forget_frame l uri).2.2]
    exact h.running
  · intro uri'
    rw [scheduled?_forget]
    split
    · next e =>
      subst e
      rw [hnone]
      rfl
    · next hne => rw [hagree uri' hne, h.scheduled]
  · intro r hr result hs
    obtain ⟨hr, hne⟩ := (live_forget h.sound).mp hr
    rw [hagree r.uri (fun e => hne e.symm)]
    exact h.linted r hr result hs

/-- What a delivery comes to: nothing, or the notices for an open document as it is, which then has no live run. -/
theorem Follows.deliver (h : Follows tools lints store l) (t : Ticket) :
    Follows tools lints store (l.deliver t).1 ∧
      (((l.deliver t).2 = none ∧ ∀ uri, (l.deliver t).1.Busy uri ↔ l.Busy uri) ∨
        ∃ result doc, (l.deliver t).2 = some result ∧ store.get? result.uri = some doc ∧ result.version = doc.version ∧
          doc.Yields tools lints result.uri result.notices ∧
          ∀ uri, (l.deliver t).1.Busy uri ↔ result.uri ≠ uri ∧ l.Busy uri) := by
  rcases deliver_cases h.sound t with ⟨r, result, hr, rfl, hstage, hd⟩ | ⟨-, hd | ⟨hnot, hd⟩⟩
  · obtain ⟨huri, hver⟩ := h.sound.linted r hr.1 result hstage
    obtain ⟨doc, hdoc, hv⟩ := h.exists_doc hr
    rw [hd]
    refine ⟨⟨h.sound.delivered hr, h.running, ?_, ?_⟩, Or.inr ⟨result, doc, rfl, ?_, hver.trans hv.symm, ?_, ?_⟩⟩
    · intro uri
      rw [scheduled?_delivered, h.scheduled]
    · exact fun r' hr' => h.linted r' (live_delivered.mp hr').1
    · rw [huri]
      exact hdoc
    · rw [huri]
      exact h.linted r hr result hstage doc hdoc
    · intro uri
      rw [huri]
      exact busy_delivered h.sound hr
  · rw [hd]
    exact ⟨h, Or.inl ⟨rfl, fun uri => Iff.rfl⟩⟩
  · rw [hd]
    exact ⟨h.drop t, Or.inl ⟨rfl, fun uri => busy_drop hnot⟩⟩

end Linter

/-! ## Steps of a workspace -/

namespace Workspace

variable {tools : Tools} {lints : List (ParsedDocument × Settings)} {w w' w'' : Workspace}

/-- A workspace whose trees and lint runs keep up with its documents. -/
structure Watches (tools : Tools) (lints : List (ParsedDocument × Settings)) (w : Workspace) : Prop where
  keepsUp : KeepsUp tools w
  follows : w.linter.Follows tools lints w.store

/-- A step that leaves the documents alone and loses no live run. -/
structure Advances (tools : Tools) (lints : List (ParsedDocument × Settings)) (w w' : Workspace) : Prop where
  watches : Watches tools lints w'
  store : w'.store = w.store
  busy : ∀ uri, w.linter.Busy uri → w'.linter.Busy uri

theorem watches_ofOptions (tools : Tools) (options : Options) : Watches tools [] (ofOptions options true) :=
  ⟨keepsUp_ofOptions tools options, Linter.follows_empty tools [] options.maxDocumentSize⟩

theorem Watches.mono {lints' : List (ParsedDocument × Settings)} (h : Watches tools lints w) (hsub : lints ⊆ lints') :
    Watches tools lints' w :=
  ⟨h.keepsUp, h.follows.mono hsub⟩

theorem Watches.refl (h : Watches tools lints w) : Advances tools lints w w := ⟨h, rfl, fun _ hb => hb⟩

theorem Advances.trans (h : Advances tools lints w w') (h' : Advances tools lints w' w'') :
    Advances tools lints w w'' :=
  ⟨h'.watches, h'.store.trans h.store, fun uri hb => h'.busy uri (h.busy uri hb)⟩

/-- What is done to the runs and the settings alone. -/
theorem Watches.advances (h : Watches tools lints w) {l : Linter} (settings : SettingsCache Requester)
    (hf : l.Follows tools lints w.store) (hb : ∀ uri, w.linter.Busy uri → l.Busy uri) :
    Advances tools lints w { w with linter := l, settings := settings } :=
  ⟨⟨⟨h.keepsUp.listening, h.keepsUp.fresh⟩, hf⟩, rfl, hb⟩

theorem Watches.settle (h : Watches tools lints w) (t : Ticket) (settings : Settings) :
    Advances tools lints w { w with linter := w.linter.settle t settings } := by
  obtain ⟨hf, hb⟩ := h.follows.settle t settings
  exact h.advances w.settings hf fun uri => (hb uri).mpr

theorem Watches.setSettings (h : Watches tools lints w) (settings : SettingsCache Requester) :
    Advances tools lints w { w with settings := settings } :=
  h.advances settings h.follows fun _ hb => hb

theorem Watches.tree? (h : Watches tools lints w) (uri : Uri) : Advances tools lints w (w.tree? tools uri).2 :=
  ⟨⟨(h.keepsUp.tree? uri).2, h.follows⟩, rfl, fun _ hb => hb⟩

theorem Watches.elapse (h : Watches tools lints w) (t : Ticket) : Advances tools lints w (w.elapse t) := by
  unfold Workspace.elapse
  split
  · next r hrun =>
    split
    · split
      · next hc =>
        refine h.advances w.settings (h.follows.drop t) fun uri => (Linter.busy_drop ?_).mpr
        rintro r' hr' rfl
        rw [hr'.2] at hc
        cases hc
      · have hask : Advances tools lints w (w.askSettings (.run t) r.uri).1 := h.setSettings _
        generalize w.askSettings (.run t) r.uri = asked at hask
        obtain ⟨w', outcome⟩ := asked
        cases outcome with
        | some outcome => exact hask.trans (hask.watches.settle t _)
        | none =>
          have hw' := hask.watches
          exact hask.trans (hw'.advances w'.settings (hw'.follows.await t) fun uri => Linter.busy_moveTo.mpr)
    · exact h.refl
  · exact h.refl

/-- Whoever else waits for settings, no answer ends a live run. -/
theorem Watches.handOut (h : Watches tools lints w) (answers : List (Requester × SettingsOutcome)) :
    Advances tools lints w (w.handOut answers).1 := by
  unfold Workspace.handOut
  apply List.foldlRecOn (motive := fun p : Workspace × List (Nat × Uri × Settings) => Advances tools lints w p.1)
  · exact h.refl
  · rintro ⟨w', requests⟩ ha ⟨who, outcome⟩ _
    cases who with
    | run t => exact ha.trans (ha.watches.settle t (settingsOr outcome))
    | formatting request uri => exact ha

theorem Watches.answer (h : Watches tools lints w) (batch : Nat) (response : Response) :
    Advances tools lints w (w.answer batch response).1 := by
  have hs := h.setSettings (w.settings.answer batch response).1
  exact hs.trans (hs.watches.handOut _)

theorem Watches.schedule (h : Watches tools lints w) {uri : Uri} {doc : Document} (hdoc : w.store.get? uri = some doc) :
    Advances tools lints w (w.schedule uri doc.version) := by
  have hle : ∀ old, w.store.get? uri = some old → old.version ≤ doc.version := by
    intro old hold
    rw [hdoc] at hold
    cases hold
    exact Int.le_refl _
  obtain ⟨hf, hb⟩ := h.follows.schedule hle hdoc (fun _ _ => rfl) (w.clock + w.options.debounce)
  exact h.advances w.settings hf fun uri' hbusy => (hb uri').mpr (Or.inr hbusy)

/-- Linting every document again. -/
theorem Watches.relintAll (h : Watches tools lints w) : Advances tools lints w w.relintAll := by
  unfold Workspace.relintAll
  apply List.foldlRecOn (motive := fun w' => Advances tools lints w w')
  · exact h.refl
  · intro w' ha e he
    have hdoc : w'.store.get? e.1 = some e.2 := by
      rw [ha.store]
      exact Table.get?_of_mem he
    exact ha.trans (ha.watches.schedule hdoc)

/-! ## Linting -/

/-- The tree that a run lints, and its settings. -/
def lintOf? (tools : Tools) (w : Workspace) (t : Ticket) : Option (ParsedDocument × Settings) :=
  (w.linter.run? t).bind fun r =>
    match r.stage with
    | .linting settings => (w.tree? tools r.uri).1.map fun tree => (tree, settings)
    | _ => none

theorem Watches.lint (h : Watches tools lints w) (t : Ticket) :
    Advances tools ((w.lintOf? tools t).toList ++ lints) w (w.lint tools t).1 := by
  have hnew : ∀ lint, w.lintOf? tools t = some lint → lint ∈ (w.lintOf? tools t).toList ++ lints := by
    intro lint hl
    rw [hl]
    exact List.mem_cons_self
  have h := h.mono (List.subset_append_right (w.lintOf? tools t).toList lints)
  generalize (w.lintOf? tools t).toList ++ lints = lints' at h hnew
  unfold lintOf? at hnew
  unfold Workspace.lint
  cases hrun : w.linter.run? t with
  | none => exact h.refl
  | some r =>
    obtain ⟨hr, rfl⟩ := h.follows.sound.run?_eq_some_iff.mp hrun
    rw [hrun] at hnew
    cases hs : r.stage with
    | debouncing due =>
      simp only [hs]
      exact h.refl
    | awaitingSettings =>
      simp only [hs]
      exact h.refl
    | linted result =>
      simp only [hs]
      exact h.refl
    | linting settings =>
      simp only [hs, Option.bind_some] at hnew ⊢
      have htree := (h.keepsUp.tree? r.uri).1
      have hadv := h.tree? r.uri
      cases hlooked : (w.tree? tools r.uri).1 with
      | none =>
        rw [show w.tree? tools r.uri = (none, (w.tree? tools r.uri).2) from Prod.ext hlooked rfl]
        have hclosed : w.store.get? r.uri = none := Option.map_eq_none_iff.mp (htree.symm.trans hlooked)
        refine hadv.trans (hadv.watches.advances _ (h.follows.drop r.ticket) fun uri => (Linter.busy_drop ?_).mpr)
        intro r' hr' ht
        obtain ⟨doc, hdoc, -⟩ := h.follows.exists_doc hr'
        rw [h.follows.sound.eq_of_ticket hr'.1 hr ht, hclosed] at hdoc
        cases hdoc
      | some tree =>
        rw [show w.tree? tools r.uri = (some tree, (w.tree? tools r.uri).2) from Prod.ext hlooked rfl]
        have hparsed : ∀ doc, w.store.get? r.uri = some doc → tree = doc.parsed tools.parse r.uri := by
          intro doc hdoc
          rw [hdoc, hlooked] at htree
          exact Option.some.inj htree
        obtain ⟨hf, hb⟩ := h.follows.finish hr (hnew (tree, settings) (by rw [hlooked]; rfl)) hparsed
        exact hadv.trans (hadv.watches.advances _ hf fun uri => (hb uri).mpr)

/-! ## Commits -/

theorem Watches.put (h : Watches tools lints w) {uri : Uri} {doc : Document}
    (hlt : ∀ old, w.store.get? uri = some old → old.version < doc.version) {e : DocumentEvent}
    (hc : w.store.Commits (w.store.put uri doc) e) (he : e = .opened uri doc.version ∨ e = .changed uri doc.version) :
    Watches tools lints ({ w with store := w.store.put uri doc }.react e) ∧
      ∀ uri', ({ w with store := w.store.put uri doc }.react e).linter.Busy uri' ↔ uri = uri' ∨ w.linter.Busy uri' := by
  have hlinter : ({ w with store := w.store.put uri doc }.react e).linter =
      w.linter.schedule uri doc.version (w.clock + w.options.debounce) := by
    unfold react
    rw [if_pos h.keepsUp.listening]
    rcases he with rfl | rfl <;> rfl
  have hf := h.follows.schedule (fun old hold => Int.le_of_lt (hlt old hold)) (Store.get?_put_self w.store uri doc)
    (fun _ hne => Store.get?_put_of_ne w.store doc hne) (w.clock + w.options.debounce)
  refine ⟨⟨h.keepsUp.react hc, ?_⟩, ?_⟩
  · rw [store_react, hlinter]
    exact hf.1
  · rw [hlinter]
    exact hf.2

/-- What a commit does: the document has a live run then, if it is open; no other document loses its own. -/
theorem Watches.react (h : Watches tools lints w) {store : Store} {e : DocumentEvent} (hc : w.store.Commits store e) :
    Watches tools lints ({ w with store := store }.react e) ∧
      (∀ uri, e.uri ≠ uri → w.linter.Busy uri → ({ w with store := store }.react e).linter.Busy uri) ∧
      ∀ doc, store.get? e.uri = some doc → ({ w with store := store }.react e).linter.Busy e.uri := by
  cases hc with
  | @opened uri doc hlt =>
    obtain ⟨hw, hb⟩ := h.put hlt (.opened hlt) (Or.inl rfl)
    exact ⟨hw, fun uri' _ hbusy => (hb uri').mpr (Or.inr hbusy), fun _ _ => (hb uri).mpr (Or.inl rfl)⟩
  | @changed uri doc old hold hlt =>
    have hlt' : ∀ old, w.store.get? uri = some old → old.version < doc.version := by
      intro old' hold'
      rw [hold] at hold'
      cases hold'
      exact hlt
    obtain ⟨hw, hb⟩ := h.put hlt' (.changed hold hlt) (Or.inr rfl)
    exact ⟨hw, fun uri' _ hbusy => (hb uri').mpr (Or.inr hbusy), fun _ _ => (hb uri).mpr (Or.inl rfl)⟩
  | @closed uri old hold =>
    obtain ⟨hf, hb⟩ := h.follows.forget (w.store.get?_without_self uri) fun _ => w.store.get?_without_of_ne
    have hlinter : ({ w with store := w.store.without uri }.react (.closed uri)).linter = w.linter.forget uri := by
      unfold Workspace.react
      rw [if_pos h.keepsUp.listening]
      rfl
    refine ⟨⟨h.keepsUp.react (.closed hold), ?_⟩, ?_, ?_⟩
    · rw [store_react, hlinter]
      exact hf
    · intro uri' hne hbusy
      rw [hlinter]
      exact (hb uri').mpr ⟨hne, hbusy⟩
    · intro doc hdoc
      rw [show (DocumentEvent.closed uri).uri = uri from rfl, w.store.get?_without_self] at hdoc
      cases hdoc

end Workspace

end RubyServer
