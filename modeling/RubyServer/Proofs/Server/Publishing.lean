import RubyServer.Proofs.Workspace.Linting
import RubyServer.Server

/-!
# No notice is lost and none is left over

Whatever happens to a server before it shuts down, and in whatever order (`Step`), its queue and what it has sent
account for the documents (`Accounts`): the last publish for an open document shows what a lint of the present text
came to, or a live run will; the last publish for a document that was closed clears it; and for a document that was
never opened there is none. When no run is live and the queue is empty, what was sent says it all (`last?_sent`).
-/

namespace RubyServer

namespace Publish

/-- The last publish for a document. -/
def last? (uri : Uri) (ps : List Publish) : Option Publish := (ps.filter fun p => p.uri = uri).getLast?

theorem last?_concat (uri : Uri) (ps : List Publish) (p : Publish) :
    last? uri (ps ++ [p]) = if p.uri = uri then some p else last? uri ps := by
  unfold last?
  rw [List.filter_append]
  by_cases hu : p.uri = uri
  · simp [hu]
  · simp [hu]

theorem last?_eq_none {uri : Uri} {ps : List Publish} (h : last? uri ps = none) : ∀ p ∈ ps, p.uri ≠ uri := by
  intro p hp hu
  have hm : p ∈ ps.filter fun p => p.uri = uri := List.mem_filter.mpr ⟨hp, by simpa using hu⟩
  rw [List.getLast?_eq_none_iff.mp h] at hm
  cases hm

end Publish

namespace Server

/-! ## Steps -/

/-- What may happen to a server before it shuts down. -/
inductive Step where
  | registerFeatures
  | registerWorkspace
  | didOpen (item : DocumentItem)
  | didChange (uri : Uri) (changes : List Change) (version : Int)
  | didClose (uri : Uri)
  | configurationChanged
  | foldersChanged
  | highlight (uri : Uri) (q : Position)
  | folding (uri : Uri)
  | symbols (uri : Uri)
  | formatting (request : Nat) (uri : Uri)
  | wait (ms : Nat)
  | elapse (t : Ticket)
  | closeWindow (batch : Nat)
  | answer (batch : Nat) (response : Response)
  | lint (t : Ticket)
  | deliver (t : Ticket)
  | forward

/-- A server with the documents that were opened and the lints that took place. -/
structure Course where
  server : Server
  opened : List Uri := []
  lints : List (ParsedDocument × Settings) := []

/-- The server after a step. Where something is answered, the answer is left out. -/
def step (tools : Tools) (s : Server) : Step → Server
  | .registerFeatures => s.registerFeatures
  | .registerWorkspace => s.registerWorkspace
  | .didOpen item => (s.didOpen item).1
  | .didChange uri changes version => (s.didChange uri changes version).1
  | .didClose uri => s.didClose uri
  | .configurationChanged => s.configurationChanged
  | .foldersChanged => s.foldersChanged
  | .highlight uri q => (s.highlight tools uri q).2
  | .folding uri => (s.folding tools uri).2
  | .symbols uri => (s.symbols tools uri).2
  | .formatting request uri => s.formatting tools request uri
  | .wait ms => { s with workspace := { s.workspace with clock := s.workspace.clock + ms } }
  | .elapse t => s.elapse t
  | .closeWindow batch => s.closeWindow batch
  | .answer batch response => s.answer tools batch response
  | .lint t => (s.lint tools t).1
  | .deliver t => s.deliver t
  | .forward => s.forward

/-- The documents that a step opens. -/
def opens (s : Server) : Step → List Uri
  | .didOpen item => if (s.didOpen item).2.isNone then [item.uri] else []
  | _ => []

/-- The lints that take place in a step. -/
def lintsIn (tools : Tools) (s : Server) : Step → List (ParsedDocument × Settings)
  | .lint t => (s.workspace.lintOf? tools t).toList
  | _ => []

namespace Course

def step (tools : Tools) (c : Course) (a : Step) : Course :=
  ⟨c.server.step tools a, c.server.opens a ++ c.opened, c.server.lintsIn tools a ++ c.lints⟩

/-- A server after several steps, from its beginning. -/
def afterSteps (tools : Tools) (client : ClientFeatures) (options : Options) (steps : List Step) : Course :=
  steps.foldl (step tools) { server := .ofOptions client options }

end Course

/-! ## Steps that publish nothing -/

variable {tools : Tools} {lints : List (ParsedDocument × Settings)} {s s' s'' : Server}

/-- What was sent and what is about to be. -/
def outgoing (s : Server) : List Publish := s.sent ++ s.queue

/-- A step that leaves the documents alone, loses no live run and publishes nothing. -/
structure Advances (tools : Tools) (lints : List (ParsedDocument × Settings)) (s s' : Server) : Prop where
  workspace : Workspace.Advances tools lints s.workspace s'.workspace
  outgoing : s'.outgoing = s.outgoing
  shutDown : s'.shutDown = s.shutDown

theorem advances_of_watches (h : s.workspace.Watches tools lints) : Advances tools lints s s := ⟨h.refl, rfl, rfl⟩

theorem Advances.trans (h : Advances tools lints s s') (h' : Advances tools lints s' s'') : Advances tools lints s s'' :=
  ⟨h.workspace.trans h'.workspace, h'.outgoing.trans h.outgoing, h'.shutDown.trans h.shutDown⟩

section Advances

variable (h : s.workspace.Watches tools lints)

include h

theorem advances_tree? (uri : Uri) : Advances tools lints s (s.tree? tools uri).2 := ⟨h.tree? uri, rfl, rfl⟩

theorem advances_feature {α : Type} (registered : Bool) (uri : Uri) (f : Source → α) :
    Advances tools lints s (s.feature tools registered uri f).2 := by
  unfold feature
  split
  · exact advances_tree? h uri
  · exact advances_of_watches h

theorem advances_finishFormatting (request : Nat × Uri × Settings) :
    Advances tools lints s (s.finishFormatting tools request) := by
  have ht := advances_tree? h request.2.1
  unfold finishFormatting
  simp only
  split
  · exact ⟨ht.workspace, ht.outgoing, ht.shutDown⟩
  · exact ⟨ht.workspace, ht.outgoing, ht.shutDown⟩

theorem advances_formatting (request : Nat) (uri : Uri) : Advances tools lints s (s.formatting tools request uri) := by
  unfold formatting
  split
  · have hask : Workspace.Advances tools lints s.workspace (s.workspace.askSettings (.formatting request uri) uri).1 :=
      h.setSettings _
    generalize s.workspace.askSettings (.formatting request uri) uri = asked at hask
    obtain ⟨w, outcome⟩ := asked
    have hs : Advances tools lints s { s with workspace := w } := ⟨hask, rfl, rfl⟩
    cases outcome with
    | some outcome => exact hs.trans (advances_finishFormatting hs.workspace.watches _)
    | none => exact hs
  · exact ⟨h.refl, rfl, rfl⟩

theorem advances_answer (batch : Nat) (response : Response) :
    Advances tools lints s (s.answer tools batch response) := by
  have hs : Advances tools lints s { s with workspace := (s.workspace.answer batch response).1 } :=
    ⟨h.answer batch response, rfl, rfl⟩
  unfold answer
  apply List.foldlRecOn (motive := fun s' => Advances tools lints s s')
  · exact hs
  · intro s' ha request _
    exact ha.trans (advances_finishFormatting ha.workspace.watches request)

theorem advances_relint (registered : Bool) : Advances tools lints s (if registered then s.relint else s) := by
  split
  · have hs := h.setSettings s.workspace.settings.invalidateAll
    exact ⟨hs.trans hs.watches.relintAll, rfl, rfl⟩
  · exact advances_of_watches h

omit h in
theorem outgoing_forward (s : Server) : s.forward.outgoing = s.outgoing := by
  unfold forward
  split
  · rfl
  · split
    · rfl
    · next p rest hq =>
      show (s.sent ++ [p]) ++ rest = s.sent ++ s.queue
      rw [hq, List.append_assoc]
      rfl

theorem advances_forward : Advances tools lints s s.forward := by
  refine ⟨?_, outgoing_forward s, ?_⟩
  · unfold forward
    split
    · exact h.refl
    · split <;> exact h.refl
  · unfold forward
    split
    · rfl
    · split <;> rfl

end Advances

/-! ## Accounts -/

namespace Course

variable {c : Course}

/-- What was sent and what is about to be accounts for every document. -/
structure Accounts (tools : Tools) (c : Course) : Prop where
  up : c.server.shutDown = false
  watches : c.server.workspace.Watches tools c.lints
  /-- An open document was published as it is, or a live run will do it. -/
  isOpen : ∀ uri doc, c.server.workspace.store.get? uri = some doc → uri ∈ c.opened ∧
    (c.server.workspace.linter.Busy uri ∨ ∃ notices, doc.Yields tools c.lints uri notices ∧
      Publish.last? uri c.server.outgoing = some ⟨uri, notices, some doc.version⟩)
  /-- A document that is not open was cleared, if there was something to clear. -/
  closed : ∀ uri, c.server.workspace.store.get? uri = none →
    Publish.last? uri c.server.outgoing = if uri ∈ c.opened then some ⟨uri, [], none⟩ else none

theorem accounts_ofOptions (tools : Tools) (client : ClientFeatures) (options : Options) :
    Accounts tools { server := .ofOptions client options } where
  up := rfl
  watches := Workspace.watches_ofOptions tools options
  isOpen := fun uri doc h => by cases h
  closed := fun uri _ => rfl

section Steps

variable (h : Accounts tools c)

include h

/-- A step that publishes nothing. -/
theorem Accounts.advances {lints' : List (ParsedDocument × Settings)} (hsub : c.lints ⊆ lints')
    (ha : Server.Advances tools lints' c.server s') : Accounts tools ⟨s', c.opened, lints'⟩ := by
  refine ⟨ha.shutDown.trans h.up, ha.workspace.watches, ?_, ?_⟩
  · intro uri doc hdoc
    rw [ha.workspace.store] at hdoc
    obtain ⟨hopened, hbusy | ⟨notices, hy, hlast⟩⟩ := h.isOpen uri doc hdoc
    · exact ⟨hopened, Or.inl (ha.workspace.busy uri hbusy)⟩
    · refine ⟨hopened, Or.inr ⟨notices, hy.mono hsub, ?_⟩⟩
      rw [ha.outgoing]
      exact hlast
  · intro uri hnone
    rw [ha.workspace.store] at hnone
    rw [ha.outgoing]
    exact h.closed uri hnone

/-- A document is put in place: a live run for it is under way then. -/
theorem Accounts.put {store : Store} {e : DocumentEvent} (hc : c.server.workspace.store.Commits store e)
    {doc : Document} (hdoc : store.get? e.uri = some doc) {opened' : List Uri}
    (hopened : ∀ uri, uri ∈ opened' ↔ e.uri = uri ∨ uri ∈ c.opened) :
    Accounts tools
      ⟨{ c.server with workspace := { c.server.workspace with store := store }.react e }, opened', c.lints⟩ := by
  obtain ⟨hw, hkeeps, hbusy⟩ := h.watches.react hc
  refine ⟨h.up, hw, ?_, ?_⟩
  · intro uri doc' hdoc'
    rw [Workspace.store_react] at hdoc'
    by_cases hu : e.uri = uri
    · subst hu
      exact ⟨(hopened _).mpr (Or.inl rfl), Or.inl (hbusy doc hdoc)⟩
    · rw [show store.get? uri = c.server.workspace.store.get? uri from hc.get?_of_ne hu] at hdoc'
      obtain ⟨hm, hb | hy⟩ := h.isOpen uri doc' hdoc'
      · exact ⟨(hopened uri).mpr (Or.inr hm), Or.inl (hkeeps uri hu hb)⟩
      · exact ⟨(hopened uri).mpr (Or.inr hm), Or.inr hy⟩
  · intro uri hnone
    rw [Workspace.store_react] at hnone
    have hu : e.uri ≠ uri := by
      rintro rfl
      rw [hdoc] at hnone
      cases hnone
    rw [show store.get? uri = c.server.workspace.store.get? uri from hc.get?_of_ne hu] at hnone
    refine (h.closed uri hnone).trans ?_
    simp only [hopened, hu, false_or]

theorem Accounts.didOpen (item : DocumentItem) : Accounts tools (c.step tools (.didOpen item)) := by
  show Accounts tools ⟨(c.server.didOpen item).1,
    (if (c.server.didOpen item).2.isNone then [item.uri] else []) ++ c.opened, c.lints⟩
  unfold Server.didOpen Workspace.openItem
  cases ho : c.server.workspace.store.openItem item with
  | error e => exact h
  | ok r =>
    obtain ⟨store, e⟩ := r
    have hc := Store.commits_of_openItem ho
    obtain ⟨-, -, rfl, rfl⟩ := Store.openItem_eq_ok ho
    refine h.put hc (Store.get?_put_self _ _ _) ?_
    intro uri
    exact List.mem_cons.trans (or_congr_left eq_comm)

theorem Accounts.didChange (uri : Uri) (changes : List Change) (version : Int) :
    Accounts tools (c.step tools (.didChange uri changes version)) := by
  show Accounts tools ⟨(c.server.didChange uri changes version).1, c.opened, c.lints⟩
  unfold Server.didChange Workspace.change
  cases hch : c.server.workspace.store.change uri changes version with
  | error e => exact h
  | ok r =>
    obtain ⟨store, e⟩ := r
    have hc := Store.commits_of_change hch
    obtain ⟨doc, text, hdoc, -, -, -, rfl, rfl⟩ := Store.change_eq_ok hch
    refine h.put hc (Store.get?_put_self _ _ _) ?_
    -- what is changed was opened before
    rintro uri'
    refine ⟨Or.inr, ?_⟩
    rintro (rfl | hm)
    · exact (h.isOpen uri doc hdoc).1
    · exact hm

/-- Something is published: it accounts for its document, and all others are as before. -/
theorem Accounts.publish {p : Publish} (hup : s'.shutDown = c.server.shutDown)
    (hw : s'.workspace.Watches tools c.lints) (hout : s'.outgoing = c.server.outgoing ++ [p])
    (hstore : ∀ uri, p.uri ≠ uri → s'.workspace.store.get? uri = c.server.workspace.store.get? uri)
    (hbusy : ∀ uri, p.uri ≠ uri → c.server.workspace.linter.Busy uri → s'.workspace.linter.Busy uri)
    (hopened : p.uri ∈ c.opened)
    (hsome : ∀ doc, s'.workspace.store.get? p.uri = some doc →
      doc.Yields tools c.lints p.uri p.notices ∧ p.version = some doc.version)
    (hnone : s'.workspace.store.get? p.uri = none → p = ⟨p.uri, [], none⟩) :
    Accounts tools ⟨s', c.opened, c.lints⟩ := by
  refine ⟨hup.trans h.up, hw, ?_, ?_⟩
  · intro uri doc hdoc
    rw [hout, Publish.last?_concat]
    by_cases hu : p.uri = uri
    · subst hu
      obtain ⟨hy, hv⟩ := hsome doc hdoc
      refine ⟨hopened, Or.inr ⟨p.notices, hy, ?_⟩⟩
      rw [if_pos rfl, ← hv]
    · rw [if_neg hu]
      rw [show s'.workspace.store.get? uri = c.server.workspace.store.get? uri from hstore uri hu] at hdoc
      obtain ⟨hm, hb | hlast⟩ := h.isOpen uri doc hdoc
      · exact ⟨hm, Or.inl (hbusy uri hu hb)⟩
      · exact ⟨hm, Or.inr hlast⟩
  · intro uri hnone'
    rw [hout, Publish.last?_concat]
    by_cases hu : p.uri = uri
    · subst hu
      rw [if_pos rfl, if_pos hopened]
      exact congrArg some (hnone hnone')
    · rw [if_neg hu]
      exact h.closed uri ((hstore uri hu).symm.trans hnone')

/-- A document that is closed is cleared after everything that was published for it. -/
theorem Accounts.didClose (uri : Uri) : Accounts tools (c.step tools (.didClose uri)) := by
  show Accounts tools ⟨c.server.didClose uri, c.opened, c.lints⟩
  unfold Server.didClose Workspace.close
  cases hcl : c.server.workspace.store.close uri with
  | none =>
    simp only [Bool.false_and, Bool.false_eq_true, ↓reduceIte]
    exact h
  | some r =>
    obtain ⟨store, e⟩ := r
    have hc := Store.commits_of_close hcl
    obtain ⟨⟨old, hold⟩, rfl, rfl⟩ := Store.close_eq_some hcl
    obtain ⟨hw, hkeeps, -⟩ := h.watches.react hc
    have hup : (true && !c.server.shutDown) = true := by
      rw [h.up]
      rfl
    simp only
    rw [if_pos hup]
    refine h.publish rfl hw (List.append_assoc _ _ _).symm ?_ hkeeps (h.isOpen uri old hold).1 ?_ fun _ => rfl
    · intro uri' hne
      rw [Workspace.store_react]
      exact Store.get?_without_of_ne _ hne
    · intro doc hdoc
      rw [Workspace.store_react, Store.get?_without_self] at hdoc
      cases hdoc

/-- What a run came to is published after everything else. -/
theorem Accounts.deliver (t : Ticket) : Accounts tools (c.step tools (.deliver t)) := by
  show Accounts tools ⟨c.server.deliver t, c.opened, c.lints⟩
  unfold Server.deliver Workspace.deliver
  obtain ⟨hf, ⟨hnone, hb⟩ | ⟨result, doc, hsome, hdoc, hv, hy, hb⟩⟩ := h.watches.follows.deliver t
  · simp only [hnone]
    exact h.advances (List.Subset.refl _) ⟨h.watches.advances _ hf fun uri => (hb uri).mpr, rfl, rfl⟩
  · have hup : ¬ c.server.shutDown = true := by simp [h.up]
    simp only [hsome]
    rw [if_neg hup]
    have hw : c.server.workspace.Watches tools c.lints := h.watches
    refine h.publish rfl ⟨⟨hw.keepsUp.listening, hw.keepsUp.fresh⟩, hf⟩ (List.append_assoc _ _ _).symm (fun _ _ => rfl)
      (fun uri hne hbusy => (hb uri).mpr ⟨hne, hbusy⟩) (h.isOpen result.uri doc hdoc).1 ?_ ?_
    · intro doc' hdoc'
      obtain rfl : doc = doc' := Option.some.inj (hdoc.symm.trans hdoc')
      exact ⟨hy, congrArg some hv⟩
    · intro hclosed
      cases hdoc.symm.trans hclosed

/-- **Every step keeps the accounts.** -/
theorem Accounts.step (a : Step) : Accounts tools (c.step tools a) := by
  have hw := h.watches
  have hkeep : ∀ s', Server.Advances tools c.lints c.server s' → Accounts tools ⟨s', c.opened, c.lints⟩ :=
    fun s' ha => h.advances (List.Subset.refl _) ha
  cases a with
  | registerFeatures => exact hkeep _ ⟨hw.refl, rfl, rfl⟩
  | registerWorkspace => exact hkeep _ ⟨hw.refl, rfl, rfl⟩
  | didOpen item => exact h.didOpen item
  | didChange uri changes version => exact h.didChange uri changes version
  | didClose uri => exact h.didClose uri
  | configurationChanged => exact hkeep _ (advances_relint hw _)
  | foldersChanged => exact hkeep _ (advances_relint hw _)
  | highlight uri q => exact hkeep _ (advances_feature hw _ _ _)
  | folding uri => exact hkeep _ (advances_feature hw _ _ _)
  | symbols uri => exact hkeep _ (advances_feature hw _ _ _)
  | formatting request uri => exact hkeep _ (advances_formatting hw request uri)
  | wait ms =>
    exact hkeep _ ⟨⟨⟨⟨hw.keepsUp.listening, hw.keepsUp.fresh⟩, hw.follows⟩, rfl, fun _ hb => hb⟩, rfl, rfl⟩
  | elapse t => exact hkeep _ ⟨hw.elapse t, rfl, rfl⟩
  | closeWindow batch => exact hkeep _ ⟨hw.setSettings _, rfl, rfl⟩
  | answer batch response => exact hkeep _ (advances_answer hw batch response)
  | lint t => exact h.advances (List.subset_append_right _ _) ⟨hw.lint t, rfl, rfl⟩
  | deliver t => exact h.deliver t
  | forward => exact hkeep _ (advances_forward hw)

end Steps

theorem accounts_afterSteps (tools : Tools) (client : ClientFeatures) (options : Options) (steps : List Step) :
    Accounts tools (afterSteps tools client options steps) := by
  unfold afterSteps
  apply List.foldlRecOn (motive := Accounts tools)
  · exact accounts_ofOptions tools client options
  · intro c h a _
    exact h.step a

/-- **No notice is lost and none is left over.** After any steps that leave no live run and an empty queue, the last
publish sent for an open document has its version and what a lint of its present text came to; for a document that was
opened and is closed it clears the notices; and for one that was never opened nothing was sent. -/
theorem last?_sent (tools : Tools) (client : ClientFeatures) (options : Options) (steps : List Step)
    (hruns : ∀ r, ¬ (afterSteps tools client options steps).server.workspace.linter.Live r)
    (hqueue : (afterSteps tools client options steps).server.queue = []) (uri : Uri) :
    (∀ doc, (afterSteps tools client options steps).server.workspace.store.get? uri = some doc →
      ∃ notices, doc.Yields tools (afterSteps tools client options steps).lints uri notices ∧
        Publish.last? uri (afterSteps tools client options steps).server.sent = some ⟨uri, notices, some doc.version⟩) ∧
    (uri ∈ (afterSteps tools client options steps).opened →
      (afterSteps tools client options steps).server.workspace.store.get? uri = none →
        Publish.last? uri (afterSteps tools client options steps).server.sent = some ⟨uri, [], none⟩) ∧
    (uri ∉ (afterSteps tools client options steps).opened →
      ∀ p ∈ (afterSteps tools client options steps).server.sent, p.uri ≠ uri) := by
  have h := accounts_afterSteps tools client options steps
  have hout : (afterSteps tools client options steps).server.outgoing =
      (afterSteps tools client options steps).server.sent := by
    unfold outgoing
    rw [hqueue, List.append_nil]
  rw [← hout]
  refine ⟨?_, ?_, ?_⟩
  · intro doc hdoc
    obtain ⟨-, ⟨r, hr, -⟩ | hlast⟩ := h.isOpen uri doc hdoc
    · exact absurd hr (hruns r)
    · exact hlast
  · intro hm hnone
    rw [h.closed uri hnone, if_pos hm]
  · intro hm
    have hnone : (afterSteps tools client options steps).server.workspace.store.get? uri = none := by
      by_contra hopen
      obtain ⟨doc, hdoc⟩ := Option.ne_none_iff_exists'.mp hopen
      exact hm (h.isOpen uri doc hdoc).1
    apply Publish.last?_eq_none
    rw [h.closed uri hnone, if_neg hm]

/-- The standard rules, and the tree of a text that is one identifier of one letter. -/
def oneLetter : Tools :=
  ⟨fun _ => .tree <|
      .mk ⟨"program", true, false, false, 0, 1, none⟩ [.mk ⟨"identifier", true, false, false, 0, 1, none⟩ []],
    Engine.standard⟩

/-- One document is changed before its first run lints, another is closed before it does, and the client has no settings
to give. -/
def interrupted : List Step :=
  [.didOpen ⟨"file:///a.rb", 1, "ruby", []⟩, .didChange "file:///a.rb" [⟨none, ['x']⟩] 3,
    .didOpen ⟨"file:///b.rb", 5, "ruby", []⟩, .elapse 0, .elapse 1, .didClose "file:///b.rb", .closeWindow 1,
    .answer 1 (.refused "busy"), .lint 1, .forward, .deliver 1, .forward]

/-- What is published last for the document that was changed: it lacks its final newline. -/
def unfinished : List Notice := [⟨⟨⟨0, 1⟩, ⟨0, 1⟩⟩, .convention, "final-newline", "Final newline missing."⟩]

theorem last?_sent_interrupted :
    ((∀ r, ¬ (afterSteps oneLetter {} {} interrupted).server.workspace.linter.Live r) ∧
      (afterSteps oneLetter {} {} interrupted).server.queue = []) ∧
    (Document.Yields oneLetter (afterSteps oneLetter {} {} interrupted).lints "file:///a.rb" ⟨3, "ruby", ['x']⟩
        unfinished ∧
      Publish.last? "file:///a.rb" (afterSteps oneLetter {} {} interrupted).server.sent =
        some ⟨"file:///a.rb", unfinished, some 3⟩) ∧
    Publish.last? "file:///b.rb" (afterSteps oneLetter {} {} interrupted).server.sent = some ⟨"file:///b.rb", [], none⟩ ∧
    ∀ p ∈ (afterSteps oneLetter {} {} interrupted).server.sent, p.uri ≠ "file:///c.rb" := by
  have hruns : ∀ r, ¬ (afterSteps oneLetter {} {} interrupted).server.workspace.linter.Live r := by
    have hcancelled : ∀ r ∈ (afterSteps oneLetter {} {} interrupted).server.workspace.linter.runs,
        (afterSteps oneLetter {} {} interrupted).server.workspace.linter.isCancelled r.ticket = true := by decide
    intro r hr
    cases hr.2.symm.trans (hcancelled r hr.1)
  have hqueue : (afterSteps oneLetter {} {} interrupted).server.queue = [] := by decide
  refine ⟨⟨hruns, hqueue⟩, ?_, ?_, ?_⟩
  · obtain ⟨notices, hyields, hlast⟩ :=
      (last?_sent oneLetter {} {} interrupted hruns hqueue "file:///a.rb").1 ⟨3, "ruby", ['x']⟩ (by decide)
    have hnotices : Publish.last? "file:///a.rb" (afterSteps oneLetter {} {} interrupted).server.sent =
        some ⟨"file:///a.rb", unfinished, some 3⟩ := by decide
    cases hlast.symm.trans hnotices
    exact ⟨hyields, hnotices⟩
  · exact (last?_sent oneLetter {} {} interrupted hruns hqueue "file:///b.rb").2.1 (by decide) (by decide)
  · exact (last?_sent oneLetter {} {} interrupted hruns hqueue "file:///c.rb").2.2 (by decide)

end Course

end Server

end RubyServer
