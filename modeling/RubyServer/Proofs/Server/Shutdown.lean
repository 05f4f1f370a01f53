import Mathlib.Data.List.Induction
import RubyServer.Proofs.Server.Publishing
import RubyServer.Proofs.SettingsCache.Alignment

/-!
# Shutdown is final

A server is shut down while runs are under way and settings are waited for, and afterwards everything may go on to
happen: documents are opened and changed, features are asked for, runs lint and ask to be delivered, answers to fetches
arrive, and the server is shut down again. Each of this meets a guard of its own. Settings that were ended never change
again (`SettingsCache.Ended`, `SettingsCache.Goes`), a linter that was stopped starts no run (`Linter.Idles`), and a
server that was shut down sends nothing; what a step does under these guards is `Server.Proceeds`. Those who waited for
settings are let go at the shutdown (`released_shutdown`): their runs end, and their documents are formatted with the
default settings. So whatever happened before, and whatever happens after, shutdown is final (`shutdown_final`).
-/

namespace RubyServer

/-! ## Settings that were ended -/

namespace SettingsCache

variable {ω : Type} {c c' c'' : SettingsCache ω}

/-- Settings that were ended: nothing is kept, fetched or waited for. -/
structure Ended (c : SettingsCache ω) : Prop where
  shutDown : c.shutDown = true
  entries : c.entries = ∅
  openBatch : c.openBatch = none
  inFlight : c.inFlight = []
  waiters : c.waiters = []

/-- What an operation other than the end does to the settings: they go on as they were, and do not change if they were
ended. -/
structure Goes (c c' : SettingsCache ω) : Prop where
  shutDown : c'.shutDown = c.shutDown
  eq_of_ended : c.Ended → c' = c

theorem Goes.refl (c : SettingsCache ω) : Goes c c := ⟨rfl, fun _ => rfl⟩

theorem Goes.trans (h : Goes c c') (h' : Goes c' c'') : Goes c c'' := by
  refine ⟨h'.shutDown.trans h.shutDown, fun he => ?_⟩
  have heq := h.eq_of_ended he
  rw [h'.eq_of_ended (heq ▸ he), heq]

/-- Whoever asks for settings that were ended is refused at once. -/
theorem Ended.get (h : c.Ended) (who : ω) (scope : String) (due : Nat) :
    c.get who scope due = (c, some (.error .cancelled)) := by
  unfold SettingsCache.get
  rw [if_pos h.shutDown]

theorem Ended.state (h : c.Ended) (scope : String) : c.state scope = .absent := by
  unfold SettingsCache.state
  rw [h.entries, Table.get?_empty]

theorem Ended.answer (h : c.Ended) (id : Nat) (response : Response) : c.answer id response = (c, []) := by
  unfold SettingsCache.answer
  rw [h.inFlight]
  rfl

theorem goes_get (c : SettingsCache ω) (who : ω) (scope : String) (due : Nat) : Goes c (c.get who scope due).1 := by
  refine ⟨?_, fun he => congrArg Prod.fst (he.get who scope due)⟩
  rcases get_cases c who scope due with ⟨-, h⟩ | ⟨-, _, -, h⟩ | ⟨-, _, _, -, h⟩ | ⟨-, -, h⟩
  · rw [h]
  · rw [h]
  · rw [h]
    rfl
  · rw [h]
    exact shutDown_enlist c scope due

theorem goes_closeWindow (c : SettingsCache ω) (id : Nat) : Goes c (c.closeWindow id) := by
  rcases closeWindow_cases c id with h | ⟨batch, ho, -, h⟩
  · rw [h]
    exact .refl c
  · rw [h]
    exact ⟨rfl, fun he => by cases he.openBatch.symm.trans ho⟩

theorem goes_answer (c : SettingsCache ω) (id : Nat) (response : Response) : Goes c (c.answer id response).1 := by
  refine ⟨?_, fun he => congrArg Prod.fst (he.answer id response)⟩
  unfold SettingsCache.answer
  split <;> rfl

theorem goes_invalidateAll (c : SettingsCache ω) : Goes c c.invalidateAll := by
  constructor
  · rw [(forgets_invalidateAll c).frame]
  · intro he
    unfold invalidateAll Table.keys
    rw [he.entries]
    rfl

/-- Settings that were not ended before are ended by a shutdown, and all who wait are refused. -/
theorem shutdown_of_ended (h : c.shutDown = true → c.Ended) :
    c.shutdown.1.Ended ∧ c.shutdown.2 = c.waiters.map fun w => (w.who, .error .cancelled) := by
  rcases shutdown_cases c with ⟨hs, heq⟩ | ⟨-, heq⟩
  · rw [heq, (h hs).waiters]
    exact ⟨h hs, rfl⟩
  · rw [heq]
    exact ⟨⟨rfl, rfl, rfl, rfl, rfl⟩, rfl⟩

end SettingsCache

/-! ## A linter that was stopped -/

namespace Linter

variable {l l' l'' : Linter} {t : Ticket}

/-- No run is new. -/
structure StartsNone (l l' : Linter) : Prop where
  nextTicket : l'.nextTicket = l.nextTicket
  tickets : ∀ r' ∈ l'.runs, ∃ r ∈ l.runs, r.ticket = r'.ticket

/-- What an operation other than stopping does to a linter: no run is new if it was stopped. -/
structure Idles (l l' : Linter) : Prop where
  stopped : l'.stopped = l.stopped
  startsNone : l.stopped = true → StartsNone l l'

theorem StartsNone.refl (l : Linter) : StartsNone l l := ⟨rfl, fun r hr => ⟨r, hr, rfl⟩⟩

theorem StartsNone.trans (h : StartsNone l l') (h' : StartsNone l' l'') : StartsNone l l'' := by
  refine ⟨h'.nextTicket.trans h.nextTicket, fun r hr => ?_⟩
  obtain ⟨r', hr', ht'⟩ := h'.tickets r hr
  obtain ⟨r'', hr'', ht''⟩ := h.tickets r' hr'
  exact ⟨r'', hr'', ht''.trans ht'⟩

theorem Idles.refl (l : Linter) : Idles l l := ⟨rfl, fun _ => .refl l⟩

theorem Idles.trans (h : Idles l l') (h' : Idles l' l'') : Idles l l'' :=
  ⟨h'.stopped.trans h.stopped, fun hs => (h.startsNone hs).trans (h'.startsNone (h.stopped.trans hs))⟩

theorem idles_schedule (l : Linter) (uri : Uri) (version : Int) (due : Nat) : Idles l (l.schedule uri version due) := by
  unfold schedule
  split
  · exact .refl l
  · next hs =>
    refine ⟨?_, fun hs' => absurd hs' hs⟩
    simp only
    split
    · exact stopped_enter l uri
    · exact stopped_enter l uri

theorem idles_forget (l : Linter) (uri : Uri) : Idles l (l.forget uri) := by
  unfold forget
  split
  · exact ⟨rfl, fun _ => ⟨rfl, fun r hr => ⟨r, hr, rfl⟩⟩⟩
  · exact .refl l

theorem idles_drop (l : Linter) (t : Ticket) : Idles l (l.drop t) :=
  ⟨rfl, fun _ => ⟨rfl, fun r hr => ⟨r, (mem_drop.mp hr).1, rfl⟩⟩⟩

theorem idles_moveTo (l : Linter) (t : Ticket) (stage : Stage) : Idles l (l.moveTo t stage) := by
  refine ⟨rfl, fun _ => ⟨rfl, fun r hr => ?_⟩⟩
  obtain ⟨r₀, hr₀, rfl⟩ := mem_moveTo.mp hr
  exact ⟨r₀, hr₀, (r₀.ticket_onTo t stage).symm⟩

theorem idles_settle (l : Linter) (t : Ticket) (settings : Settings) : Idles l (l.settle t settings) := by
  unfold settle
  split
  · exact idles_drop l t
  · exact idles_moveTo l t _

theorem idles_finish (l : Linter) (r : Run) (tree : ParsedDocument) (outcome : LintOutcome) :
    Idles l (l.finish r tree outcome) := by
  unfold finish
  split
  · exact idles_moveTo l r.ticket _
  · exact idles_drop l r.ticket

theorem idles_deliver (l : Linter) (t : Ticket) : Idles l (l.deliver t).1 := by
  have hdrop := idles_drop l t
  unfold deliver
  split
  · split
    · simp only
      split
      · exact hdrop
      · split
        · exact hdrop
        · exact ⟨hdrop.stopped, fun hs => ⟨(hdrop.startsNone hs).nextTicket, (hdrop.startsNone hs).tickets⟩⟩
    · exact .refl l
  · exact .refl l

theorem isCancelled_of_stopped (hs : l.stopped = true) (t : Ticket) : l.isCancelled t = true := by
  unfold isCancelled
  rw [hs, Bool.true_or]

/-- Nothing is delivered by a linter that was stopped. -/
theorem deliver_of_stopped (hs : l.stopped = true) (t : Ticket) : (l.deliver t).2 = none := by
  have hc : (l.drop t).isCancelled t = true := isCancelled_of_stopped hs t
  unfold deliver
  split
  · split
    · simp only [hc, Bool.or_true, ↓reduceIte]
    · rfl
  · rfl

end Linter

/-! ## Steps of a workspace -/

namespace Workspace

variable {tools : Tools} {w w' w'' : Workspace}

/-- What anything but the end does to a workspace: its settings go on, and its linter idles if it was stopped. -/
structure Proceeds (w w' : Workspace) : Prop where
  settings : w.settings.Goes w'.settings
  linter : w.linter.Idles w'.linter

theorem Proceeds.refl (w : Workspace) : Proceeds w w := ⟨.refl _, .refl _⟩

theorem Proceeds.trans (h : Proceeds w w') (h' : Proceeds w' w'') : Proceeds w w'' :=
  ⟨h.settings.trans h'.settings, h.linter.trans h'.linter⟩

theorem proceeds_react (w : Workspace) (store : Store) (e : DocumentEvent) :
    Proceeds w ({ w with store := store }.react e) := by
  unfold react
  split
  · cases e with
    | opened uri version => exact ⟨.refl _, Linter.idles_schedule _ _ _ _⟩
    | changed uri version => exact ⟨.refl _, Linter.idles_schedule _ _ _ _⟩
    | closed uri => exact ⟨.refl _, Linter.idles_forget _ _⟩
  · exact ⟨.refl _, .refl _⟩

theorem proceeds_commit (w : Workspace) (r : Except DocumentError (Store × DocumentEvent)) :
    Proceeds w (w.commit r).1 := by
  match r with
  | .ok (store, e) => exact proceeds_react w store e
  | .error e => exact .refl w

theorem proceeds_close (w : Workspace) (uri : Uri) : Proceeds w (w.close uri).1 := by
  unfold close
  split
  · exact proceeds_react w _ _
  · exact .refl w

theorem proceeds_relintAll (w : Workspace) : Proceeds w w.relintAll := by
  unfold relintAll
  apply List.foldlRecOn (motive := fun w' => Proceeds w w')
  · exact .refl w
  · intro w' h d _
    exact h.trans ⟨.refl _, Linter.idles_schedule _ _ _ _⟩

theorem proceeds_tree? (tools : Tools) (w : Workspace) (uri : Uri) : Proceeds w (w.tree? tools uri).2 :=
  ⟨.refl _, .refl _⟩

theorem proceeds_askSettings (w : Workspace) (who : Requester) (uri : Uri) : Proceeds w (w.askSettings who uri).1 :=
  ⟨SettingsCache.goes_get _ _ _ _, .refl _⟩

theorem proceeds_handOut (w : Workspace) (answers : List (Requester × SettingsOutcome)) :
    Proceeds w (w.handOut answers).1 := by
  unfold handOut
  apply List.foldlRecOn (motive := fun p : Workspace × List (Nat × Uri × Settings) => Proceeds w p.1)
  · exact .refl w
  · rintro ⟨w', requests⟩ h ⟨who, outcome⟩ _
    cases who with
    | run t => exact h.trans ⟨.refl _, Linter.idles_settle _ _ _⟩
    | formatting request uri => exact h

theorem proceeds_answer (w : Workspace) (batch : Nat) (response : Response) : Proceeds w (w.answer batch response).1 := by
  have hs : Proceeds w { w with settings := (w.settings.answer batch response).1 } :=
    ⟨SettingsCache.goes_answer _ _ _, .refl _⟩
  exact hs.trans (proceeds_handOut _ _)

theorem proceeds_elapse (w : Workspace) (t : Ticket) : Proceeds w (w.elapse t) := by
  unfold elapse
  split
  · next r _ =>
    split
    · split
      · exact ⟨.refl _, Linter.idles_drop _ _⟩
      · have hask := proceeds_askSettings w (.run t) r.uri
        generalize w.askSettings (.run t) r.uri = asked at hask
        obtain ⟨w', outcome⟩ := asked
        cases outcome with
        | some outcome => exact hask.trans ⟨.refl _, Linter.idles_settle _ _ _⟩
        | none => exact hask.trans ⟨.refl _, Linter.idles_moveTo _ _ _⟩
    · exact .refl w
  · exact .refl w

theorem proceeds_lint (tools : Tools) (w : Workspace) (t : Ticket) : Proceeds w (w.lint tools t).1 := by
  unfold lint
  split
  · next r _ =>
    split
    · have htree := proceeds_tree? tools w r.uri
      generalize w.tree? tools r.uri = looked at htree
      obtain ⟨tree, w'⟩ := looked
      cases tree with
      | none => exact htree.trans ⟨.refl _, Linter.idles_drop _ _⟩
      | some tree => exact htree.trans ⟨.refl _, Linter.idles_finish _ _ _ _⟩
    · exact .refl w
  · exact .refl w

/-! ## The end of a workspace -/

/-- A workspace that has come to its end, before those who wait for settings hear of it. -/
def halted (w : Workspace) : Workspace :=
  { w with
    listening := false, linter := w.linter.stop, forest := w.forest.releaseAll, settings := w.settings.shutdown.1 }

theorem teardown_eq (w : Workspace) : w.teardown = w.halted.handOut w.settings.shutdown.2 := rfl

/-- The settings are ended and the linter is stopped, and no run is new. -/
theorem teardown_ends (w : Workspace) (h : w.settings.shutDown = true → w.settings.Ended) :
    w.teardown.1.settings.Ended ∧ w.teardown.1.linter.stopped = true ∧ w.linter.StartsNone w.teardown.1.linter := by
  obtain ⟨hended, -⟩ := SettingsCache.shutdown_of_ended h
  have hp := proceeds_handOut w.halted w.settings.shutdown.2
  have hnone := hp.linter.startsNone rfl
  rw [teardown_eq]
  refine ⟨?_, hp.linter.stopped, hnone.nextTicket, hnone.tickets⟩
  rw [hp.settings.eq_of_ended hended]
  exact hended

/-- What is left of a workspace when everyone of a list was refused: their runs have ended, and their requests to format
go on with the default settings. -/
structure Refuses (w : Workspace) (waiting : List Requester) (p : Workspace × List (Nat × Uri × Settings)) : Prop where
  stopped : p.1.linter.stopped = true
  store : p.1.store = w.store
  forest : p.1.forest = w.forest
  runs : ∀ t, .run t ∈ waiting → ∀ r ∈ p.1.linter.runs, r.ticket ≠ t
  requests : ∀ request uri, .formatting request uri ∈ waiting → (request, uri, {}) ∈ p.2

/-- One more is refused. -/
theorem Refuses.handTo {waiting : List Requester} {p : Workspace × List (Nat × Uri × Settings)}
    (h : Refuses w waiting p) (who : Requester) :
    Refuses w (waiting ++ [who]) (handTo p (who, .error .cancelled)) := by
  obtain ⟨w', requests⟩ := p
  cases who with
  | run t =>
    have hsettle : w'.linter.settle t {} = w'.linter.drop t := by
      unfold Linter.settle
      rw [if_pos (Linter.isCancelled_of_stopped h.stopped t)]
    have heq : Workspace.handTo (w', requests) (.run t, .error .cancelled) =
        ({ w' with linter := w'.linter.drop t }, requests) := by
      rw [← hsettle]
      rfl
    rw [heq]
    refine ⟨h.stopped, h.store, h.forest, ?_, ?_⟩
    · intro t' ht' r hr
      obtain ⟨hr, hne⟩ := Linter.mem_drop.mp hr
      rcases List.mem_append.mp ht' with ht' | ht'
      · exact h.runs t' ht' r hr
      · cases List.mem_singleton.mp ht'
        exact hne
    · intro request uri hm
      rcases List.mem_append.mp hm with hm | hm
      · exact h.requests request uri hm
      · cases List.mem_singleton.mp hm
  | formatting request uri =>
    refine ⟨h.stopped, h.store, h.forest, ?_, ?_⟩
    · intro t ht
      rcases List.mem_append.mp ht with ht | ht
      · exact h.runs t ht
      · cases List.mem_singleton.mp ht
    · intro request' uri' hm
      rcases List.mem_append.mp hm with hm | hm
      · exact List.mem_append_left _ (h.requests request' uri' hm)
      · cases List.mem_singleton.mp hm
        exact List.mem_append_right _ (List.mem_singleton.mpr rfl)

theorem refuses_handOut (hs : w.linter.stopped = true) (waiting : List Requester) :
    Refuses w waiting (w.handOut (waiting.map fun who => (who, .error .cancelled))) := by
  unfold handOut
  -- answers are handed out from the front, so the list grows at its end
  induction waiting using List.reverseRecOn with
  | nil => exact ⟨hs, rfl, rfl, fun t ht => absurd ht List.not_mem_nil, fun _ _ hr => absurd hr List.not_mem_nil⟩
  | append_singleton waiting who ih =>
    rw [List.map_append, List.foldl_append]
    exact ih.handTo who

theorem refuses_teardown (h : w.settings.shutDown = true → w.settings.Ended) :
    Refuses w.halted (w.settings.waiters.map Waiter.who) w.teardown := by
  obtain ⟨-, hanswers⟩ := SettingsCache.shutdown_of_ended h
  have hr := refuses_handOut (w := w.halted) rfl (w.settings.waiters.map Waiter.who)
  rw [List.map_map] at hr
  rw [teardown_eq, hanswers]
  exact hr

end Workspace

/-! ## Steps of a server -/

namespace Server

variable {tools : Tools} {s s' s'' : Server}

/-- What a step does to a server: nothing is sent once it was shut down, and no answer is taken back. -/
structure Proceeds (s s' : Server) : Prop where
  workspace : s.workspace.Proceeds s'.workspace
  shutDown : s'.shutDown = s.shutDown
  sent : s.shutDown = true → s'.sent = s.sent
  formatted : s.formatted ⊆ s'.formatted

theorem Proceeds.refl (s : Server) : Proceeds s s := ⟨.refl _, rfl, fun _ => rfl, List.Subset.refl _⟩

theorem Proceeds.trans (h : Proceeds s s') (h' : Proceeds s' s'') : Proceeds s s'' where
  workspace := h.workspace.trans h'.workspace
  shutDown := h'.shutDown.trans h.shutDown
  sent := fun hs => (h'.sent (h.shutDown.trans hs)).trans (h.sent hs)
  formatted := List.Subset.trans h.formatted h'.formatted

/-- A step of the workspace alone. -/
theorem proceeds_of_workspace {w : Workspace} (h : s.workspace.Proceeds w) : Proceeds s { s with workspace := w } :=
  ⟨h, rfl, fun _ => rfl, List.Subset.refl _⟩

theorem proceeds_feature {α : Type} (tools : Tools) (s : Server) (registered : Bool) (uri : Uri) (f : Source → α) :
    Proceeds s (s.feature tools registered uri f).2 := by
  unfold feature
  split
  · exact proceeds_of_workspace (Workspace.proceeds_tree? tools _ uri)
  · exact .refl s

theorem proceeds_finishFormatting (tools : Tools) (s : Server) (request : Nat × Uri × Settings) :
    Proceeds s (s.finishFormatting tools request) := by
  have ht := Workspace.proceeds_tree? tools s.workspace request.2.1
  unfold finishFormatting
  simp only
  split
  · exact ⟨ht, rfl, fun _ => rfl, List.Subset.refl _⟩
  · exact ⟨ht, rfl, fun _ => rfl, List.subset_append_left _ _⟩

theorem proceeds_foldl_finishFormatting (tools : Tools) (s : Server) (requests : List (Nat × Uri × Settings)) :
    Proceeds s (requests.foldl (finishFormatting tools) s) := by
  apply List.foldlRecOn (motive := fun s' => Proceeds s s')
  · exact .refl s
  · intro s' h request _
    exact h.trans (proceeds_finishFormatting tools s' request)

theorem proceeds_formatting (tools : Tools) (s : Server) (request : Nat) (uri : Uri) :
    Proceeds s (s.formatting tools request uri) := by
  unfold formatting
  split
  · have hask := Workspace.proceeds_askSettings s.workspace (.formatting request uri) uri
    generalize s.workspace.askSettings (.formatting request uri) uri = asked at hask
    obtain ⟨w, outcome⟩ := asked
    have hs : Proceeds s { s with workspace := w } := proceeds_of_workspace hask
    cases outcome with
    | some outcome => exact hs.trans (proceeds_finishFormatting tools _ _)
    | none => exact hs
  · exact ⟨.refl _, rfl, fun _ => rfl, List.subset_append_left _ _⟩

theorem proceeds_relint (s : Server) (registered : Bool) : Proceeds s (if registered then s.relint else s) := by
  split
  · have hs : s.workspace.Proceeds { s.workspace with settings := s.workspace.settings.invalidateAll } :=
      ⟨SettingsCache.goes_invalidateAll _, .refl _⟩
    exact proceeds_of_workspace (hs.trans (Workspace.proceeds_relintAll _))
  · exact .refl s

theorem proceeds_didClose (s : Server) (uri : Uri) : Proceeds s (s.didClose uri) := by
  have hclose := Workspace.proceeds_close s.workspace uri
  unfold didClose
  simp only
  split
  · exact ⟨hclose, rfl, fun _ => rfl, List.Subset.refl _⟩
  · exact proceeds_of_workspace hclose

theorem proceeds_deliver (s : Server) (t : Ticket) : Proceeds s (s.deliver t) := by
  have hdeliver : s.workspace.Proceeds (s.workspace.deliver t).1 := ⟨.refl _, Linter.idles_deliver _ t⟩
  unfold deliver
  simp only
  split
  · split
    · exact proceeds_of_workspace hdeliver
    · exact ⟨hdeliver, rfl, fun _ => rfl, List.Subset.refl _⟩
  · exact proceeds_of_workspace hdeliver

theorem proceeds_forward (s : Server) : Proceeds s s.forward := by
  unfold forward
  split
  · exact .refl s
  · next hs =>
    split
    · exact .refl s
    · exact ⟨.refl _, rfl, fun hs' => absurd hs' hs, List.Subset.refl _⟩

/-- **What a step does to a server that may have been shut down.** -/
theorem proceeds_step (tools : Tools) (s : Server) (a : Step) : Proceeds s (s.step tools a) := by
  cases a with
  | registerFeatures => exact ⟨.refl _, rfl, fun _ => rfl, List.Subset.refl _⟩
  | registerWorkspace => exact ⟨.refl _, rfl, fun _ => rfl, List.Subset.refl _⟩
  | didOpen item => exact proceeds_of_workspace (Workspace.proceeds_commit _ _)
  | didChange uri changes version => exact proceeds_of_workspace (Workspace.proceeds_commit _ _)
  | didClose uri => exact proceeds_didClose s uri
  | configurationChanged => exact proceeds_relint s _
  | foldersChanged => exact proceeds_relint s _
  | highlight uri q => exact proceeds_feature tools s _ _ _
  | folding uri => exact proceeds_feature tools s _ _ _
  | symbols uri => exact proceeds_feature tools s _ _ _
  | formatting request uri => exact proceeds_formatting tools s request uri
  | wait ms => exact proceeds_of_workspace ⟨.refl _, .refl _⟩
  | elapse t => exact proceeds_of_workspace (Workspace.proceeds_elapse _ t)
  | closeWindow batch =>
    exact ⟨⟨SettingsCache.goes_closeWindow _ batch, .refl _⟩, rfl, fun _ => rfl, List.Subset.refl _⟩
  | answer batch response =>
    have hw := Workspace.proceeds_answer s.workspace batch response
    exact (proceeds_of_workspace hw).trans (proceeds_foldl_finishFormatting tools _ _)
  | lint t => exact proceeds_of_workspace (Workspace.proceeds_lint tools _ t)
  | deliver t => exact proceeds_deliver s t
  | forward => exact proceeds_forward s

/-! ## The end of a server -/

/-- What may happen to a server, its end included. -/
inductive Move where
  | step (a : Step)
  | teardown
  | shutdown

/-- The server after a move. -/
def move (tools : Tools) (s : Server) : Move → Server
  | .step a => s.step tools a
  | .teardown => s.teardown tools
  | .shutdown => s.shutdown tools

/-- A server after several moves, from its beginning. -/
def afterMoves (tools : Tools) (client : ClientFeatures) (options : Options) (moves : List Move) : Server :=
  moves.foldl (move tools) (ofOptions client options)

/-- The flags of a server go together. -/
structure Coherent (s : Server) : Prop where
  ended : s.workspace.settings.shutDown = true → s.workspace.settings.Ended
  stopped : s.shutDown = true → s.workspace.linter.stopped = true
  settings : s.shutDown = true → s.workspace.settings.shutDown = true

/-- What becomes of a server that is shut down: no run is new, nothing is sent, and no answer is taken back. -/
structure Rests (s s' : Server) : Prop where
  startsNone : s.workspace.linter.StartsNone s'.workspace.linter
  sent : s'.sent = s.sent
  formatted : s.formatted ⊆ s'.formatted

theorem Rests.refl (s : Server) : Rests s s := ⟨.refl _, rfl, List.Subset.refl _⟩

theorem Rests.trans (h : Rests s s') (h' : Rests s' s'') : Rests s s'' :=
  ⟨h.startsNone.trans h'.startsNone, h'.sent.trans h.sent, List.Subset.trans h.formatted h'.formatted⟩

theorem Proceeds.coherent (h : Proceeds s s') (hc : Coherent s) : Coherent s' where
  ended := fun hs => by
    have he := hc.ended (h.workspace.settings.shutDown.symm.trans hs)
    rw [h.workspace.settings.eq_of_ended he]
    exact he
  stopped := fun hs => h.workspace.linter.stopped.trans (hc.stopped (h.shutDown.symm.trans hs))
  settings := fun hs => h.workspace.settings.shutDown.trans (hc.settings (h.shutDown.symm.trans hs))

theorem Proceeds.rests (h : Proceeds s s') (hs : s.shutDown = true) (hl : s.workspace.linter.stopped = true) :
    Rests s s' :=
  ⟨h.workspace.linter.startsNone hl, h.sent hs, h.formatted⟩

/-- The end of the workspace of a server. -/
theorem teardown_coherent (tools : Tools) (h : s.workspace.settings.shutDown = true → s.workspace.settings.Ended) :
    Coherent (s.teardown tools) ∧ (s.teardown tools).shutDown = s.shutDown ∧
      (s.shutDown = true → Rests s (s.teardown tools)) := by
  obtain ⟨hended, hstopped, hnone⟩ := s.workspace.teardown_ends h
  have hp : Proceeds { s with workspace := s.workspace.teardown.1 } (s.teardown tools) :=
    proceeds_foldl_finishFormatting tools _ _
  refine ⟨hp.coherent ⟨fun _ => hended, fun _ => hstopped, fun _ => hended.shutDown⟩, hp.shutDown, fun hs => ?_⟩
  have hr := hp.rests hs hstopped
  exact ⟨hnone.trans hr.startsNone, hr.sent, hr.formatted⟩

/-- A shutdown ends a server. -/
theorem shutdown_coherent (tools : Tools) (hc : Coherent s) :
    Coherent (s.shutdown tools) ∧ (s.shutdown tools).shutDown = true ∧ Rests s (s.shutdown tools) := by
  unfold shutdown
  split
  · next hs => exact ⟨hc, hs, .refl s⟩
  · obtain ⟨hc', hs', hr⟩ := teardown_coherent (s := { s with shutDown := true }) tools hc.ended
    exact ⟨hc', hs', (hr rfl).startsNone, (hr rfl).sent, (hr rfl).formatted⟩

theorem Coherent.move (hc : Coherent s) (m : Move) : Coherent (s.move tools m) := by
  cases m with
  | step a => exact (proceeds_step tools s a).coherent hc
  | teardown => exact (teardown_coherent tools hc.ended).1
  | shutdown => exact (shutdown_coherent tools hc).1

theorem coherent_afterMoves (tools : Tools) (client : ClientFeatures) (options : Options) (moves : List Move) :
    Coherent (afterMoves tools client options moves) := by
  unfold afterMoves
  apply List.foldlRecOn (motive := Coherent)
  · exact ⟨fun h => (by cases h), fun h => (by cases h), fun h => (by cases h)⟩
  · intro s h m _
    exact h.move m

/-- A move of a server that was shut down. -/
theorem rests_move (tools : Tools) (hc : Coherent s) (hs : s.shutDown = true) (m : Move) :
    (s.move tools m).shutDown = true ∧ Rests s (s.move tools m) := by
  cases m with
  | step a =>
    have h := proceeds_step tools s a
    exact ⟨h.shutDown.trans hs, h.rests hs (hc.stopped hs)⟩
  | teardown =>
    obtain ⟨-, hs', hr⟩ := teardown_coherent tools hc.ended
    exact ⟨hs'.trans hs, hr hs⟩
  | shutdown => exact (shutdown_coherent tools hc).2

theorem rests_moves (tools : Tools) (hc : Coherent s) (hs : s.shutDown = true) (moves : List Move) :
    Coherent (moves.foldl (move tools) s) ∧ (moves.foldl (move tools) s).shutDown = true ∧
      Rests s (moves.foldl (move tools) s) := by
  apply List.foldlRecOn (motive := fun s' => Coherent s' ∧ s'.shutDown = true ∧ Rests s s')
  · exact ⟨hc, hs, .refl s⟩
  · rintro s' ⟨hc', hs', hr⟩ m _
    obtain ⟨hs'', hr'⟩ := rests_move tools hc' hs' m
    exact ⟨hc'.move m, hs'', hr.trans hr'⟩

/-! ## Those who waited -/

/-- The edit that formats a document with the default settings. -/
def defaultEdit (tools : Tools) (s : Server) (uri : Uri) : Option TextEdit :=
  (s.workspace.store.get? uri).bind fun doc => Format.edit? {} ⟨doc.text, tools.parse doc.text⟩

/-- Someone who waited for settings at `s` waits no more: a run has ended, and a request to format was answered as if
there were no settings. -/
def Released (tools : Tools) (s s' : Server) : Requester → Prop
  | .run t => ∀ r ∈ s'.workspace.linter.runs, r.ticket ≠ t
  | .formatting request uri => (request, s.defaultEdit tools uri) ∈ s'.formatted

theorem Released.rests {who : Requester} (h : Released tools s s' who) (hr : Rests s' s'') :
    Released tools s s'' who := by
  cases who with
  | run t =>
    intro r hr'' ht
    obtain ⟨r', hr', ht'⟩ := hr.startsNone.tickets r hr''
    exact h r' hr' (ht'.trans ht)
  | formatting request uri => exact hr.formatted h

/-- Answering a request to format: the forest stays fresh, and with the default settings the answer is the edit of the
present text. -/
theorem finishFormatting_of_fresh (hf : s.workspace.forest.Fresh tools.parse s.workspace.store)
    (request : Nat × Uri × Settings) :
    (s.finishFormatting tools request).workspace.store = s.workspace.store ∧
    (s.finishFormatting tools request).workspace.forest.Fresh tools.parse s.workspace.store ∧
    (request.2.2 = {} → (request.1, s.defaultEdit tools request.2.1) ∈ (s.finishFormatting tools request).formatted) := by
  obtain ⟨n, uri, settings⟩ := request
  obtain ⟨htree, hfresh⟩ := hf.get? uri
  unfold finishFormatting Server.tree? Workspace.tree?
  simp only [htree]
  split
  · next hb =>
    refine ⟨rfl, hfresh, ?_⟩
    rintro rfl
    obtain ⟨tree, -, hbreaks⟩ := Option.any_eq_true _ _ |>.mp hb
    simp [Format.breaksOff, Format.maxIndentWidth] at hbreaks
  · refine ⟨rfl, hfresh, ?_⟩
    rintro rfl
    apply List.mem_append_right
    rw [List.mem_singleton, defaultEdit, Option.bind_map]
    rfl

/-- All requests that were given the default settings are answered. -/
theorem mem_formatted_foldl {requests : List (Nat × Uri × Settings)} {request : Nat} {uri : Uri}
    (hf : s.workspace.forest.Fresh tools.parse s.workspace.store) (hm : (request, uri, {}) ∈ requests) :
    (request, s.defaultEdit tools uri) ∈ (requests.foldl (finishFormatting tools) s).formatted := by
  induction requests generalizing s with
  | nil => cases hm
  | cons first requests ih =>
    obtain ⟨hstore, hfresh, hanswer⟩ := finishFormatting_of_fresh hf first
    rw [List.foldl_cons]
    rcases List.mem_cons.mp hm with rfl | hm
    · exact (proceeds_foldl_finishFormatting tools _ requests).formatted (hanswer rfl)
    · have hedit : (s.finishFormatting tools first).defaultEdit tools uri = s.defaultEdit tools uri := by
        unfold defaultEdit
        rw [hstore]
      rw [← hedit]
      exact ih (hstore.symm ▸ hfresh) hm

theorem released_teardown (h : s.workspace.settings.shutDown = true → s.workspace.settings.Ended) :
    ∀ w ∈ s.workspace.settings.waiters, Released tools s (s.teardown tools) w.who := by
  intro waiter hw
  have hwho : waiter.who ∈ s.workspace.settings.waiters.map Waiter.who := List.mem_map_of_mem hw
  have hr := Workspace.refuses_teardown h
  generalize waiter.who = who at hwho
  cases who with
  | run t =>
    have hp := proceeds_foldl_finishFormatting tools { s with workspace := s.workspace.teardown.1 }
      s.workspace.teardown.2
    intro r hmem ht
    obtain ⟨r', hmem', ht'⟩ := (hp.workspace.linter.startsNone hr.stopped).tickets r hmem
    exact hr.runs t hwho r' hmem' (ht'.trans ht)
  | formatting request uri =>
    have hf : s.workspace.teardown.1.forest.Fresh tools.parse s.workspace.teardown.1.store := by
      rw [hr.forest]
      exact .releaseAll _
    have hedit : defaultEdit tools { s with workspace := s.workspace.teardown.1 } uri = s.defaultEdit tools uri := by
      unfold defaultEdit
      rw [hr.store]
      rfl
    have hm := mem_formatted_foldl (s := { s with workspace := s.workspace.teardown.1 }) hf (hr.requests request uri hwho)
    rw [hedit] at hm
    exact hm

/-- **Those who wait for settings are let go at the shutdown.** -/
theorem released_shutdown (hc : Coherent s) :
    ∀ w ∈ s.workspace.settings.waiters, Released tools s (s.shutdown tools) w.who := by
  unfold shutdown
  split
  · next hs =>
    rw [(hc.ended (hc.settings hs)).waiters]
    intro waiter hw
    cases hw
  · exact released_teardown (s := { s with shutDown := true }) hc.ended

/-- What is left of a server `s` that was shut down, at any later time. -/
structure Over (tools : Tools) (s s' : Server) : Prop where
  /-- Nothing more was sent. -/
  sent : s'.sent = s.sent
  /-- No run was scheduled. -/
  startsNone : s.workspace.linter.StartsNone s'.workspace.linter
  /-- No run is delivered. -/
  deliver : ∀ t, (s'.workspace.deliver t).2 = none
  /-- All who waited for settings were let go, and nobody waits any more. -/
  released : ∀ w ∈ s.workspace.settings.waiters, Released tools s s' w.who
  waiters : s'.workspace.settings.waiters = []
  /-- Whoever asks for settings is refused at once. -/
  refused : ∀ who scope due,
    s'.workspace.settings.get who scope due = (s'.workspace.settings, some (.error .cancelled))
  absent : ∀ scope, s'.workspace.settings.state scope = .absent

/-- **Shutdown is final.** Whatever happened to a server before, all who wait for settings when it is shut down are
refused; and whatever happens to it afterwards, it is over. -/
theorem shutdown_final (tools : Tools) (client : ClientFeatures) (options : Options) (before after : List Move) :
    (afterMoves tools client options before).workspace.settings.shutdown.2 =
      (afterMoves tools client options before).workspace.settings.waiters.map (fun w => (w.who, .error .cancelled)) ∧
    Over tools (afterMoves tools client options before)
      (afterMoves tools client options (before ++ .shutdown :: after)) := by
  have hc := coherent_afterMoves tools client options before
  refine ⟨(SettingsCache.shutdown_of_ended hc.ended).2, ?_⟩
  have hrun : afterMoves tools client options (before ++ .shutdown :: after) =
      after.foldl (move tools) ((afterMoves tools client options before).shutdown tools) := List.foldl_append
  rw [hrun]
  obtain ⟨hc', hs', hr'⟩ := shutdown_coherent tools hc
  obtain ⟨hc'', hs'', hr''⟩ := rests_moves tools hc' hs' after
  have hended := hc''.ended (hc''.settings hs'')
  exact {
    sent := (hr'.trans hr'').sent
    startsNone := (hr'.trans hr'').startsNone
    deliver := Linter.deliver_of_stopped (hc''.stopped hs'')
    released := fun w hw => (released_shutdown hc w hw).rests hr''
    waiters := hended.waiters
    refused := hended.get
    absent := hended.state }

end Server

end RubyServer
