import RubyServer.Proofs.Store.Commit
import RubyServer.Rehearsal.Documents

/-!
# The events of a store tell its documents

An observer that is there from the beginning sees one event for each call that succeeds and none for a call that fails
(`events_call`). What it sees about one document falls into blocks (`Block`): the document is opened, then opened again
or changed at ever later versions, then closed; the last block may not be closed yet. The store can be read off these
events (`Tells`): a document is open if its last event is not the closing, and then it is at the version of that event.
Every call keeps this (`Agrees.call`), so it holds after any calls (`eventsAbout_afterCalls`).
-/

namespace RubyServer

namespace DocumentEvent

variable {uri : Uri} {es : List DocumentEvent} {e : DocumentEvent} {version version' : Int}

/-! ## Blocks -/

/-- The events about a document from an opening on, up to its closing: each leads to a later version. -/
structure Block (uri : Uri) (es : List DocumentEvent) : Prop where
  starts : ∃ version rest, es = .opened uri version :: rest
  goesOn : ∀ e ∈ es, ∃ version, e = .opened uri version ∨ e = .changed uri version
  increasing : (es.filterMap version?).Pairwise (· < ·)

/-- The version that the last of some events leads to. -/
def lastVersion? (es : List DocumentEvent) : Option Int := es.getLast?.bind version?

theorem version?_eq_none_iff : e.version? = none ↔ e = .closed e.uri := by
  cases e <;> simp [version?, DocumentEvent.uri]

theorem lastVersion?_concat (es : List DocumentEvent) (e : DocumentEvent) : lastVersion? (es ++ [e]) = e.version? := by
  simp [lastVersion?]

theorem block_opened (uri : Uri) (version : Int) : Block uri [.opened uri version] where
  starts := ⟨version, [], rfl⟩
  goesOn := fun _ he => ⟨version, Or.inl (List.mem_singleton.mp he)⟩
  increasing := List.pairwise_singleton _ _

/-- The last event of a block leads to its latest version. -/
theorem Block.le_lastVersion (h : Block uri es) (hlast : lastVersion? es = some version) :
    ∀ v ∈ es.filterMap version?, v ≤ version := by
  obtain ⟨e, he, hv⟩ := Option.bind_eq_some_iff.mp hlast
  obtain ⟨front, rfl⟩ := List.getLast?_eq_some_iff.mp he
  have hinc := h.increasing
  rw [List.filterMap_append, List.pairwise_append] at hinc
  intro v hm
  rw [List.filterMap_append, List.mem_append] at hm
  have hsingle : [e].filterMap version? = [version] := by simp [hv]
  rw [hsingle] at hm hinc
  rcases hm with hm | hm
  · exact Int.le_of_lt (hinc.2.2 v hm version (List.mem_singleton.mpr rfl))
  · exact Int.le_of_eq (List.mem_singleton.mp hm)

/-- A block goes on with a later version. -/
theorem Block.concat (h : Block uri es) (hlast : lastVersion? es = some version') (hlt : version' < version)
    (he : e = .opened uri version ∨ e = .changed uri version) : Block uri (es ++ [e]) := by
  have hv : e.version? = some version := by
    rcases he with rfl | rfl <;> rfl
  refine ⟨?_, ?_, ?_⟩
  · obtain ⟨first, rest, rfl⟩ := h.starts
    exact ⟨first, rest ++ [e], rfl⟩
  · intro e' hm
    rcases List.mem_append.mp hm with hm | hm
    · exact h.goesOn e' hm
    · rw [List.mem_singleton.mp hm]
      exact ⟨version, he⟩
  · have hsingle : [e].filterMap version? = [version] := by simp [hv]
    rw [List.filterMap_append, hsingle, List.pairwise_append]
    refine ⟨h.increasing, List.pairwise_singleton _ _, ?_⟩
    intro v hm v' hm'
    rw [List.mem_singleton.mp hm']
    exact Int.lt_of_le_of_lt (h.le_lastVersion hlast v hm) hlt

/-! ## What events tell about a document -/

/-- Blocks one after the other, each with its closing. -/
def ended (uri : Uri) (blocks : List (List DocumentEvent)) : List DocumentEvent :=
  (blocks.map fun b => b ++ [.closed uri]).flatten

/-- The events tell that a document is at a version, or that it is not open. -/
inductive Tells (uri : Uri) : List DocumentEvent → Option Int → Prop
  | notOpen {blocks : List (List DocumentEvent)} : (∀ b ∈ blocks, Block uri b) → Tells uri (ended uri blocks) none
  | isOpen {blocks : List (List DocumentEvent)} {current : List DocumentEvent} {version : Int} :
      (∀ b ∈ blocks, Block uri b) → Block uri current → lastVersion? current = some version →
      Tells uri (ended uri blocks ++ current) (some version)

theorem ended_concat (uri : Uri) (blocks : List (List DocumentEvent)) (b : List DocumentEvent) :
    ended uri (blocks ++ [b]) = ended uri blocks ++ b ++ [.closed uri] := by
  simp [ended]

theorem lastVersion?_ended (uri : Uri) (blocks : List (List DocumentEvent)) : lastVersion? (ended uri blocks) = none := by
  rcases List.eq_nil_or_concat blocks with rfl | ⟨front, b, rfl⟩
  · rfl
  · rw [List.concat_eq_append, ended_concat, lastVersion?_concat]
    rfl

/-- A document is opened that is not open, or opened again at a later version. -/
theorem Tells.opened {v : Option Int} (h : Tells uri es v) (hlt : ∀ old, v = some old → old < version) :
    Tells uri (es ++ [.opened uri version]) (some version) := by
  cases h with
  | notOpen hb => exact .isOpen hb (block_opened uri version) rfl
  | isOpen hb hcur hlast =>
    rw [List.append_assoc]
    exact .isOpen hb (hcur.concat hlast (hlt _ rfl) (Or.inl rfl)) (lastVersion?_concat _ _)

theorem Tells.changed (h : Tells uri es (some version')) (hlt : version' < version) :
    Tells uri (es ++ [.changed uri version]) (some version) := by
  cases h with
  | isOpen hb hcur hlast =>
    rw [List.append_assoc]
    exact .isOpen hb (hcur.concat hlast hlt (Or.inr rfl)) (lastVersion?_concat _ _)

theorem Tells.closed (h : Tells uri es (some version)) : Tells uri (es ++ [.closed uri]) none := by
  cases h with
  | @isOpen blocks current _ hb hcur _ =>
    rw [← ended_concat]
    refine .notOpen ?_
    intro b hm
    rcases List.mem_append.mp hm with hm | hm
    · exact hb b hm
    · rw [List.mem_singleton.mp hm]
      exact hcur

/-- The version can be read off the last event. -/
theorem Tells.lastVersion? {v : Option Int} (h : Tells uri es v) : lastVersion? es = v := by
  cases h with
  | notOpen _ => exact lastVersion?_ended uri _
  | isOpen _ _ hlast =>
    obtain ⟨e, he, hv⟩ := Option.bind_eq_some_iff.mp hlast
    rw [DocumentEvent.lastVersion?, List.getLast?_append, he]
    exact hv

end DocumentEvent

namespace Rehearsal.ObservedStore

variable {o : ObservedStore} {maxSize : Nat} {uri : Uri}

/-! ## Calls -/

/-- A call that may change the documents. -/
inductive Call where
  | openItem (item : DocumentItem)
  | change (uri : Uri) (changes : List Change) (version : Int)
  | close (uri : Uri)

/-- The event that tells of a call. -/
def Call.event : Call → DocumentEvent
  | .openItem item => .opened item.uri item.version
  | .change uri _ version => .changed uri version
  | .close uri => .closed uri

/-- The store after a call, and whether the call was successful. -/
def call (o : ObservedStore) : Call → ObservedStore × Bool
  | .openItem item => ((o.openItem item).1, (o.openItem item).2.isNone)
  | .change uri changes version => ((o.change uri changes version).1, (o.change uri changes version).2.isNone)
  | .close uri => o.close uri

/-- A store without documents, and one observer of it. -/
def watched (maxSize : Nat) : ObservedStore := subscribe { store := { maxSize := maxSize } } ⟨"log", []⟩

/-- The store after several calls, starting without documents. -/
def afterCalls (maxSize : Nat) (calls : List Call) : ObservedStore :=
  calls.foldl (fun o c => (o.call c).1) (watched maxSize)

/-- The events that were seen. -/
def events (o : ObservedStore) : List DocumentEvent := o.sightings.map Sighting.event

/-- The events that were seen about one document. -/
def eventsAbout (o : ObservedStore) (uri : Uri) : List DocumentEvent := o.events.filter fun e => e.uri = uri

/-- A call is successful, and then it is a commit that leads to a store within the limit, or it changes nothing. -/
theorem call_cases (o : ObservedStore) (c : Call) :
    (∃ store, o.store.Commits store c.event ∧ store.maxSize = o.store.maxSize ∧
      (∀ doc, store.get? c.event.uri = some doc → Text.byteSize doc.text ≤ o.store.maxSize) ∧
      o.call c = (o.commit store c.event, true)) ∨ o.call c = (o, false) := by
  cases c with
  | openItem item =>
    simp only [call, ObservedStore.openItem]
    cases ho : o.store.openItem item with
    | error e => exact Or.inr rfl
    | ok r =>
      obtain ⟨store, e⟩ := r
      have hc := Store.commits_of_openItem ho
      obtain ⟨hsize, -, rfl, rfl⟩ := Store.openItem_eq_ok ho
      refine Or.inl ⟨_, hc, rfl, ?_, rfl⟩
      intro doc hdoc
      obtain rfl := Option.some.inj ((Store.get?_put_self _ _ _).symm.trans hdoc)
      exact hsize
  | change uri changes version =>
    simp only [call, ObservedStore.change]
    cases hch : o.store.change uri changes version with
    | error e => exact Or.inr rfl
    | ok r =>
      obtain ⟨store, e⟩ := r
      have hc := Store.commits_of_change hch
      obtain ⟨doc, text, -, -, -, hsize, rfl, rfl⟩ := Store.change_eq_ok hch
      refine Or.inl ⟨_, hc, rfl, ?_, rfl⟩
      intro doc' hdoc'
      obtain rfl := Option.some.inj ((Store.get?_put_self _ _ _).symm.trans hdoc')
      exact hsize
  | close uri =>
    simp only [call, ObservedStore.close]
    cases hcl : o.store.close uri with
    | none => exact Or.inr rfl
    | some r =>
      obtain ⟨store, e⟩ := r
      have hc := Store.commits_of_close hcl
      obtain ⟨-, rfl, rfl⟩ := Store.close_eq_some hcl
      refine Or.inl ⟨_, hc, rfl, ?_, rfl⟩
      intro doc hdoc
      cases (Store.get?_without_self _ _).symm.trans hdoc

/-! ## Agreement -/

/-- One observer stays, no document is too large, and the events tell the version of every document. -/
structure Agrees (maxSize : Nat) (o : ObservedStore) : Prop where
  alone : ∃ id name, o.registry.observers = [(id, ⟨name, []⟩)]
  limit : o.store.maxSize = maxSize
  fits : ∀ uri doc, o.store.get? uri = some doc → Text.byteSize doc.text ≤ maxSize
  tells : ∀ uri, DocumentEvent.Tells uri (o.eventsAbout uri) (o.store.version? uri)

theorem agrees_watched (maxSize : Nat) : Agrees maxSize (watched maxSize) := by
  refine ⟨⟨1, "log", rfl⟩, rfl, fun uri doc h => (by cases h), ?_⟩
  intro uri
  show DocumentEvent.Tells uri (DocumentEvent.ended uri []) none
  exact .notOpen fun b hb => (by cases hb)

/-- The one observer notes the event. -/
theorem Agrees.commit_eq (h : Agrees maxSize o) (store : Store) (e : DocumentEvent) :
    ∃ name, o.commit store e =
      { o with store := store, sightings := o.sightings ++ [⟨name, e, store.version? e.uri⟩] } := by
  obtain ⟨id, name, hobs⟩ := h.alone
  refine ⟨name, ?_⟩
  simp only [ObservedStore.commit, Registry.dispatch, hobs, List.foldl_cons, List.foldl_nil]
  have hin : o.registry.isSubscribed id = true := by simp [Registry.isSubscribed, hobs]
  rw [Registry.turn, if_pos hin]
  rfl

/-- A successful call shows in one event, and one that fails changes nothing. -/
theorem events_call (h : Agrees maxSize o) (c : Call) :
    ((o.call c).2 = true → (o.call c).1.events = o.events ++ [c.event]) ∧
      ((o.call c).2 = false → (o.call c).1 = o) := by
  rcases call_cases o c with ⟨store, -, -, -, hcall⟩ | hcall
  · rw [hcall]
    refine ⟨fun _ => ?_, fun hf => by cases hf⟩
    obtain ⟨name, heq⟩ := h.commit_eq store c.event
    rw [heq]
    simp [events]
  · rw [hcall]
    exact ⟨fun ht => (by cases ht), fun _ => rfl⟩

/-- What a commit comes to: the event is told of the one document it is about. -/
theorem tells_of_commits {s store : Store} {e : DocumentEvent} {es : List DocumentEvent} (hc : s.Commits store e)
    (h : DocumentEvent.Tells e.uri es (s.version? e.uri)) :
    DocumentEvent.Tells e.uri (es ++ [e]) (store.version? e.uri) := by
  cases hc with
  | @opened uri doc hlt =>
    have hv : (s.put uri doc).version? uri = some doc.version := by simp [Store.version?]
    rw [show (DocumentEvent.opened uri doc.version).uri = uri from rfl] at h ⊢
    rw [hv]
    refine h.opened ?_
    intro version hold
    obtain ⟨old, hget, rfl⟩ := Option.map_eq_some_iff.mp hold
    exact hlt old hget
  | @changed uri doc old hold hlt =>
    have hv : (s.put uri doc).version? uri = some doc.version := by simp [Store.version?]
    have hv' : s.version? uri = some old.version := by simp [Store.version?, hold]
    rw [show (DocumentEvent.changed uri doc.version).uri = uri from rfl] at h ⊢
    rw [hv]
    rw [hv'] at h
    exact h.changed hlt
  | @closed uri old hold =>
    have hv : (s.without uri).version? uri = none := by simp [Store.version?]
    have hv' : s.version? uri = some old.version := by simp [Store.version?, hold]
    rw [show (DocumentEvent.closed uri).uri = uri from rfl] at h ⊢
    rw [hv]
    rw [hv'] at h
    exact h.closed

/-- **Every call keeps events and store in agreement.** -/
theorem Agrees.call (h : Agrees maxSize o) (c : Call) : Agrees maxSize (o.call c).1 := by
  rcases call_cases o c with ⟨store, hc, hmax, hsize, hcall⟩ | hcall
  · rw [hcall]
    obtain ⟨name, heq⟩ := h.commit_eq store c.event
    simp only [heq]
    refine ⟨h.alone, hmax.trans h.limit, ?_, ?_⟩
    · intro uri doc hdoc
      by_cases hu : c.event.uri = uri
      · subst hu
        rw [← h.limit]
        exact hsize doc hdoc
      · exact h.fits uri doc ((hc.get?_of_ne hu).symm.trans hdoc)
    · intro uri
      have happ : eventsAbout { o with
            store := store, sightings := o.sightings ++ [⟨name, c.event, store.version? c.event.uri⟩] } uri =
          o.eventsAbout uri ++ [c.event].filter fun e => e.uri = uri := by
        simp [eventsAbout, events]
      rw [happ]
      by_cases hu : c.event.uri = uri
      · subst hu
        rw [show [c.event].filter (fun e => e.uri = c.event.uri) = [c.event] by simp]
        exact tells_of_commits hc (h.tells c.event.uri)
      · rw [show [c.event].filter (fun e => e.uri = uri) = [] by simp [hu], List.append_nil]
        have hv : store.version? uri = o.store.version? uri := congrArg (Option.map Document.version) (hc.get?_of_ne hu)
        show DocumentEvent.Tells uri (o.eventsAbout uri) (store.version? uri)
        rw [hv]
        exact h.tells uri
  · rw [hcall]
    exact h

theorem agrees_afterCalls (maxSize : Nat) (calls : List Call) : Agrees maxSize (afterCalls maxSize calls) := by
  unfold afterCalls
  apply List.foldlRecOn (motive := Agrees maxSize)
  · exact agrees_watched maxSize
  · intro o h c _
    exact h.call c

/-- **Events and store agree.** After any calls on a store without documents, the events about a document are blocks
with their closings and perhaps a block that is not closed; a further call shows in one event if it is successful, and
otherwise changes nothing; a document is open exactly if it has a last event that is not its closing, and it is at the
version of that event; and no document is larger than the store allows. -/
theorem eventsAbout_afterCalls (maxSize : Nat) (calls : List Call) (uri : Uri) :
    (∃ blocks current, (afterCalls maxSize calls).eventsAbout uri = DocumentEvent.ended uri blocks ++ current ∧
      (∀ b ∈ blocks, DocumentEvent.Block uri b) ∧ (current = [] ∨ DocumentEvent.Block uri current)) ∧
    (∀ c, (((afterCalls maxSize calls).call c).2 = true →
        (afterCalls maxSize (calls ++ [c])).events = (afterCalls maxSize calls).events ++ [c.event]) ∧
      (((afterCalls maxSize calls).call c).2 = false → afterCalls maxSize (calls ++ [c]) = afterCalls maxSize calls)) ∧
    ((afterCalls maxSize calls).store.contains uri = true ↔
      ∃ e, ((afterCalls maxSize calls).eventsAbout uri).getLast? = some e ∧ e ≠ .closed uri) ∧
    (∀ e, ((afterCalls maxSize calls).eventsAbout uri).getLast? = some e →
      (afterCalls maxSize calls).store.version? uri = e.version?) ∧
    ∀ doc, (afterCalls maxSize calls).store.get? uri = some doc → Text.byteSize doc.text ≤ maxSize := by
  have h := agrees_afterCalls maxSize calls
  have htells := h.tells uri
  have hlast := htells.lastVersion?
  refine ⟨?_, ?_, ?_, ?_, h.fits uri⟩
  · generalize (afterCalls maxSize calls).store.version? uri = v at htells
    generalize (afterCalls maxSize calls).eventsAbout uri = es at htells
    cases htells with
    | @notOpen blocks hb => exact ⟨blocks, [], (List.append_nil _).symm, hb, Or.inl rfl⟩
    | @isOpen blocks current _ hb hcur _ => exact ⟨blocks, current, rfl, hb, Or.inr hcur⟩
  · intro c
    have hsnoc : afterCalls maxSize (calls ++ [c]) = ((afterCalls maxSize calls).call c).1 := by
      simp [afterCalls]
    rw [hsnoc]
    exact events_call h c
  · have hcontains : (afterCalls maxSize calls).store.contains uri =
        ((afterCalls maxSize calls).store.version? uri).isSome := Option.isSome_map.symm
    rw [hcontains, ← hlast, DocumentEvent.lastVersion?]
    constructor
    · intro hopen
      obtain ⟨version, hv⟩ := Option.isSome_iff_exists.mp hopen
      obtain ⟨e, he, hv⟩ := Option.bind_eq_some_iff.mp hv
      refine ⟨e, he, ?_⟩
      rintro rfl
      cases hv
    · rintro ⟨e, he, hne⟩
      have hu : e.uri = uri := by
        have hm := List.mem_of_getLast? he
        simpa using (List.mem_filter.mp hm).2
      rw [he, Option.bind_some, Option.isSome_iff_ne_none]
      intro hnone
      rw [DocumentEvent.version?_eq_none_iff, hu] at hnone
      exact hne hnone
  · intro e he
    rw [← hlast, DocumentEvent.lastVersion?, he]
    rfl

end Rehearsal.ObservedStore

end RubyServer
