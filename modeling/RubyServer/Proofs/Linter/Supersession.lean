import RubyServer.Proofs.Linter.Delivery

/-!
# What becomes of a run

A linter is told to schedule, to forget and to stop, and its runs go on, end and are delivered, all in any order
(`Act`). What shows of this is a list of events, the latest first (`Event`): which runs started, what was forgotten,
and what was delivered. From the events alone one can tell which run a document is owed (`owed`): the last that started
for it, unless it was delivered or the document was forgotten since. The linter, which sees only its lanes, agrees with
them (`Explains`): a run is live exactly if it is owed. So a run is delivered only if it is owed (`Orderly`), and
everything else follows from that (`orderly_afterActs`).
-/

namespace RubyServer.Linter

variable {l : Linter} {uri uri' : Uri} {t : Ticket} {version version' : Int}

/-! ## Events -/

/-- What may be done to a linter, from outside and by a run that goes on. -/
inductive Act where
  | schedule (uri : Uri) (version : Int) (due : Nat)
  | forget (uri : Uri)
  | stop
  | await (t : Ticket)
  | settle (t : Ticket) (settings : Settings)
  | finish (t : Ticket) (tree : ParsedDocument) (outcome : LintOutcome)
  | drop (t : Ticket)
  | deliver (t : Ticket)

/-- What shows of an act. A run that starts shows under its ticket, and so does one that is delivered. -/
inductive Event where
  | scheduled (t : Ticket) (uri : Uri) (version : Int)
  | forgotten (uri : Uri)
  | stopped
  | delivered (t : Ticket) (result : LintResult)
  deriving DecidableEq

/-- The linter after an act, and what shows of it. -/
def act (l : Linter) : Act → Linter × List Event
  | .schedule uri version due =>
    let l' := l.schedule uri version due
    (l', (l'.runs.drop l.runs.length).map fun r => .scheduled r.ticket r.uri r.version)
  | .forget uri => (l.forget uri, [.forgotten uri])
  | .stop => (l.stop, [.stopped])
  | .await t => (l.moveTo t .awaitingSettings, [])
  | .settle t settings => (l.settle t settings, [])
  | .finish t tree outcome =>
    match l.run? t with
    | some r => (l.finish r tree outcome, [])
    | none => (l, [])
  | .drop t => (l.drop t, [])
  | .deliver t => ((l.deliver t).1, (l.deliver t).2.toList.map (.delivered t))

/-- The linter after several acts, from its beginning, and what showed of them, the latest first. -/
def afterActs (acts : List Act) : Linter × List Event :=
  acts.foldl (fun s a => ((s.1.act a).1, (s.1.act a).2 ++ s.2)) ({}, [])

/-! ## What the events say -/

/-- Whether an event ends what was owed to a document. -/
def Event.Ends (uri : Uri) : Event → Prop
  | .scheduled _ uri' _ => uri' = uri
  | .forgotten uri' => uri' = uri
  | .stopped => True
  | .delivered _ result => result.uri = uri

/-- The run that a document is owed, and its version. -/
def owed (uri : Uri) : List Event → Option (Ticket × Int)
  | [] => none
  | .scheduled t uri' version :: h => if uri' = uri then some (t, version) else owed uri h
  | .forgotten uri' :: h => if uri' = uri then none else owed uri h
  | .stopped :: _ => none
  | .delivered _ result :: h => if result.uri = uri then none else owed uri h

/-- The version of a document that was delivered last, since it was forgotten. -/
def deliveredSince (uri : Uri) : List Event → Option Int
  | [] => none
  | .scheduled _ _ _ :: h => deliveredSince uri h
  | .forgotten uri' :: h => if uri' = uri then none else deliveredSince uri h
  | .stopped :: h => deliveredSince uri h
  | .delivered _ result :: h => if result.uri = uri then some result.version else deliveredSince uri h

/-- The ticket of a run that was delivered. -/
def Event.deliveredTicket? : Event → Option Ticket
  | .delivered t _ => some t
  | _ => none

/-- The ticket of a run that started. -/
def Event.scheduledTicket? : Event → Option Ticket
  | .scheduled t _ _ => some t
  | _ => none

/-- The version of a document that was delivered. -/
def Event.deliveredVersion? (uri : Uri) : Event → Option Int
  | .delivered _ result => if result.uri = uri then some result.version else none
  | _ => none

/-- Events in which every run starts under a ticket of its own, only what is owed is delivered, and nothing before the
version that was delivered last. -/
inductive Orderly : List Event → Prop
  | nil : Orderly []
  | scheduled {t : Ticket} {uri : Uri} {version : Int} {h : List Event} : Orderly h →
      (∀ uri' version', .scheduled t uri' version' ∉ h) → Orderly (.scheduled t uri version :: h)
  | forgotten {uri : Uri} {h : List Event} : Orderly h → Orderly (.forgotten uri :: h)
  | stopped {h : List Event} : Orderly h → Orderly (.stopped :: h)
  | delivered {t : Ticket} {result : LintResult} {h : List Event} : Orderly h →
      owed result.uri h = some (t, result.version) → (∀ d, deliveredSince result.uri h = some d → d ≤ result.version) →
      Orderly (.delivered t result :: h)

section Orderly

variable {h : List Event}

/-- What is owed was scheduled, and nothing ended it since. -/
theorem exists_scheduled_of_owed (ho : owed uri h = some (t, version)) :
    ∃ between before, h = between ++ .scheduled t uri version :: before ∧ ∀ e ∈ between, ¬ e.Ends uri := by
  induction h with
  | nil => cases ho
  | cons e h ih =>
    -- an event that leaves the document alone joins those between
    have hstep : ¬ e.Ends uri → owed uri h = some (t, version) → ∃ between before,
        e :: h = between ++ .scheduled t uri version :: before ∧ ∀ e ∈ between, ¬ e.Ends uri := by
      intro he ho
      obtain ⟨between, before, rfl, hb⟩ := ih ho
      exact ⟨e :: between, before, rfl, List.forall_mem_cons.mpr ⟨he, hb⟩⟩
    cases e with
    | scheduled t' uri' version' =>
      simp only [owed] at ho
      split at ho
      · next e =>
        subst e
        cases ho
        exact ⟨[], h, rfl, fun _ he => by cases he⟩
      · next hne => exact hstep hne ho
    | forgotten uri' =>
      simp only [owed] at ho
      split at ho
      · cases ho
      · next hne => exact hstep hne ho
    | stopped => cases ho
    | delivered t' result =>
      simp only [owed] at ho
      split at ho
      · cases ho
      · next hne => exact hstep hne ho

theorem mem_of_owed (ho : owed uri h = some (t, version)) : .scheduled t uri version ∈ h := by
  obtain ⟨between, before, rfl, -⟩ := exists_scheduled_of_owed ho
  exact List.mem_append_right _ List.mem_cons_self

theorem Orderly.tail {e : Event} (ho : Orderly (e :: h)) : Orderly h := by
  cases ho <;> assumption

theorem Orderly.of_append {h' : List Event} (ho : Orderly (h' ++ h)) : Orderly h := by
  induction h' with
  | nil => exact ho
  | cons e h' ih => exact ih ho.tail

/-- A ticket tells the document. -/
theorem Orderly.uri_eq (ho : Orderly h) (hm : .scheduled t uri version ∈ h) (hm' : .scheduled t uri' version' ∈ h) :
    uri = uri' := by
  induction ho with
  | nil => cases hm
  | scheduled _ hnew ih =>
    rcases List.mem_cons.mp hm with e | hold
    · rcases List.mem_cons.mp hm' with e' | hold'
      · cases e
        cases e'
        rfl
      · cases e
        exact absurd hold' (hnew _ _)
    · rcases List.mem_cons.mp hm' with e' | hold'
      · cases e'
        exact absurd hold (hnew _ _)
      · exact ih hold hold'
  | forgotten _ ih => exact ih (List.mem_of_ne_of_mem (by simp) hm) (List.mem_of_ne_of_mem (by simp) hm')
  | stopped _ ih => exact ih (List.mem_of_ne_of_mem (by simp) hm) (List.mem_of_ne_of_mem (by simp) hm')
  | delivered _ _ _ ih => exact ih (List.mem_of_ne_of_mem (by simp) hm) (List.mem_of_ne_of_mem (by simp) hm')

/-- What was delivered was scheduled before. -/
theorem Orderly.scheduled_of_delivered (ho : Orderly h) {result : LintResult} (hm : .delivered t result ∈ h) :
    .scheduled t result.uri result.version ∈ h := by
  obtain ⟨later, earlier, rfl⟩ := List.append_of_mem hm
  cases ho.of_append with
  | delivered _ howed _ => exact List.mem_append_right _ (List.mem_cons_of_mem _ (mem_of_owed howed))

/-- What is still owed was not delivered. -/
theorem Orderly.not_delivered_of_owed (ho : Orderly h) (howed : owed uri h = some (t, version)) (result : LintResult) :
    .delivered t result ∉ h := by
  induction ho with
  | nil => cases howed
  | scheduled ho hnew ih =>
    intro hm
    have hold := List.mem_of_ne_of_mem (by simp) hm
    simp only [owed] at howed
    split at howed
    · cases howed
      exact hnew _ _ (ho.scheduled_of_delivered hold)
    · exact ih howed hold
  | forgotten _ ih =>
    intro hm
    simp only [owed] at howed
    split at howed
    · cases howed
    · exact ih howed (List.mem_of_ne_of_mem (by simp) hm)
  | stopped _ _ => cases howed
  | @delivered _ result' _ ho howed' _ ih =>
    intro hm
    simp only [owed] at howed
    split at howed
    · cases howed
    · next hne =>
      rcases List.mem_cons.mp hm with e | hold
      · -- two documents cannot be owed the same run
        cases e
        exact hne (ho.uri_eq (mem_of_owed howed') (mem_of_owed howed))
      · exact ih howed hold

/-- **No run is delivered twice.** -/
theorem Orderly.nodup_delivered (ho : Orderly h) : (h.filterMap Event.deliveredTicket?).Nodup := by
  induction ho with
  | nil => exact List.nodup_nil
  | scheduled _ _ ih => exact ih
  | forgotten _ ih => exact ih
  | stopped _ ih => exact ih
  | @delivered t _ _ ho howed _ ih =>
    refine List.nodup_cons.mpr ⟨?_, ih⟩
    intro hm
    obtain ⟨e, hm, he⟩ := List.mem_filterMap.mp hm
    cases e with
    | delivered t' result =>
      cases he
      exact ho.not_delivered_of_owed howed result hm
    | scheduled _ _ _ => cases he
    | forgotten _ => cases he
    | stopped => cases he

/-- No two runs start under the same ticket. -/
theorem Orderly.nodup_scheduled (ho : Orderly h) : (h.filterMap Event.scheduledTicket?).Nodup := by
  induction ho with
  | nil => exact List.nodup_nil
  | @scheduled t _ _ _ _ hnew ih =>
    refine List.nodup_cons.mpr ⟨?_, ih⟩
    intro hm
    obtain ⟨e, hm, he⟩ := List.mem_filterMap.mp hm
    cases e with
    | scheduled t' uri' version' =>
      cases he
      exact hnew uri' version' hm
    | delivered _ _ => cases he
    | forgotten _ => cases he
    | stopped => cases he
  | forgotten _ ih => exact ih
  | stopped _ ih => exact ih
  | delivered _ _ _ ih => exact ih

theorem filterMap_delivered (uri : Uri) (t : Ticket) (result : LintResult) (h : List Event) :
    (Event.delivered t result :: h).filterMap (Event.deliveredVersion? uri) =
      if result.uri = uri then result.version :: h.filterMap (Event.deliveredVersion? uri)
      else h.filterMap (Event.deliveredVersion? uri) := by
  by_cases hu : result.uri = uri
  · have hv : Event.deliveredVersion? uri (.delivered t result) = some result.version := if_pos hu
    rw [if_pos hu, List.filterMap_cons_some hv]
  · have hv : Event.deliveredVersion? uri (.delivered t result) = none := if_neg hu
    rw [if_neg hu, List.filterMap_cons_none hv]

/-- As long as a document is not forgotten, the version delivered last is the highest. -/
theorem Orderly.le_deliveredSince {mid : List Event} (ho : Orderly (mid ++ h)) (hmid : .forgotten uri ∉ mid) :
    ∀ v ∈ mid.filterMap (Event.deliveredVersion? uri), ∃ d, deliveredSince uri (mid ++ h) = some d ∧ v ≤ d := by
  induction mid with
  | nil =>
    intro v hv
    cases hv
  | cons e mid ih =>
    have hmid' : .forgotten uri ∉ mid := fun hm => hmid (List.mem_cons_of_mem _ hm)
    have ih := ih ho.tail hmid'
    cases e with
    | scheduled _ _ _ => exact ih
    | stopped => exact ih
    | forgotten uri' =>
      have hne : uri' ≠ uri := by
        rintro rfl
        exact hmid List.mem_cons_self
      intro v hv
      obtain ⟨d, hd, hle⟩ := ih v hv
      exact ⟨d, (if_neg hne).trans hd, hle⟩
    | delivered t result =>
      intro v hv
      by_cases hu : result.uri = uri
      · refine ⟨result.version, if_pos hu, ?_⟩
        rw [filterMap_delivered, if_pos hu] at hv
        rcases List.mem_cons.mp hv with rfl | hv
        · exact Int.le_refl _
        · obtain ⟨d, hd, hle⟩ := ih v hv
          cases ho with
          | delivered _ _ hlast => exact Int.le_trans hle (hlast d (hu ▸ hd))
      · rw [filterMap_delivered, if_neg hu] at hv
        obtain ⟨d, hd, hle⟩ := ih v hv
        exact ⟨d, (if_neg hu).trans hd, hle⟩

/-- **As long as a document is not forgotten, the versions delivered do not decrease.** -/
theorem Orderly.pairwise_versions {mid : List Event} (ho : Orderly (mid ++ h)) (hmid : .forgotten uri ∉ mid) :
    (mid.filterMap (Event.deliveredVersion? uri)).Pairwise (fun later earlier => earlier ≤ later) := by
  induction mid with
  | nil => exact List.Pairwise.nil
  | cons e mid ih =>
    have hmid' : .forgotten uri ∉ mid := fun hm => hmid (List.mem_cons_of_mem _ hm)
    have ih := ih ho.tail hmid'
    cases e with
    | scheduled _ _ _ => exact ih
    | stopped => exact ih
    | forgotten _ => exact ih
    | delivered t result =>
      by_cases hu : result.uri = uri
      · rw [filterMap_delivered, if_pos hu]
        refine List.pairwise_cons.mpr ⟨?_, ih⟩
        intro v hv
        obtain ⟨d, hd, hle⟩ := ho.tail.le_deliveredSince hmid' v hv
        cases ho with
        | delivered _ _ hlast => exact Int.le_trans hle (hlast d (hu ▸ hd))
      · rw [filterMap_delivered, if_neg hu]
        exact ih

end Orderly

/-! ## The linter agrees with the events -/

/-- A run under way that would be delivered if it were done linting. -/
def Deliverable (l : Linter) (r : Run) : Prop :=
  r ∈ l.runs ∧ ∃ tree outcome, ((l.finish r tree outcome).deliver r.ticket).2 ≠ none

/-- What ties a linter to the events so far. -/
structure Explains (l : Linter) (h : List Event) : Prop where
  sound : Sound l
  orderly : Orderly h
  /-- The run that a document is owed is the live one. -/
  live_iff : ∀ r ∈ l.runs, l.Live r ↔ owed r.uri h = some (r.ticket, r.version)
  lastDelivered : l.stopped = false → ∀ uri, l.lastDelivered? uri = deliveredSince uri h
  ticket_lt : ∀ t uri version, .scheduled t uri version ∈ h → t < l.nextTicket

theorem explains_empty : Explains {} [] where
  sound := sound_empty
  orderly := .nil
  live_iff := fun r hr => by cases hr
  lastDelivered := fun _ _ => rfl
  ticket_lt := fun _ _ _ hm => by cases hm

section Steps

variable {h : List Event} (hx : Explains l h)

include hx

theorem Explains.schedule (uri : Uri) (version : Int) (due : Nat) :
    Explains (l.act (.schedule uri version due)).1 ((l.act (.schedule uri version due)).2 ++ h) := by
  by_cases hacc : l.Accepts uri version
  · obtain ⟨r₀, ht, rfl, rfl, -, hruns, hlive⟩ := live_schedule hx.sound due hacc
    have hevents : (l.act (.schedule r₀.uri r₀.version due)).2 = [.scheduled l.nextTicket r₀.uri r₀.version] := by
      simp only [act, hruns, List.drop_left, List.map_cons, List.map_nil, ht]
    rw [hevents]
    refine ⟨hx.sound.schedule _ _ _, .scheduled hx.orderly ?_, ?_, ?_, ?_⟩
    · intro uri' version' hm
      exact absurd (hx.ticket_lt _ _ _ hm) (Nat.lt_irrefl _)
    · intro r hr
      have hr : r ∈ l.runs ++ [r₀] := hruns ▸ hr
      show (l.schedule r₀.uri r₀.version due).Live r ↔
        (if r₀.uri = r.uri then some (l.nextTicket, r₀.version) else owed r.uri h) = some (r.ticket, r.version)
      rw [hlive]
      rcases List.mem_append.mp hr with hr | hr
      · have hlt := hx.sound.ticket_lt r hr
        have hne : r ≠ r₀ := by
          rintro rfl
          exact absurd ht (Nat.ne_of_lt hlt)
        by_cases hu : r₀.uri = r.uri
        · rw [if_pos hu]
          constructor
          · rintro (⟨-, hu'⟩ | e)
            · exact absurd hu.symm hu'
            · exact absurd e hne
          · intro e
            obtain ⟨e, -⟩ := Prod.mk.inj (Option.some.inj e)
            exact absurd e.symm (Nat.ne_of_lt hlt)
        · rw [if_neg hu, ← hx.live_iff r hr]
          constructor
          · rintro (⟨hr, -⟩ | e)
            · exact hr
            · exact absurd e hne
          · exact fun hr => Or.inl ⟨hr, fun e => hu e.symm⟩
      · rw [List.mem_singleton.mp hr, if_pos rfl, ht]
        exact ⟨fun _ => rfl, fun _ => Or.inr rfl⟩
    · intro hs uri'
      show (l.schedule r₀.uri r₀.version due).lastDelivered? uri' = _
      rw [lastDelivered?_schedule hx.sound]
      exact hx.lastDelivered ((stopped_schedule hx.sound).symm.trans hs) uri'
    · intro t uri' version' hm
      show t < (l.schedule r₀.uri r₀.version due).nextTicket
      rw [nextTicket_schedule hx.sound hacc]
      rcases List.mem_cons.mp hm with e | hm
      · cases e
        exact Nat.lt_succ_self _
      · exact Nat.lt_succ_of_lt (hx.ticket_lt t uri' version' hm)
  · have hl : l.schedule uri version due = l := schedule_of_not_accepts hx.sound hacc
    simp only [act, hl, List.drop_length, List.map_nil, List.nil_append]
    exact hx

theorem Explains.forget (uri : Uri) : Explains (l.forget uri) (.forgotten uri :: h) := by
  obtain ⟨hticket, hruns, hstopped⟩ := forget_frame l uri
  refine ⟨hx.sound.forget uri, .forgotten hx.orderly, ?_, ?_, ?_⟩
  · intro r hr
    rw [live_forget hx.sound, hx.live_iff r (hruns ▸ hr)]
    show _ ↔ (if uri = r.uri then none else owed r.uri h) = some (r.ticket, r.version)
    by_cases hu : uri = r.uri
    · rw [if_pos hu]
      exact ⟨fun hr => absurd hu.symm hr.2, fun e => by cases e⟩
    · rw [if_neg hu]
      exact ⟨fun hr => hr.1, fun hr => ⟨hr, fun e => hu e.symm⟩⟩
  · intro hs uri'
    rw [lastDelivered?_forget, hx.lastDelivered (hstopped.symm.trans hs)]
    rfl
  · intro t uri' version hm
    rw [hticket]
    exact hx.ticket_lt t uri' version (List.mem_of_ne_of_mem (by simp) hm)

theorem Explains.stop : Explains l.stop (.stopped :: h) := by
  refine ⟨hx.sound.stop, .stopped hx.orderly, ?_, ?_, ?_⟩
  · intro r hr
    exact ⟨fun hr => absurd hr not_live_stop, fun e => by cases e⟩
  · intro hs
    cases hs
  · intro t uri version hm
    exact hx.ticket_lt t uri version (List.mem_of_ne_of_mem (by simp) hm)

/-- A run that goes on to another stage is owed as before. -/
theorem Explains.moveTo {stage : Stage} (hs : Sound (l.moveTo t stage)) : Explains (l.moveTo t stage) h := by
  refine ⟨hs, hx.orderly, ?_, hx.lastDelivered, hx.ticket_lt⟩
  intro r hr
  obtain ⟨r₀, hr₀, rfl⟩ := mem_moveTo.mp hr
  rw [live_onTo hr₀, Run.uri_onTo, Run.ticket_onTo, Run.version_onTo]
  exact hx.live_iff r₀ hr₀

theorem Explains.drop (t : Ticket) : Explains (l.drop t) h := by
  refine ⟨hx.sound.drop t, hx.orderly, ?_, hx.lastDelivered, hx.ticket_lt⟩
  intro r hr
  obtain ⟨hr, hne⟩ := mem_drop.mp hr
  rw [live_drop, ← hx.live_iff r hr]
  exact ⟨fun hl => hl.1, fun hl => ⟨hl, hne⟩⟩

theorem Explains.settle (t : Ticket) (settings : Settings) : Explains (l.settle t settings) h := by
  unfold Linter.settle
  split
  · exact hx.drop t
  · exact hx.moveTo (hx.sound.moveTo fun _ _ _ _ e => by cases e)

theorem Explains.finish {r : Run} (hr : r ∈ l.runs) (tree : ParsedDocument) (outcome : LintOutcome) :
    Explains (l.finish r tree outcome) h := by
  have hs := hx.sound.finish hr tree outcome
  unfold Linter.finish at hs ⊢
  cases hres : resultOf r tree outcome with
  | none => exact hx.drop r.ticket
  | some result =>
    rw [hres] at hs
    exact hx.moveTo hs

/-- What is delivered is owed, and no longer owed then. -/
theorem Explains.deliver (t : Ticket) :
    Explains (l.act (.deliver t)).1 ((l.act (.deliver t)).2 ++ h) := by
  rcases deliver_cases hx.sound t with ⟨r, result, hr, rfl, hstage, hd⟩ | ⟨-, hd | ⟨-, hd⟩⟩
  · obtain ⟨huri, hver⟩ := hx.sound.linted r hr.1 result hstage
    have howed := (hx.live_iff r hr.1).mp hr
    simp only [act, hd, Option.toList_some, List.map_cons, List.map_nil, List.cons_append, List.nil_append]
    refine ⟨hx.sound.delivered hr, .delivered hx.orderly ?_ ?_, ?_, ?_, ?_⟩
    · rw [huri, hver]
      exact howed
    · intro d hlast
      rw [huri, ← hx.lastDelivered hr.not_stopped] at hlast
      rw [hver]
      exact hr.lastDelivered_le hx.sound hlast
    · intro r' hr'
      obtain ⟨hr', hne⟩ := mem_drop.mp (show r' ∈ (l.drop r.ticket).runs from hr')
      rw [live_delivered, hx.live_iff r' hr']
      show _ ↔ (if result.uri = r'.uri then none else owed r'.uri h) = some (r'.ticket, r'.version)
      by_cases hu : result.uri = r'.uri
      · rw [if_pos hu, ← hu, huri, howed]
        constructor
        · rintro ⟨e, hne⟩
          obtain ⟨e, -⟩ := Prod.mk.inj (Option.some.inj e)
          exact absurd e.symm hne
        · intro e
          cases e
      · rw [if_neg hu]
        exact ⟨fun hl => hl.1, fun hl => ⟨hl, hne⟩⟩
    · intro hs uri'
      rw [lastDelivered?_delivered hx.sound hr, hx.lastDelivered hr.not_stopped, ← huri, ← hver]
      rfl
    · intro t uri' version hm
      exact hx.ticket_lt t uri' version (List.mem_of_ne_of_mem (by simp) hm)
  · simp only [act, hd, Option.toList_none, List.map_nil, List.nil_append]
    exact hx
  · simp only [act, hd, Option.toList_none, List.map_nil, List.nil_append]
    exact hx.drop t

/-- An act keeps a linter in agreement with the events. -/
theorem Explains.act (a : Act) : Explains (l.act a).1 ((l.act a).2 ++ h) := by
  cases a with
  | schedule uri version due => exact hx.schedule uri version due
  | forget uri => exact hx.forget uri
  | stop => exact hx.stop
  | await t => exact hx.moveTo (hx.sound.moveTo fun _ _ _ _ e => by cases e)
  | settle t settings => exact hx.settle t settings
  | finish t tree outcome =>
    simp only [Linter.act]
    cases hrun : l.run? t with
    | none => exact hx
    | some r => exact hx.finish (hx.sound.run?_eq_some_iff.mp hrun).1 tree outcome
  | drop t => exact hx.drop t
  | deliver t => exact hx.deliver t

end Steps

/-- **The linter agrees with the events, whatever was done to it.** -/
theorem explains_afterActs (acts : List Act) : Explains (afterActs acts).1 (afterActs acts).2 := by
  unfold afterActs
  apply List.foldlRecOn (motive := fun s : Linter × List Event => Explains s.1 s.2)
  · exact explains_empty
  · intro s hx a _
    exact hx.act a

/-- A run may be delivered exactly if it is live. -/
theorem deliverable_iff (hs : Sound l) {r : Run} : l.Deliverable r ↔ l.Live r := by
  constructor
  · rintro ⟨hr, tree, outcome, hd⟩
    obtain ⟨result, hd⟩ := Option.ne_none_iff_exists'.mp hd
    obtain ⟨r', hlive, ht, -⟩ := (deliver_eq_some_iff (hs.finish hr tree outcome)).mp hd
    have hlive' := hlive.2
    rw [ht] at hlive'
    refine ⟨hr, ?_⟩
    unfold Linter.finish at hlive'
    split at hlive' <;> exact hlive'
  · intro hr
    -- even an engine that crashes gives a result
    have hlive : (l.finish r default .crashed).Live
        { r with stage := .linted (.failure r.uri r.version "internal error in lint task") } :=
      live_moveTo.mpr ⟨r, hr, if_pos rfl⟩
    have hd := (deliver_eq_some_iff (hs.finish hr.1 default .crashed)).mpr ⟨_, hlive, rfl, rfl⟩
    exact ⟨hr.1, default, .crashed, Option.ne_none_iff_exists'.mpr ⟨_, hd⟩⟩

/-- **Runs that were superseded are never delivered, and delivered versions never decrease.** Whatever was done to a
linter, no two runs started under the same ticket and none was delivered twice; between the start of a run and its
delivery no other run started for its document, and neither was the document forgotten nor the linter stopped; a run may
be delivered exactly if it is the one its document is owed, so for each document at most one may; and in any stretch in
which a document was not forgotten, no version of it was delivered before a lower one. -/
theorem orderly_afterActs (acts : List Act) :
    ((afterActs acts).2.filterMap Event.scheduledTicket?).Nodup ∧
    ((afterActs acts).2.filterMap Event.deliveredTicket?).Nodup ∧
    (∀ later t result earlier, (afterActs acts).2 = later ++ .delivered t result :: earlier →
      ∃ between before, earlier = between ++ .scheduled t result.uri result.version :: before ∧
        ∀ e ∈ between, ¬ e.Ends result.uri) ∧
    (∀ r ∈ (afterActs acts).1.runs,
      (afterActs acts).1.Deliverable r ↔ owed r.uri (afterActs acts).2 = some (r.ticket, r.version)) ∧
    (∀ r r', (afterActs acts).1.Deliverable r → (afterActs acts).1.Deliverable r' → r.uri = r'.uri → r = r') ∧
    ∀ uri later mid earlier, (afterActs acts).2 = later ++ mid ++ earlier → .forgotten uri ∉ mid →
      (mid.filterMap (Event.deliveredVersion? uri)).Pairwise (fun later earlier => earlier ≤ later) := by
  have hx := explains_afterActs acts
  refine ⟨hx.orderly.nodup_scheduled, hx.orderly.nodup_delivered, ?_, ?_, ?_, ?_⟩
  · intro later t result earlier heq
    have ho : Orderly (.delivered t result :: earlier) := (heq ▸ hx.orderly).of_append
    cases ho with
    | delivered _ howed _ => exact exists_scheduled_of_owed howed
  · intro r hr
    rw [deliverable_iff hx.sound]
    exact hx.live_iff r hr
  · intro r r' hr hr' hu
    rw [deliverable_iff hx.sound] at hr hr'
    exact hr.eq_of_uri hx.sound hr' hu
  · intro uri later mid earlier heq hmid
    have ho : Orderly (later ++ (mid ++ earlier)) := List.append_assoc later mid earlier ▸ heq ▸ hx.orderly
    exact ho.of_append.pairwise_versions hmid

end RubyServer.Linter
