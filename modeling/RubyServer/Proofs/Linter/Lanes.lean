import Mathlib.Data.List.Nodup
import RubyServer.Linter

/-!
# The runs that may still be delivered

A run is live as long as it is under way and was not cancelled (`Live`). The bookkeeping of the linter (`Sound`) makes
a live run the one whose token its document's lane holds, at the lane's generation and at the version scheduled last,
so a document has at most one (`Live.eq_of_uri`). What the linter is told to do is said once in terms of the live runs:
a run that starts takes the place of the one for the same document (`live_schedule`), forgetting a document ends it
(`live_forget`), and stopping ends all (`not_live_stop`).
-/

namespace RubyServer.Linter

variable {l : Linter} {uri : Uri} {version : Int}

/-- A run under way that was not cancelled. -/
def Live (l : Linter) (r : Run) : Prop := r ∈ l.runs ∧ l.isCancelled r.ticket = false

/-- The version of a document that was scheduled last. -/
def scheduled? (l : Linter) (uri : Uri) : Option Int := (l.laneOf.get? uri).bind fun id => (l.lane id).scheduled

/-- The bookkeeping of a linter. -/
structure Sound (l : Linter) : Prop where
  /-- Runs are numbered apart, -/
  tickets : (l.runs.map Run.ticket).Nodup
  /-- below the next number, -/
  ticket_lt : ∀ r ∈ l.runs, r.ticket < l.nextTicket
  /-- and so are cancelled runs -/
  cancelled_lt : ∀ t ∈ l.cancelled, t < l.nextTicket
  /-- and tokens in lanes. -/
  token_lt : ∀ id t, (l.lane id).token = some t → t < l.nextTicket
  /-- No two lanes hold the same token. -/
  token_inj : ∀ id id' t, (l.lane id).token = some t → (l.lane id').token = some t → id = id'
  /-- Lanes are numbered apart, -/
  lane_inj : ∀ uri uri' id, l.laneOf.get? uri = some id → l.laneOf.get? uri' = some id → uri = uri'
  /-- below the next number, -/
  lane_lt : ∀ uri id, l.laneOf.get? uri = some id → id < l.nextLane
  /-- and a lane that is still to come is as new. -/
  lane_new : ∀ id, l.nextLane ≤ id → l.lane id = {}
  /-- What was delivered is not later than what was scheduled. -/
  delivered_le : ∀ id d, (l.lane id).delivered = some d → ∃ v, (l.lane id).scheduled = some v ∧ d ≤ v
  /-- A result is for the document and version of its run. -/
  linted : ∀ r ∈ l.runs, ∀ result, r.stage = .linted result → result.uri = r.uri ∧ result.version = r.version
  /-- A live run holds the lane of its document. -/
  live : ∀ r, l.Live r → l.laneOf.get? r.uri = some r.lane ∧ (l.lane r.lane).token = some r.ticket ∧
    (l.lane r.lane).generation = r.generation ∧ (l.lane r.lane).scheduled = some r.version

theorem sound_empty : Sound {} where
  tickets := List.nodup_nil
  ticket_lt := fun r hr => by cases hr
  cancelled_lt := fun t ht => by cases ht
  token_lt := fun id t ht => by cases ht
  token_inj := fun id id' t ht => by cases ht
  lane_inj := fun uri uri' id h => by cases h
  lane_lt := fun uri id h => by cases h
  lane_new := fun id _ => rfl
  delivered_le := fun id d h => by cases h
  linted := fun r hr => by cases hr
  live := fun r hr => by cases hr.1

/-! ## Reading the bookkeeping -/

theorem Sound.eq_of_ticket (h : Sound l) {r r' : Run} (hr : r ∈ l.runs) (hr' : r' ∈ l.runs)
    (ht : r.ticket = r'.ticket) : r = r' :=
  List.inj_on_of_nodup_map h.tickets hr hr' ht

theorem Sound.run?_eq_some_iff (h : Sound l) {t : Ticket} {r : Run} : l.run? t = some r ↔ r ∈ l.runs ∧ r.ticket = t := by
  unfold run?
  constructor
  · intro hf
    exact ⟨List.mem_of_find?_eq_some hf, by simpa using List.find?_some hf⟩
  · rintro ⟨hr, rfl⟩
    cases hf : l.runs.find? fun r' => r'.ticket == r.ticket with
    | none => simpa using List.find?_eq_none.mp hf r hr
    | some r' =>
      have ht : r'.ticket = r.ticket := by simpa using List.find?_some hf
      rw [h.eq_of_ticket (List.mem_of_find?_eq_some hf) hr ht]

/-- **A document has at most one live run.** -/
theorem Live.eq_of_uri (h : Sound l) {r r' : Run} (hr : l.Live r) (hr' : l.Live r') (hu : r.uri = r'.uri) : r = r' := by
  obtain ⟨hlane, htoken, -, -⟩ := h.live r hr
  obtain ⟨hlane', htoken', -, -⟩ := h.live r' hr'
  rw [hu, hlane'] at hlane
  rw [← Option.some.inj hlane, htoken'] at htoken
  exact h.eq_of_ticket hr.1 hr'.1 (Option.some.inj htoken).symm

/-- A live run is for the version that was scheduled last. -/
theorem Live.scheduled?_eq (h : Sound l) {r : Run} (hr : l.Live r) : l.scheduled? r.uri = some r.version := by
  obtain ⟨hlane, -, -, hs⟩ := h.live r hr
  unfold scheduled?
  rw [hlane]
  exact hs

/-- Nothing later than a live run was delivered for its document. -/
theorem Live.lastDelivered_le (h : Sound l) {r : Run} (hr : l.Live r) {d : Int} (hd : l.lastDelivered? r.uri = some d) :
    d ≤ r.version := by
  obtain ⟨hlane, -, -, hs⟩ := h.live r hr
  unfold lastDelivered? at hd
  rw [hlane] at hd
  obtain ⟨v, hv, hle⟩ := h.delivered_le r.lane d hd
  rw [hs] at hv
  cases hv
  exact hle

theorem Live.not_stopped {r : Run} (hr : l.Live r) : l.stopped = false := by
  have hc := hr.2
  unfold isCancelled at hc
  simp only [Bool.or_eq_false_iff] at hc
  exact hc.1

/-! ## Cancelling -/

theorem lane_insert (lanes : Table LaneId Lane) (id id' : LaneId) (lane : Lane) :
    ((lanes.insert id lane).get? id').getD {} = if id = id' then lane else (lanes.get? id').getD {} := by
  rw [Table.get?_insert]
  split <;> rfl

theorem lane_cancelIn (l : Linter) (id id' : LaneId) :
    (l.cancelIn id).lane id' = if id = id' then { l.lane id with token := none } else l.lane id' :=
  lane_insert l.lanes id id' _

theorem token_cancelIn {id id' : LaneId} {t : Ticket} (ht : ((l.cancelIn id).lane id').token = some t) :
    id ≠ id' ∧ (l.lane id').token = some t := by
  rw [lane_cancelIn] at ht
  split at ht
  · cases ht
  · next hne => exact ⟨hne, ht⟩

theorem live_cancelIn {id : LaneId} {r : Run} :
    (l.cancelIn id).Live r ↔ l.Live r ∧ (l.lane id).token ≠ some r.ticket := by
  have hc : (l.cancelIn id).isCancelled r.ticket =
      (l.stopped || ((l.lane id).token.toList ++ l.cancelled).contains r.ticket) := rfl
  unfold Live
  rw [hc]
  unfold isCancelled
  simp only [Bool.or_eq_false_iff, List.contains_append]
  cases (l.lane id).token with
  | none => simp [cancelIn]
  | some t =>
    simp only [Option.toList_some, List.contains_cons, List.contains_nil, Bool.or_false, beq_eq_false_iff_ne, cancelIn,
      ne_eq, Option.some.injEq]
    constructor
    · rintro ⟨hr, hs, ht, hc⟩
      exact ⟨⟨hr, hs, hc⟩, fun e => ht e.symm⟩
    · rintro ⟨⟨hr, hs, hc⟩, ht⟩
      exact ⟨hr, hs, fun e => ht e.symm, hc⟩

theorem Sound.cancelIn (h : Sound l) (id : LaneId) (hid : id < l.nextLane) : Sound (l.cancelIn id) where
  tickets := h.tickets
  ticket_lt := h.ticket_lt
  cancelled_lt := by
    intro t ht
    rcases List.mem_append.mp ht with ht | ht
    · exact h.token_lt id t (Option.mem_toList.mp ht)
    · exact h.cancelled_lt t ht
  token_lt := fun id' t ht => h.token_lt id' t (token_cancelIn ht).2
  token_inj := fun id' id'' t ht ht' => h.token_inj id' id'' t (token_cancelIn ht).2 (token_cancelIn ht').2
  lane_inj := h.lane_inj
  lane_lt := h.lane_lt
  lane_new := by
    intro id' hid'
    have hne : id ≠ id' := Nat.ne_of_lt (Nat.lt_of_lt_of_le hid hid')
    rw [lane_cancelIn, if_neg hne]
    exact h.lane_new id' hid'
  delivered_le := by
    intro id' d hd
    rw [lane_cancelIn] at hd ⊢
    split at hd
    · next e =>
      rw [if_pos e]
      exact h.delivered_le id d hd
    · next e =>
      rw [if_neg e]
      exact h.delivered_le id' d hd
  linted := h.linted
  live := by
    intro r hr
    obtain ⟨hr, hne⟩ := live_cancelIn.mp hr
    obtain ⟨hlane, htoken, hgen, hs⟩ := h.live r hr
    have hid : id ≠ r.lane := by
      rintro rfl
      exact hne htoken
    rw [lane_cancelIn, if_neg hid]
    exact ⟨hlane, htoken, hgen, hs⟩

/-- Cancelling in the lane of a document ends the live run for that document, and no other. -/
theorem live_cancelIn_laneOf (h : Sound l) {id : LaneId} (hid : l.laneOf.get? uri = some id) {r : Run} :
    (l.cancelIn id).Live r ↔ l.Live r ∧ r.uri ≠ uri := by
  rw [live_cancelIn]
  refine and_congr_right fun hr => ?_
  obtain ⟨hlane, htoken, -, -⟩ := h.live r hr
  constructor
  · rintro hne rfl
    rw [hid] at hlane
    cases hlane
    exact hne htoken
  · intro hne ht
    obtain rfl := h.token_inj _ _ _ ht htoken
    exact hne (h.lane_inj _ _ _ hlane hid)

/-! ## Entering a lane -/

theorem laneOf_enter (l : Linter) (uri uri' : Uri) :
    (l.enter uri).1.laneOf.get? uri' = if uri = uri' then some (l.enter uri).2 else l.laneOf.get? uri' := by
  unfold enter
  cases hl : l.laneOf.get? uri with
  | some id =>
    by_cases hu : uri = uri'
    · subst hu
      rw [if_pos rfl]
      exact hl
    · rw [if_neg hu]
  | none => exact Table.get?_insert _ _ _ _

/-- Apart from the lane it finds, entering changes nothing. -/
theorem enter_fst (l : Linter) (uri : Uri) : ∃ laneOf nextLane, l.nextLane ≤ nextLane ∧
    (l.enter uri).1 = { l with laneOf := laneOf, nextLane := nextLane } := by
  unfold enter
  cases l.laneOf.get? uri with
  | some id => exact ⟨_, _, Nat.le_refl _, rfl⟩
  | none => exact ⟨_, _, Nat.le_succ _, rfl⟩

theorem Sound.enter (h : Sound l) (uri : Uri) : Sound (l.enter uri).1 := by
  unfold Linter.enter
  cases hl : l.laneOf.get? uri with
  | some id => exact h
  | none =>
    refine ⟨h.tickets, h.ticket_lt, h.cancelled_lt, h.token_lt, h.token_inj, ?_, ?_, ?_, h.delivered_le, h.linted, ?_⟩
    · intro u u' id hu hu'
      simp only [Table.get?_insert] at hu hu'
      split at hu
      · next e =>
        cases hu
        split at hu'
        · next e' => exact e.symm.trans e'
        · exact absurd (h.lane_lt u' _ hu') (Nat.lt_irrefl _)
      · split at hu'
        · cases hu'
          exact absurd (h.lane_lt u _ hu) (Nat.lt_irrefl _)
        · exact h.lane_inj u u' id hu hu'
    · intro u id hu
      simp only [Table.get?_insert] at hu
      split at hu
      · cases hu
        exact Nat.lt_succ_self _
      · exact Nat.lt_succ_of_lt (h.lane_lt u id hu)
    · intro id hid
      exact h.lane_new id (Nat.le_of_succ_le hid)
    · intro r hr
      obtain ⟨hlane, htoken, hgen, hs⟩ := h.live r hr
      refine ⟨?_, htoken, hgen, hs⟩
      simp only [Table.get?_insert]
      rw [if_neg, hlane]
      rintro rfl
      rw [hl] at hlane
      cases hlane

/-- A lane that was just given to a document is as new, so nothing is read from it that was not there before. -/
theorem Sound.bind_lane_enter (h : Sound l) (uri uri' : Uri) {α : Type} (f : Lane → Option α) (hf : f {} = none) :
    ((l.enter uri).1.laneOf.get? uri').bind (fun id => f ((l.enter uri).1.lane id)) =
      (l.laneOf.get? uri').bind fun id => f (l.lane id) := by
  unfold Linter.enter
  cases hl : l.laneOf.get? uri with
  | some id => rfl
  | none =>
    simp only [Table.get?_insert]
    split
    · next e =>
      subst e
      rw [hl]
      show f (l.lane l.nextLane) = none
      rw [h.lane_new _ (Nat.le_refl _)]
      exact hf
    · rfl

/-! ## Starting a run -/

/-- The run that starts. -/
def newRun (l : Linter) (id : LaneId) (uri : Uri) (version : Int) (due : Nat) : Run :=
  ⟨l.nextTicket, id, (l.lane id).generation + 1, uri, version, .debouncing due⟩

theorem lane_start (l : Linter) (id id' : LaneId) (uri : Uri) (version : Int) (due : Nat) :
    (l.start id uri version due).lane id' =
      if id = id' then
        { l.lane id with
          generation := (l.lane id).generation + 1, scheduled := some version, token := some l.nextTicket }
      else l.lane id' :=
  lane_insert l.lanes id id' _

theorem live_start (h : Sound l) (hs : l.stopped = false) {id : LaneId} {due : Nat} {r : Run} :
    (l.start id uri version due).Live r ↔ l.Live r ∨ r = l.newRun id uri version due := by
  have hnew : l.isCancelled l.nextTicket = false := by
    unfold isCancelled
    rw [hs, Bool.false_or]
    by_contra hc
    have hmem : l.nextTicket ∈ l.cancelled := by simpa using hc
    exact absurd (h.cancelled_lt _ hmem) (Nat.lt_irrefl _)
  have hc : ∀ t, (l.start id uri version due).isCancelled t = l.isCancelled t := fun _ => rfl
  have hruns : (l.start id uri version due).runs = l.runs ++ [l.newRun id uri version due] := rfl
  unfold Live
  rw [hc, hruns, List.mem_append, List.mem_singleton]
  constructor
  · rintro ⟨hr | rfl, hc⟩
    · exact Or.inl ⟨hr, hc⟩
    · exact Or.inr rfl
  · rintro (⟨hr, hc⟩ | rfl)
    · exact ⟨Or.inl hr, hc⟩
    · exact ⟨Or.inr rfl, hnew⟩

theorem token_start {id id' : LaneId} {due : Nat} {t : Ticket}
    (ht : ((l.start id uri version due).lane id').token = some t) :
    (id = id' ∧ t = l.nextTicket) ∨ (id ≠ id' ∧ (l.lane id').token = some t) := by
  rw [lane_start] at ht
  split at ht
  · next e => exact Or.inl ⟨e, (Option.some.inj ht).symm⟩
  · next e => exact Or.inr ⟨e, ht⟩

/-- A run starts in the lane of its document, which is free, at a version not before the one scheduled last. -/
theorem Sound.start (h : Sound l) (hs : l.stopped = false) {id : LaneId} (hid : l.laneOf.get? uri = some id)
    (hfree : (l.lane id).token = none) (hv : ∀ v, (l.lane id).scheduled = some v → v ≤ version) (due : Nat) :
    Sound (l.start id uri version due) where
  tickets := by
    have hruns : (l.start id uri version due).runs.map Run.ticket = l.runs.map Run.ticket ++ [l.nextTicket] := by
      show (l.runs ++ [l.newRun id uri version due]).map Run.ticket = _
      rw [List.map_append]
      rfl
    rw [hruns, List.nodup_append]
    refine ⟨h.tickets, by simp, ?_⟩
    intro t ht t' ht'
    obtain ⟨r, hr, rfl⟩ := List.mem_map.mp ht
    rw [List.mem_singleton.mp ht']
    exact Nat.ne_of_lt (h.ticket_lt r hr)
  ticket_lt := by
    intro r hr
    rcases List.mem_append.mp hr with hr | hr
    · exact Nat.lt_succ_of_lt (h.ticket_lt r hr)
    · rw [List.mem_singleton.mp hr]
      exact Nat.lt_succ_self _
  cancelled_lt := fun t ht => Nat.lt_succ_of_lt (h.cancelled_lt t ht)
  token_lt := by
    intro id' t ht
    rcases token_start ht with ⟨-, rfl⟩ | ⟨-, ht⟩
    · exact Nat.lt_succ_self _
    · exact Nat.lt_succ_of_lt (h.token_lt id' t ht)
  token_inj := by
    intro id' id'' t ht ht'
    rcases token_start ht with ⟨rfl, rfl⟩ | ⟨-, ht⟩
    · rcases token_start ht' with ⟨rfl, -⟩ | ⟨-, ht'⟩
      · rfl
      · exact absurd (h.token_lt id'' _ ht') (Nat.lt_irrefl _)
    · rcases token_start ht' with ⟨-, rfl⟩ | ⟨-, ht'⟩
      · exact absurd (h.token_lt id' _ ht) (Nat.lt_irrefl _)
      · exact h.token_inj id' id'' t ht ht'
  lane_inj := h.lane_inj
  lane_lt := h.lane_lt
  lane_new := by
    intro id' hid'
    have hne : id ≠ id' := Nat.ne_of_lt (Nat.lt_of_lt_of_le (h.lane_lt uri id hid) hid')
    rw [lane_start, if_neg hne]
    exact h.lane_new id' hid'
  delivered_le := by
    intro id' d hd
    rw [lane_start] at hd ⊢
    split at hd
    · next e =>
      rw [if_pos e]
      obtain ⟨v, hsv, hle⟩ := h.delivered_le id d hd
      exact ⟨version, rfl, Int.le_trans hle (hv v hsv)⟩
    · next e =>
      rw [if_neg e]
      exact h.delivered_le id' d hd
  linted := by
    intro r hr result hstage
    rcases List.mem_append.mp hr with hr | hr
    · exact h.linted r hr result hstage
    · rw [List.mem_singleton.mp hr] at hstage
      cases hstage
  live := by
    intro r hr
    rcases (live_start h hs).mp hr with hr | rfl
    · obtain ⟨hlane, htoken, hgen, hsch⟩ := h.live r hr
      have hne : id ≠ r.lane := by
        rintro rfl
        rw [hfree] at htoken
        cases htoken
      rw [lane_start, if_neg hne]
      exact ⟨hlane, htoken, hgen, hsch⟩
    · show l.laneOf.get? uri = some id ∧ _
      rw [show (l.newRun id uri version due).lane = id from rfl, lane_start, if_pos rfl]
      exact ⟨hid, rfl, rfl, rfl⟩

/-! ## Scheduling -/

/-- Whether a version of a document would be scheduled: the linter was not stopped, and no later version is. -/
def Accepts (l : Linter) (uri : Uri) (version : Int) : Prop :=
  l.stopped = false ∧ ∀ v, l.scheduled? uri = some v → v ≤ version

theorem stopped_enter (l : Linter) (uri : Uri) : (l.enter uri).1.stopped = l.stopped := by
  obtain ⟨_, _, -, he⟩ := enter_fst l uri
  rw [he]

section Schedule

variable (h : Sound l) {due : Nat}

include h

theorem Sound.scheduled?_enter (uri uri' : Uri) : (l.enter uri).1.scheduled? uri' = l.scheduled? uri' :=
  h.bind_lane_enter uri uri' Lane.scheduled rfl

theorem scheduled_enter : ((l.enter uri).1.lane (l.enter uri).2).scheduled = l.scheduled? uri := by
  rw [← h.scheduled?_enter uri uri]
  unfold scheduled?
  rw [laneOf_enter, if_pos rfl]
  rfl

/-- What is refused leaves no trace. -/
theorem schedule_of_not_accepts (hacc : ¬ l.Accepts uri version) : l.schedule uri version due = l := by
  unfold schedule
  split
  · rfl
  · next hs =>
    have hs : l.stopped = false := by simpa using hs
    obtain ⟨v, hv, hlt⟩ : ∃ v, l.scheduled? uri = some v ∧ version < v := by
      simpa [Accepts, hs] using hacc
    have hl : (l.enter uri).1 = l := by
      unfold scheduled? at hv
      obtain ⟨id, hid, -⟩ := Option.bind_eq_some_iff.mp hv
      unfold enter
      rw [hid]
    simp only [scheduled_enter h, hv, Option.any_some, hlt, decide_true, ↓reduceIte]
    exact hl

/-- What is accepted cancels the run in the document's lane and starts another there. -/
theorem schedule_of_accepts (hacc : l.Accepts uri version) :
    l.schedule uri version due = ((l.enter uri).1.cancelIn (l.enter uri).2).start (l.enter uri).2 uri version due := by
  unfold schedule
  have hs : ¬ l.stopped = true := by simp [hacc.1]
  rw [if_neg hs]
  have hany : (l.scheduled? uri).any (fun scheduled => decide (version < scheduled)) = false := by
    cases hv : l.scheduled? uri with
    | none => rfl
    | some v => simpa using hacc.2 v hv
  simp only [scheduled_enter h, hany, Bool.false_eq_true, ↓reduceIte]

theorem Sound.schedule (uri : Uri) (version : Int) (due : Nat) : Sound (l.schedule uri version due) := by
  by_cases hacc : l.Accepts uri version
  · rw [schedule_of_accepts h hacc]
    have he := h.enter uri
    have hid : (l.enter uri).1.laneOf.get? uri = some (l.enter uri).2 := by rw [laneOf_enter, if_pos rfl]
    have hlane := lane_cancelIn (l.enter uri).1 (l.enter uri).2 (l.enter uri).2
    rw [if_pos rfl] at hlane
    apply (he.cancelIn _ (he.lane_lt uri _ hid)).start
    · exact (stopped_enter l uri).trans hacc.1
    · exact hid
    · rw [hlane]
    · rw [hlane]
      show ∀ v, ((l.enter uri).1.lane (l.enter uri).2).scheduled = some v → v ≤ version
      rw [scheduled_enter h]
      exact hacc.2
  · rw [schedule_of_not_accepts h hacc]
    exact h

variable (due) in
/-- **A run that starts takes the place of the live run for its document.** -/
theorem live_schedule (hacc : l.Accepts uri version) :
    ∃ r₀ : Run, r₀.ticket = l.nextTicket ∧ r₀.uri = uri ∧ r₀.version = version ∧ r₀.stage = .debouncing due ∧
      (l.schedule uri version due).runs = l.runs ++ [r₀] ∧
      ∀ r, (l.schedule uri version due).Live r ↔ (l.Live r ∧ r.uri ≠ uri) ∨ r = r₀ := by
  have he := h.enter uri
  have hid : (l.enter uri).1.laneOf.get? uri = some (l.enter uri).2 := by rw [laneOf_enter, if_pos rfl]
  have hs : ((l.enter uri).1.cancelIn (l.enter uri).2).stopped = false := (stopped_enter l uri).trans hacc.1
  obtain ⟨_, _, -, hl⟩ := enter_fst l uri
  refine ⟨((l.enter uri).1.cancelIn (l.enter uri).2).newRun (l.enter uri).2 uri version due, ?_, rfl, rfl, rfl, ?_, ?_⟩
  · show (l.enter uri).1.nextTicket = l.nextTicket
    rw [hl]
  · rw [schedule_of_accepts h hacc]
    show (l.enter uri).1.runs ++ _ = _
    rw [hl]
    rfl
  · intro r
    rw [schedule_of_accepts h hacc, live_start (he.cancelIn _ (he.lane_lt uri _ hid)) hs, live_cancelIn_laneOf he hid, hl]
    rfl

/-- The lanes of other documents are left alone. -/
theorem laneOf_schedule_of_ne (hacc : l.Accepts uri version) {uri' : Uri} (hne : uri ≠ uri') (due : Nat) :
    (l.schedule uri version due).laneOf.get? uri' = l.laneOf.get? uri' ∧
      ∀ id, l.laneOf.get? uri' = some id → (l.schedule uri version due).lane id = l.lane id := by
  have he := h.enter uri
  have hid : (l.enter uri).1.laneOf.get? uri = some (l.enter uri).2 := by rw [laneOf_enter, if_pos rfl]
  have hother : (l.enter uri).1.laneOf.get? uri' = l.laneOf.get? uri' := by rw [laneOf_enter, if_neg hne]
  rw [schedule_of_accepts h hacc]
  refine ⟨hother, ?_⟩
  intro id hid'
  have hne' : (l.enter uri).2 ≠ id := by
    intro e
    rw [e] at hid
    exact hne (he.lane_inj uri uri' id hid (hother.trans hid'))
  rw [lane_start, if_neg hne', lane_cancelIn, if_neg hne']
  obtain ⟨_, _, -, hl⟩ := enter_fst l uri
  rw [hl]
  rfl

theorem scheduled?_schedule (hacc : l.Accepts uri version) (uri' : Uri) :
    (l.schedule uri version due).scheduled? uri' = if uri = uri' then some version else l.scheduled? uri' := by
  by_cases hu : uri = uri'
  · subst hu
    rw [if_pos rfl, schedule_of_accepts h hacc]
    show ((l.enter uri).1.laneOf.get? uri).bind _ = _
    rw [laneOf_enter, if_pos rfl, Option.bind_some, lane_start, if_pos rfl]
  · obtain ⟨hlaneOf, hlane⟩ := laneOf_schedule_of_ne h hacc hu due
    rw [if_neg hu]
    unfold scheduled?
    rw [hlaneOf]
    exact Option.bind_congr fun id hid => by rw [hlane id hid]

theorem lastDelivered?_schedule (uri' : Uri) :
    (l.schedule uri version due).lastDelivered? uri' = l.lastDelivered? uri' := by
  by_cases hacc : l.Accepts uri version
  · by_cases hu : uri = uri'
    · subst hu
      rw [schedule_of_accepts h hacc]
      show ((l.enter uri).1.laneOf.get? uri).bind _ = _
      have hd := h.bind_lane_enter uri uri Lane.delivered rfl
      rw [laneOf_enter, if_pos rfl, Option.bind_some] at hd ⊢
      rw [lane_start, if_pos rfl, lane_cancelIn, if_pos rfl]
      exact hd
    · obtain ⟨hlaneOf, hlane⟩ := laneOf_schedule_of_ne h hacc hu due
      unfold lastDelivered?
      rw [hlaneOf]
      exact Option.bind_congr fun id hid => by rw [hlane id hid]
  · rw [schedule_of_not_accepts h hacc]

theorem nextTicket_schedule (hacc : l.Accepts uri version) :
    (l.schedule uri version due).nextTicket = l.nextTicket + 1 := by
  rw [schedule_of_accepts h hacc]
  obtain ⟨_, _, -, hl⟩ := enter_fst l uri
  rw [hl]
  rfl

theorem stopped_schedule : (l.schedule uri version due).stopped = l.stopped := by
  by_cases hacc : l.Accepts uri version
  · rw [schedule_of_accepts h hacc]
    exact stopped_enter l uri
  · rw [schedule_of_not_accepts h hacc]

end Schedule

/-! ## Forgetting and stopping -/

/-- What is read of the lane of a document after one was forgotten. -/
theorem bind_lane_forget (uri uri' : Uri) {α : Type} (f : Lane → Option α)
    (hf : ∀ lane : Lane, f { lane with token := none } = f lane) :
    ((l.forget uri).laneOf.get? uri').bind (fun id => f ((l.forget uri).lane id)) =
      if uri = uri' then none else (l.laneOf.get? uri').bind fun id => f (l.lane id) := by
  unfold Linter.forget
  cases hid : l.laneOf.get? uri with
  | none =>
    by_cases hu : uri = uri'
    · subst hu
      rw [if_pos rfl, hid]
      rfl
    · rw [if_neg hu]
  | some id =>
    show ((l.laneOf.erase uri).get? uri').bind (fun id' => f ((l.cancelIn id).lane id')) = _
    rw [Table.get?_erase]
    split
    · rfl
    · refine Option.bind_congr fun id' _ => ?_
      rw [lane_cancelIn]
      split
      · next e =>
        subst e
        exact hf _
      · rfl

theorem scheduled?_forget (uri uri' : Uri) :
    (l.forget uri).scheduled? uri' = if uri = uri' then none else l.scheduled? uri' :=
  bind_lane_forget uri uri' Lane.scheduled fun _ => rfl

theorem lastDelivered?_forget (uri uri' : Uri) :
    (l.forget uri).lastDelivered? uri' = if uri = uri' then none else l.lastDelivered? uri' :=
  bind_lane_forget uri uri' Lane.delivered fun _ => rfl

theorem forget_frame (l : Linter) (uri : Uri) :
    (l.forget uri).nextTicket = l.nextTicket ∧ (l.forget uri).runs = l.runs ∧ (l.forget uri).stopped = l.stopped := by
  unfold Linter.forget
  cases l.laneOf.get? uri with
  | none => exact ⟨rfl, rfl, rfl⟩
  | some id => exact ⟨rfl, rfl, rfl⟩

/-- A linter that was stopped has no live run. -/
theorem not_live_stop {r : Run} : ¬ l.stop.Live r := by
  intro hr
  cases Live.not_stopped hr

section Forget

variable (h : Sound l)

include h

theorem Sound.forget (uri : Uri) : Sound (l.forget uri) := by
  unfold Linter.forget
  cases hid : l.laneOf.get? uri with
  | none => exact h
  | some id =>
    have hc := h.cancelIn id (h.lane_lt uri id hid)
    have herase : ∀ uri' id', (l.laneOf.erase uri).get? uri' = some id' → l.laneOf.get? uri' = some id' := by
      intro uri' id' h'
      rw [Table.get?_erase] at h'
      split at h'
      · cases h'
      · exact h'
    refine ⟨hc.tickets, hc.ticket_lt, hc.cancelled_lt, hc.token_lt, hc.token_inj, ?_, ?_, hc.lane_new, hc.delivered_le,
      hc.linted, ?_⟩
    · intro u u' id' hu hu'
      exact h.lane_inj u u' id' (herase u id' hu) (herase u' id' hu')
    · intro u id' hu
      exact h.lane_lt u id' (herase u id' hu)
    · intro r hr
      have hr : (l.cancelIn id).Live r := hr
      obtain ⟨hlane, htoken, hgen, hs⟩ := hc.live r hr
      refine ⟨?_, htoken, hgen, hs⟩
      have hne : uri ≠ r.uri := fun e => ((live_cancelIn_laneOf h hid).mp hr).2 e.symm
      show (l.laneOf.erase uri).get? r.uri = some r.lane
      rw [Table.get?_erase, if_neg hne]
      exact hlane

/-- Forgetting a document ends the live run for it. -/
theorem live_forget {r : Run} : (l.forget uri).Live r ↔ l.Live r ∧ r.uri ≠ uri := by
  unfold Linter.forget
  cases hid : l.laneOf.get? uri with
  | none =>
    refine ⟨fun hr => ⟨hr, ?_⟩, fun hr => hr.1⟩
    rintro rfl
    have hlane := (h.live r hr).1
    rw [hid] at hlane
    cases hlane
  | some id => exact live_cancelIn_laneOf h hid

theorem Sound.stop : Sound l.stop where
  tickets := h.tickets
  ticket_lt := h.ticket_lt
  cancelled_lt := h.cancelled_lt
  token_lt := h.token_lt
  token_inj := h.token_inj
  lane_inj := fun uri uri' id hu => by cases hu
  lane_lt := fun uri id hu => by cases hu
  lane_new := h.lane_new
  delivered_le := h.delivered_le
  linted := h.linted
  live := fun r hr => absurd hr not_live_stop

end Forget

end RubyServer.Linter
