import RubyServer.Proofs.Linter.Lanes

/-!
# Runs on their way to delivery

A run that goes on from stage to stage is the same run (`Run.onTo`) and stays live (`live_moveTo`). A live run that has
linted is delivered whenever it asks to be, and no other run ever is (`deliver_eq_some_iff`): a run that was cancelled
ends there, whatever the generation of its lane.
-/

namespace RubyServer

namespace Run

/-- A run at a stage, if it has the given ticket. -/
def onTo (t : Ticket) (stage : Stage) (r : Run) : Run := if r.ticket = t then { r with stage := stage } else r

variable (r : Run) (t : Ticket) (stage : Stage)

@[simp] theorem ticket_onTo : (r.onTo t stage).ticket = r.ticket := by
  unfold onTo
  split <;> rfl

@[simp] theorem lane_onTo : (r.onTo t stage).lane = r.lane := by
  unfold onTo
  split <;> rfl

@[simp] theorem generation_onTo : (r.onTo t stage).generation = r.generation := by
  unfold onTo
  split <;> rfl

@[simp] theorem uri_onTo : (r.onTo t stage).uri = r.uri := by
  unfold onTo
  split <;> rfl

@[simp] theorem version_onTo : (r.onTo t stage).version = r.version := by
  unfold onTo
  split <;> rfl

theorem stage_onTo : (r.onTo t stage).stage = if r.ticket = t then stage else r.stage := by
  unfold onTo
  split <;> rfl

end Run

namespace Linter

variable {l : Linter} {uri : Uri}

/-! ## Runs that go on or end -/

theorem mem_moveTo {t : Ticket} {stage : Stage} {r : Run} :
    r ∈ (l.moveTo t stage).runs ↔ ∃ r₀ ∈ l.runs, r₀.onTo t stage = r :=
  List.mem_map

theorem live_onTo {t : Ticket} {stage : Stage} {r₀ : Run} (hr₀ : r₀ ∈ l.runs) :
    (l.moveTo t stage).Live (r₀.onTo t stage) ↔ l.Live r₀ := by
  have hc : ∀ t', (l.moveTo t stage).isCancelled t' = l.isCancelled t' := fun _ => rfl
  unfold Live
  rw [hc, Run.ticket_onTo]
  exact ⟨fun hlive => ⟨hr₀, hlive.2⟩, fun hlive => ⟨mem_moveTo.mpr ⟨r₀, hr₀, rfl⟩, hlive.2⟩⟩

/-- A run that goes on to another stage is live as before. -/
theorem live_moveTo {t : Ticket} {stage : Stage} {r : Run} :
    (l.moveTo t stage).Live r ↔ ∃ r₀, l.Live r₀ ∧ r₀.onTo t stage = r := by
  constructor
  · intro hr
    obtain ⟨r₀, hr₀, rfl⟩ := mem_moveTo.mp hr.1
    exact ⟨r₀, (live_onTo hr₀).mp hr, rfl⟩
  · rintro ⟨r₀, hr₀, rfl⟩
    exact (live_onTo hr₀.1).mpr hr₀

theorem mem_drop {t : Ticket} {r : Run} : r ∈ (l.drop t).runs ↔ r ∈ l.runs ∧ r.ticket ≠ t := by
  unfold drop
  rw [List.mem_filter]
  simp

theorem live_drop {t : Ticket} {r : Run} : (l.drop t).Live r ↔ l.Live r ∧ r.ticket ≠ t := by
  have hc : ∀ t', (l.drop t).isCancelled t' = l.isCancelled t' := fun _ => rfl
  unfold Live
  rw [mem_drop, hc]
  exact and_right_comm

/-- A result is for the document and version of its run. -/
theorem resultOf_eq_some {r : Run} {tree : ParsedDocument} {outcome : LintOutcome} {result : LintResult}
    (hres : resultOf r tree outcome = some result) : result.uri = r.uri ∧ result.version = r.version := by
  cases outcome with
  | crashed =>
    cases hres
    exact ⟨rfl, rfl⟩
  | found found =>
    simp only [resultOf] at hres
    split at hres
    · cases hres
      exact ⟨rfl, rfl⟩
    · cases hres
  | failed e =>
    simp only [resultOf] at hres
    split at hres
    · cases hres
      exact ⟨rfl, rfl⟩
    · cases hres

section Progress

variable (h : Sound l)

include h

/-- A run may go on to any stage, with a result of its own if it has linted. -/
theorem Sound.moveTo {t : Ticket} {stage : Stage}
    (hstage : ∀ r ∈ l.runs, r.ticket = t → ∀ result, stage = .linted result →
      result.uri = r.uri ∧ result.version = r.version) : Sound (l.moveTo t stage) where
  tickets := by
    have hmap : (l.moveTo t stage).runs.map Run.ticket = l.runs.map Run.ticket := by
      unfold Linter.moveTo
      rw [List.map_map]
      exact List.map_congr_left fun r _ => r.ticket_onTo t stage
    rw [hmap]
    exact h.tickets
  ticket_lt := by
    intro r hr
    obtain ⟨r₀, hr₀, rfl⟩ := mem_moveTo.mp hr
    rw [Run.ticket_onTo]
    exact h.ticket_lt r₀ hr₀
  cancelled_lt := h.cancelled_lt
  token_lt := h.token_lt
  token_inj := h.token_inj
  lane_inj := h.lane_inj
  lane_lt := h.lane_lt
  lane_new := h.lane_new
  delivered_le := h.delivered_le
  linted := by
    intro r hr result hres
    obtain ⟨r₀, hr₀, rfl⟩ := mem_moveTo.mp hr
    rw [Run.uri_onTo, Run.version_onTo]
    rw [Run.stage_onTo] at hres
    split at hres
    · next ht => exact hstage r₀ hr₀ ht result hres
    · exact h.linted r₀ hr₀ result hres
  live := by
    intro r hr
    obtain ⟨r₀, hr₀, rfl⟩ := live_moveTo.mp hr
    simp only [Run.uri_onTo, Run.lane_onTo, Run.ticket_onTo, Run.generation_onTo, Run.version_onTo]
    exact h.live r₀ hr₀

theorem Sound.drop (t : Ticket) : Sound (l.drop t) where
  tickets := (List.filter_sublist.map Run.ticket).nodup h.tickets
  ticket_lt := fun r hr => h.ticket_lt r (mem_drop.mp hr).1
  cancelled_lt := h.cancelled_lt
  token_lt := h.token_lt
  token_inj := h.token_inj
  lane_inj := h.lane_inj
  lane_lt := h.lane_lt
  lane_new := h.lane_new
  delivered_le := h.delivered_le
  linted := fun r hr => h.linted r (mem_drop.mp hr).1
  live := fun r hr => h.live r (live_drop.mp hr).1

theorem Sound.settle (t : Ticket) (settings : Settings) : Sound (l.settle t settings) := by
  unfold Linter.settle
  split
  · exact h.drop t
  · exact h.moveTo fun r _ _ result hres => by cases hres

theorem Sound.finish {r : Run} (hr : r ∈ l.runs) (tree : ParsedDocument) (outcome : LintOutcome) :
    Sound (l.finish r tree outcome) := by
  unfold Linter.finish
  cases hres : resultOf r tree outcome with
  | none => exact h.drop r.ticket
  | some result =>
    refine h.moveTo fun r' hr' ht result' hres' => ?_
    rw [h.eq_of_ticket hr' hr ht]
    cases hres'
    exact resultOf_eq_some hres

end Progress

/-! ## Delivering -/

/-- The linter once a run was delivered. -/
def delivered (l : Linter) (r : Run) : Linter :=
  { l.drop r.ticket with
    lanes := l.lanes.insert r.lane { l.lane r.lane with delivered := some r.version, token := none } }

theorem lane_delivered (l : Linter) (r : Run) (id : LaneId) : (l.delivered r).lane id =
    if r.lane = id then { l.lane r.lane with delivered := some r.version, token := none } else l.lane id :=
  lane_insert l.lanes r.lane id _

theorem token_delivered {r : Run} {id : LaneId} {t : Ticket} (ht : ((l.delivered r).lane id).token = some t) :
    r.lane ≠ id ∧ (l.lane id).token = some t := by
  rw [lane_delivered] at ht
  split at ht
  · cases ht
  · next hne => exact ⟨hne, ht⟩

theorem live_delivered {r r' : Run} : (l.delivered r).Live r' ↔ l.Live r' ∧ r'.ticket ≠ r.ticket := live_drop

theorem scheduled?_delivered (l : Linter) (r : Run) (uri : Uri) : (l.delivered r).scheduled? uri = l.scheduled? uri := by
  show (l.laneOf.get? uri).bind (fun id => ((l.delivered r).lane id).scheduled) = _
  refine Option.bind_congr fun id _ => ?_
  rw [lane_delivered]
  split
  · next e =>
    subst e
    rfl
  · rfl

section Deliver

variable (h : Sound l)

include h

/-- A live run that has linted is delivered: nothing later was delivered from its lane. -/
theorem deliver_of_live {r : Run} (hr : l.Live r) {result : LintResult} (hs : r.stage = .linted result) :
    l.deliver r.ticket = (l.delivered r, some result) := by
  obtain ⟨-, -, hgen, hsch⟩ := h.live r hr
  have hver := (h.linted r hr.1 result hs).2
  have hc : (l.drop r.ticket).isCancelled r.ticket = false := hr.2
  have hgen' : ((l.drop r.ticket).lane r.lane).generation = r.generation := hgen
  have hlate : (((l.drop r.ticket).lane r.lane).delivered.any fun d => decide (r.version < d)) = false := by
    show ((l.lane r.lane).delivered.any fun d => decide (r.version < d)) = false
    cases hd : (l.lane r.lane).delivered with
    | none => rfl
    | some d =>
      obtain ⟨v, hv, hle⟩ := h.delivered_le r.lane d hd
      rw [hsch] at hv
      cases hv
      simpa using hle
  unfold deliver
  simp only [h.run?_eq_some_iff.mpr ⟨hr.1, rfl⟩, hs, hgen', hc, bne_self_eq_false, Bool.or_self, Bool.false_eq_true,
    ↓reduceIte, hver]
  rw [if_neg (by simp [hlate]), ← hgen']
  rfl

/-- A cancelled run ends without being delivered, whatever its generation. -/
theorem deliver_of_cancelled {r : Run} (hr : r ∈ l.runs) (hc : l.isCancelled r.ticket = true) {result : LintResult}
    (hs : r.stage = .linted result) : l.deliver r.ticket = (l.drop r.ticket, none) := by
  have hc' : (l.drop r.ticket).isCancelled r.ticket = true := hc
  unfold deliver
  simp only [h.run?_eq_some_iff.mpr ⟨hr, rfl⟩, hs, hc', Bool.or_true, ↓reduceIte]

/-- Nothing is delivered before it has linted. -/
theorem deliver_of_not_linted {t : Ticket}
    (hnot : ∀ r ∈ l.runs, r.ticket = t → ∀ result, r.stage ≠ .linted result) : l.deliver t = (l, none) := by
  unfold deliver
  cases hrun : l.run? t with
  | none => rfl
  | some r =>
    obtain ⟨hr, ht⟩ := h.run?_eq_some_iff.mp hrun
    have hnot := hnot r hr ht
    cases hs : r.stage with
    | linted result => exact absurd hs (hnot result)
    | debouncing due => simp only [hs]
    | awaitingSettings => simp only [hs]
    | linting settings => simp only [hs]

/-- What a delivery comes to. -/
theorem deliver_cases (t : Ticket) :
    (∃ r result, l.Live r ∧ r.ticket = t ∧ r.stage = .linted result ∧ l.deliver t = (l.delivered r, some result)) ∨
      ((∀ r, l.Live r → r.ticket = t → ∀ result, r.stage ≠ .linted result) ∧
        (l.deliver t = (l, none) ∨ ((∀ r, l.Live r → r.ticket ≠ t) ∧ l.deliver t = (l.drop t, none)))) := by
  by_cases hlinted : ∃ r ∈ l.runs, r.ticket = t ∧ ∃ result, r.stage = .linted result
  · obtain ⟨r, hr, rfl, result, hs⟩ := hlinted
    by_cases hc : l.isCancelled r.ticket = true
    · have hnot : ∀ r', l.Live r' → r'.ticket ≠ r.ticket := by
        intro r' hr' ht
        rw [← ht, hr'.2] at hc
        cases hc
      exact Or.inr ⟨fun r' hr' ht => absurd ht (hnot r' hr'), Or.inr ⟨hnot, deliver_of_cancelled h hr hc hs⟩⟩
    · have hlive : l.Live r := ⟨hr, by simpa using hc⟩
      exact Or.inl ⟨r, result, hlive, rfl, hs, deliver_of_live h hlive hs⟩
  · have hnot : ∀ r ∈ l.runs, r.ticket = t → ∀ result, r.stage ≠ .linted result :=
      fun r hr ht result hs => hlinted ⟨r, hr, ht, result, hs⟩
    exact Or.inr ⟨fun r hr => hnot r hr.1, Or.inl (deliver_of_not_linted h hnot)⟩

/-- **A run is delivered exactly if it has linted and is live.** -/
theorem deliver_eq_some_iff {t : Ticket} {result : LintResult} :
    (l.deliver t).2 = some result ↔ ∃ r, l.Live r ∧ r.ticket = t ∧ r.stage = .linted result := by
  rcases deliver_cases h t with ⟨r, result', hr, rfl, hs, hd⟩ | ⟨hnot, hd⟩
  · rw [hd]
    constructor
    · intro e
      cases e
      exact ⟨r, hr, rfl, hs⟩
    · rintro ⟨r', hr', ht, hs'⟩
      rw [h.eq_of_ticket hr'.1 hr.1 ht, hs] at hs'
      cases hs'
      rfl
  · have hnone : (l.deliver t).2 = none := by
      rcases hd with hd | ⟨-, hd⟩ <;> rw [hd]
    rw [hnone]
    constructor
    · intro e
      cases e
    · rintro ⟨r, hr, ht, hs⟩
      exact absurd hs (hnot r hr ht result)

theorem Sound.delivered {r : Run} (hr : l.Live r) : Sound (l.delivered r) := by
  obtain ⟨hlane, htoken, hgen, hsch⟩ := h.live r hr
  have hd := h.drop r.ticket
  refine ⟨hd.tickets, hd.ticket_lt, hd.cancelled_lt, ?_, ?_, hd.lane_inj, hd.lane_lt, ?_, ?_, hd.linted, ?_⟩
  · exact fun id t ht => h.token_lt id t (token_delivered ht).2
  · exact fun id id' t ht ht' => h.token_inj id id' t (token_delivered ht).2 (token_delivered ht').2
  · intro id hid
    have hne : r.lane ≠ id := Nat.ne_of_lt (Nat.lt_of_lt_of_le (h.lane_lt _ _ hlane) hid)
    rw [lane_delivered, if_neg hne]
    exact h.lane_new id hid
  · intro id d hd'
    rw [lane_delivered] at hd' ⊢
    split at hd'
    · next e =>
      cases hd'
      rw [if_pos e]
      exact ⟨r.version, hsch, Int.le_refl _⟩
    · next e =>
      rw [if_neg e]
      exact h.delivered_le id d hd'
  · intro r' hr'
    obtain ⟨hr', hne⟩ := live_drop.mp (show (l.drop r.ticket).Live r' from hr')
    obtain ⟨hlane', htoken', hgen', hsch'⟩ := h.live r' hr'
    have hne' : r.lane ≠ r'.lane := by
      intro e
      rw [← e, htoken] at htoken'
      exact hne (Option.some.inj htoken').symm
    rw [lane_delivered, if_neg hne']
    exact ⟨hlane', htoken', hgen', hsch'⟩

theorem lastDelivered?_delivered {r : Run} (hr : l.Live r) (uri : Uri) :
    (l.delivered r).lastDelivered? uri = if r.uri = uri then some r.version else l.lastDelivered? uri := by
  have hlane := (h.live r hr).1
  show (l.laneOf.get? uri).bind (fun id => ((l.delivered r).lane id).delivered) = _
  split
  · next e =>
    subst e
    rw [hlane, Option.bind_some, lane_delivered, if_pos rfl]
  · next e =>
    refine Option.bind_congr fun id hid => ?_
    have hne : r.lane ≠ id := by
      rintro rfl
      exact e (h.lane_inj _ _ _ hlane hid)
    rw [lane_delivered, if_neg hne]

end Deliver

end Linter

end RubyServer
