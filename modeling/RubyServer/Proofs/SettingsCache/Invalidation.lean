import RubyServer.Proofs.SettingsCache.Answers

/-!
# Requests after an invalidation

A request that gets settings gets them from a fetch: from the one that it waited for, or, when it is served at once, from
the last one that was answered for its scope (`SuppliedBy`). Settings of a fetch that was sent before their scope was
invalidated are out of date (`Outdated`). They are not kept, so that nobody is served with them. But a request that is
made while such a fetch is still under way waits for it, since a scope is fetched once at a time, and so gets what is
out of date (`not_upToDate_in_flight`). That is the only way to get it (`outdated_only_in_flight`).
-/

namespace RubyServer.SettingsCache

variable {h past : List Event} {e : Event} {who b : Nat} {scope : String} {settings : Settings} {batch : Batch}
  {acts : List Act}

/-- A batch without an answer so far. -/
def AwaitsAnswer (batch : Batch) (h : List Event) : Prop := .sent batch ∈ h ∧ ∀ response, .answered batch response ∉ h

/-- The fetch that the settings of a request come from, with what there was before the request. -/
inductive SuppliedBy (h : List Event) (who : Nat) (scope : String) (settings : Settings) (batch : Batch)
    (past : List Event) : Prop
  | served {response : Response} (hnow : .served who scope (.ok settings) :: past <:+ h)
      (hlast : lastAnswer? scope past = some (batch, response))
      (hvalue : (scope, .ok settings) ∈ settlement batch response)
  | waited {response : Response} (hnow : .waits who scope batch.id :: past <:+ h)
      (hresolved : .resolved who (.ok settings) ∈ h) (hanswered : .answered batch response ∈ h)
      (hvalue : (scope, .ok settings) ∈ settlement batch response)

/-- A batch that was sent before a scope was invalidated. -/
def Outdated (scope : String) (batch : Batch) (past : List Event) : Prop :=
  ∃ e before, e :: before <:+ past ∧ e.Invalidates scope ∧ .sent batch ∈ before

/-- No request is given settings of a batch that was sent before their scope was invalidated, which was before the
request. -/
def UpToDate (h : List Event) : Prop :=
  ∀ who scope settings batch past, SuppliedBy h who scope settings batch past → ¬ Outdated scope batch past

theorem Regular.of_suffix (hr : Regular h) (hs : e :: past <:+ h) : e.Regular past := by
  obtain ⟨later, rfl⟩ := hs
  exact hr.at

theorem exists_suffix (he : e ∈ h) : ∃ past, e :: past <:+ h := by
  obtain ⟨later, past, rfl⟩ := List.append_of_mem he
  exact ⟨past, List.suffix_append _ _⟩

/-- A batch that a scope joined after it was last invalidated is not out of date. -/
theorem JoinedSince.not_outdated (hj : JoinedSince scope batch.id past) : ¬ Outdated scope batch past := by
  obtain ⟨after, who, before, rfl, -, hsent, hafter⟩ := hj
  rintro ⟨e, earlier, ⟨mid, heq⟩, hinv, hmem⟩
  have hne : e ≠ .waits who scope batch.id := by
    rintro rfl
    exact hinv
  -- the invalidation is not among what came after the request, so the batch was sent before it
  rcases List.append_eq_append_iff.mp heq with ⟨t, rfl, ht⟩ | ⟨t, rfl, ht⟩
  · cases t with
    | nil => exact hne (List.cons.inj ht).1
    | cons e' t =>
      obtain ⟨rfl, rfl⟩ := List.cons.inj ht
      exact hafter e (by simp) hinv
  · cases t with
    | nil => exact hne (List.cons.inj ht).1.symm
    | cons e' t =>
      obtain ⟨rfl, rfl⟩ := List.cons.inj ht
      exact hsent batch (by simp [hmem]) rfl

/-! ## The fetch that a request is supplied by -/

/-- Every request that gets settings gets them from a fetch. -/
theorem exists_suppliedBy {due : Nat} (hget : acts[who]? = some (.get scope due))
    (hok : .ok settings ∈ outcomesFor who (afterActs acts).log) :
    ∃ batch past, SuppliedBy (afterActs acts).log who scope settings batch past := by
  have hx := explained_afterActs acts
  have hscope : ∀ {e scope'}, e ∈ (afterActs acts).log → e.request? = some (who, scope') → scope' = scope := by
    intro e scope' he hr
    obtain ⟨due', hget'⟩ := get_of_request? he hr
    rw [hget] at hget'
    cases hget'
    rfl
  obtain ⟨e, he, hout⟩ := List.mem_filterMap.mp hok
  cases e <;> simp only [Event.outcomeFor?, Option.ite_none_right_eq_some, Option.some.injEq, reduceCtorEq] at hout
  case served who' scope' outcome =>
    obtain ⟨rfl, rfl⟩ := hout
    obtain rfl := hscope he rfl
    obtain ⟨past, hs⟩ := exists_suffix he
    obtain ⟨⟨batch, response, hlast, hvalue, -⟩, -⟩ := hx.regular.of_suffix hs
    exact ⟨batch, past, .served hs hlast hvalue⟩
  case resolved who' outcome =>
    obtain ⟨rfl, rfl⟩ := hout
    obtain ⟨w, hw, hwho, hc | ⟨batch, response, hid, hans, hm⟩⟩ :=
      hx.requests.resolved (_, .ok settings) (mem_resolutions.mpr he)
    · cases hc
    · rw [mem_waiting, hwho, ← hid] at hw
      obtain rfl := hscope hw rfl
      obtain ⟨past, hs⟩ := exists_suffix hw
      exact ⟨batch, past, .waited hs he hans hm⟩

/-- Settings that are out of date come from a fetch that was not answered before the request. -/
theorem SuppliedBy.unanswered (hs : SuppliedBy (afterActs acts).log who scope settings batch past)
    (hout : Outdated scope batch past) (response : Response) : .answered batch response ∉ past := by
  have hr := (explained_afterActs acts).regular
  cases hs with
  | served hnow hlast hvalue =>
    obtain ⟨⟨batch', response', hlast', -, hj⟩, -⟩ := hr.of_suffix hnow
    rw [hlast] at hlast'
    cases hlast'
    exact absurd hout hj.not_outdated
  | waited hnow hresolved hanswered hvalue =>
    intro hans
    exact (hr.of_suffix hnow).1 batch response hans rfl

/-- A request that is made while its scope is being fetched gets its settings from that fetch. -/
theorem SuppliedBy.id_eq {batch' : Batch} (hs : SuppliedBy (afterActs acts).log who scope settings batch past)
    (hawait : AwaitsAnswer batch' past) (hscope : scope ∈ batch'.scopes) : batch.id = batch'.id := by
  have hr := (explained_afterActs acts).regular
  cases hs with
  | served hnow hlast hvalue =>
    obtain ⟨response, hans⟩ := (hr.of_suffix hnow).2 batch' hawait.1 hscope
    exact absurd hans (hawait.2 response)
  | waited hnow hresolved hanswered hvalue =>
    exact ((hr.of_suffix hnow).2 batch' hawait.1 hscope hawait.2).symm

theorem Outdated.sent (hout : Outdated scope batch past) : .sent batch ∈ past := by
  obtain ⟨e, before, hs, -, hm⟩ := hout
  exact hs.subset (List.mem_cons_of_mem _ hm)

/-- **Only requests that wait for a fetch under way get settings that are out of date.** A request that gets settings
gets them from a fetch. If its scope was invalidated before the request and this fetch was sent before that, then the
fetch was still without an answer when the request was made. And a request that is made while its scope is being fetched
gets its settings from that very fetch. -/
theorem outdated_only_in_flight (acts : List Act) {who due : Nat} {scope : String} {settings : Settings}
    (hget : acts[who]? = some (.get scope due)) (hok : .ok settings ∈ outcomesFor who (afterActs acts).log) :
    (∃ batch past, SuppliedBy (afterActs acts).log who scope settings batch past) ∧
    ∀ batch past, SuppliedBy (afterActs acts).log who scope settings batch past →
      (Outdated scope batch past → AwaitsAnswer batch past) ∧
      ∀ batch', AwaitsAnswer batch' past → scope ∈ batch'.scopes → batch.id = batch'.id := by
  refine ⟨exists_suppliedBy hget hok, fun batch past hs => ⟨?_, ?_⟩⟩
  · exact fun hout => ⟨hout.sent, hs.unanswered hout⟩
  · exact fun batch' hawait hscope => hs.id_eq hawait hscope

/-! ## A request that joins a fetch which is out of date -/

/-- A scope is invalidated while it is fetched, and asked for again before the answer. -/
def joinedLate : List Act :=
  [.get "a" 50, .closeWindow 1, .invalidate "a", .get "a" 110, .answer 1 (.values [.obj [("lineLength", .int 70)]])]

/-- What there was before the second request. -/
def beforeJoining : List Event := [.invalidated "a", .sent ⟨1, ["a"], 50⟩, .waits 0 "a" 1]

theorem suppliedBy_joinedLate :
    SuppliedBy (afterActs joinedLate).log 3 "a" { lineLength := some 70 } ⟨1, ["a"], 50⟩ beforeJoining := by
  have hvalue : ("a", .ok { lineLength := some 70 }) ∈
      settlement ⟨1, ["a"], 50⟩ (.values [.obj [("lineLength", .int 70)]]) := List.mem_singleton.mpr rfl
  refine .waited ⟨_, rfl⟩ ?_ ?_ hvalue
  · exact List.mem_cons_self
  · exact List.mem_cons_of_mem _ (List.mem_cons_of_mem _ List.mem_cons_self)

theorem outdated_beforeJoining : Outdated "a" ⟨1, ["a"], 50⟩ beforeJoining :=
  ⟨.invalidated "a", _, List.suffix_rfl, rfl, List.mem_cons_self⟩

/-- Settings that are out of date are given away. -/
theorem not_upToDate_in_flight : ¬ UpToDate (afterActs joinedLate).log :=
  fun hup => hup 3 "a" _ _ _ suppliedBy_joinedLate outdated_beforeJoining

/-- The request that gets them was made while their fetch was under way. -/
theorem outdated_only_in_flight_joinedLate :
    joinedLate[3]? = some (.get "a" 110) ∧
    .ok { lineLength := some 70 } ∈ outcomesFor 3 (afterActs joinedLate).log ∧
    Outdated "a" ⟨1, ["a"], 50⟩ beforeJoining ∧ AwaitsAnswer ⟨1, ["a"], 50⟩ beforeJoining := by
  have hget : joinedLate[3]? = some (.get "a" 110) := rfl
  have hok : .ok { lineLength := some 70 } ∈ outcomesFor 3 (afterActs joinedLate).log := List.mem_cons_self
  have honly := (outdated_only_in_flight joinedLate hget hok).2 _ _ suppliedBy_joinedLate
  exact ⟨hget, hok, outdated_beforeJoining, honly.1 outdated_beforeJoining⟩

end RubyServer.SettingsCache
