import RubyServer.Proofs.SettingsCache.Consistency

/-!
# Every request gets its own answer, once

When a batch is answered with one value per scope, everyone who waits for one of its scopes gets what the value in the
place of that scope reads as, or hears that this scope's settings are invalid. When the answer is an error, or has the
wrong number of values, everyone who waits for the batch hears of that. Nobody gets a second outcome, whatever happens
before or later, and the rest of the cache is left alone (`outcomesFor_answer`).
-/

namespace RubyServer.SettingsCache

variable {h : List Event} {batch : Batch} {scope : String} {who : Nat} {outcome : SettingsOutcome} {acts : List Act}

/-! ## The outcomes of a request -/

/-- The outcome that an event brings a request. -/
def Event.outcomeFor? (who : Nat) : Event → Option SettingsOutcome
  | .served who' _ outcome => if who' = who then some outcome else none
  | .resolved who' outcome => if who' = who then some outcome else none
  | _ => none

/-- The outcomes that a request got, at once or after it waited. -/
def outcomesFor (who : Nat) (h : List Event) : List SettingsOutcome := h.filterMap (Event.outcomeFor? who)

theorem Event.outcomeFor?_eq_none {e : Event} (hserved : ∀ scope outcome, e ≠ .served who scope outcome)
    (hresolved : ∀ outcome, e ≠ .resolved who outcome) : e.outcomeFor? who = none := by
  cases e with
  | served who' scope outcome =>
    refine if_neg ?_
    rintro rfl
    exact hserved _ _ rfl
  | resolved who' outcome =>
    refine if_neg ?_
    rintro rfl
    exact hresolved _ rfl
  | _ => rfl

theorem outcomesFor_eq_nil (hserved : ∀ scope outcome, .served who scope outcome ∉ h)
    (hresolved : ∀ outcome, .resolved who outcome ∉ h) : outcomesFor who h = [] := by
  rw [outcomesFor, List.filterMap_eq_nil_iff]
  intro e he
  apply Event.outcomeFor?_eq_none
  · rintro scope outcome rfl
    exact hserved _ _ he
  · rintro outcome rfl
    exact hresolved _ he

/-- A request that was not served at once has a single outcome once it is resolved. -/
theorem outcomesFor_eq_singleton (hserved : ∀ scope outcome, .served who scope outcome ∉ h)
    (hn : ((resolutions h).map Prod.fst).Nodup) (hm : .resolved who outcome ∈ h) : outcomesFor who h = [outcome] := by
  induction h with
  | nil => cases hm
  | cons e h ih =>
    have hserved' : ∀ scope outcome, .served who scope outcome ∉ h :=
      fun scope outcome hs => hserved scope outcome (List.mem_cons_of_mem _ hs)
    rcases List.mem_cons.mp hm with rfl | hm'
    · have hn' : who ∉ (resolutions h).map Prod.fst ∧ ((resolutions h).map Prod.fst).Nodup := List.nodup_cons.mp hn
      have hrest : outcomesFor who h = [] := by
        refine outcomesFor_eq_nil hserved' fun outcome hr => hn'.1 ?_
        exact List.mem_map.mpr ⟨(who, outcome), mem_resolutions.mpr hr, rfl⟩
      have hself : (Event.resolved who outcome).outcomeFor? who = some outcome := if_pos rfl
      rw [outcomesFor, List.filterMap_cons_some hself]
      exact congrArg _ hrest
    · have hnone : e.outcomeFor? who = none := by
        apply Event.outcomeFor?_eq_none
        · rintro scope outcome rfl
          exact hserved _ _ List.mem_cons_self
        · rintro outcome' rfl
          exact (List.nodup_cons.mp hn).1 (List.mem_map.mpr ⟨(_, outcome), mem_resolutions.mpr hm', rfl⟩)
      rw [outcomesFor, List.filterMap_cons_none hnone]
      refine ih hserved' ?_ hm'
      cases e with
      | resolved who' outcome' => exact (List.nodup_cons.mp hn).2
      | _ => exact hn

theorem log_afterActs_append (acts later : List Act) :
    ∃ new, (afterActs (acts ++ later)).log = new ++ (afterActs acts).log := by
  induction later using List.reverseRecOn with
  | nil => exact ⟨[], by simp⟩
  | append_singleton later a ih =>
    obtain ⟨new, hnew⟩ := ih
    rw [← List.append_assoc, afterActs_concat]
    exact ⟨_ ++ new, by rw [List.append_assoc, ← hnew]; rfl⟩

/-- The outcome of a request that waited is the only one for good. -/
theorem outcomesFor_append {b : Nat} (hw : .waits who scope b ∈ (afterActs acts).log)
    (hm : .resolved who outcome ∈ (afterActs acts).log) (later : List Act) :
    outcomesFor who (afterActs (acts ++ later)).log = [outcome] := by
  obtain ⟨new, hlog⟩ := log_afterActs_append acts later
  have hn := (explained_afterActs (acts ++ later)).requests.nodup_resolutions
  refine outcomesFor_eq_singleton ?_ hn ?_
  · intro scope' outcome'
    have hw' : .waits who scope b ∈ (afterActs (acts ++ later)).log := by
      rw [hlog]
      exact List.mem_append_right _ hw
    exact not_served_of_waits hw' scope' outcome'
  · rw [hlog]
    exact List.mem_append_right _ hm

/-! ## The outcome of a scope -/

theorem mem_settlement_values {values : List Json} {i : Nat} {value : Json} (hlen : values.length = batch.scopes.length)
    (hs : batch.scopes[i]? = some scope) (hv : values[i]? = some value) :
    (scope, outcomeOf scope value) ∈ settlement batch (.values values) := by
  have hout : outcomes batch.scopes (.values values) = List.zipWith outcomeOf batch.scopes values := if_pos hlen
  apply List.mem_of_getElem? (i := i)
  rw [settlement, hout, List.getElem?_zip_eq_some]
  exact ⟨hs, List.getElem?_zipWith_eq_some.mpr ⟨scope, value, hs, hv, rfl⟩⟩

/-- The error that a response is for all scopes of a batch. -/
def FailsWhole (batch : Batch) (error : FetchError) : Response → Prop
  | .failed error' => error' = error
  | .values values => values.length ≠ batch.scopes.length ∧ error = .lengthMismatch batch.scopes.length values.length

theorem mem_settlement_of_fails {error : FetchError} {response : Response} (hf : FailsWhole batch error response)
    (hs : scope ∈ batch.scopes) : (scope, .error error) ∈ settlement batch response := by
  have hout : outcomes batch.scopes response = batch.scopes.map fun _ => .error error := by
    cases response with
    | values values =>
      obtain ⟨hlen, rfl⟩ := hf
      exact if_neg hlen
    | failed error' =>
      obtain rfl : error' = error := hf
      rfl
  obtain ⟨outcome, hm⟩ := exists_settlement response hs
  have he : outcome ∈ outcomes batch.scopes response := (List.of_mem_zip hm).2
  rw [hout] at he
  obtain ⟨-, -, rfl⟩ := List.mem_map.mp he
  exact hm

/-! ## Answers to a batch in flight -/

section InFlight

variable (hb : batch ∈ (afterActs acts).cache.inFlight) (response : Response)

include hb

theorem log_answer :
    (afterActs (acts ++ [.answer batch.id response])).log =
      announce ((afterActs acts).cache.answer batch.id response).2 ++
        .answered batch response :: (afterActs acts).log := by
  have hf := (explained_afterActs acts).aligned.find?_inFlight hb
  rw [afterActs_concat]
  show ((afterActs acts).cache.act _ _).2 ++ _ = _
  simp only [act, hf, Option.toList_some, List.map_singleton, List.append_assoc, List.singleton_append]

/-- Whoever waits for a scope of the batch gets the outcome of that scope, and no other one ever. -/
theorem outcomesFor_of_settlement (hw : ⟨batch.id, scope, who⟩ ∈ (afterActs acts).cache.waiters)
    (hm : (scope, outcome) ∈ settlement batch response) (later : List Act) :
    outcomesFor who (afterActs (acts ++ .answer batch.id response :: later)).log = [outcome] := by
  have hx := explained_afterActs acts
  have hwaits : .waits who scope batch.id ∈ (afterActs acts).log :=
    mem_waiting.mp (hx.requests.mem_waiters.mp hw).1
  have hanswer : (who, outcome) ∈ ((afterActs acts).cache.answer batch.id response).2 :=
    (hx.aligned.mem_answers hb response).mpr ⟨_, hw, rfl, rfl, hm⟩
  have hlog := log_answer hb response
  have hwaits' : .waits who scope batch.id ∈ (afterActs (acts ++ [.answer batch.id response])).log := by
    rw [hlog]
    exact List.mem_append_right _ (List.mem_cons_of_mem _ hwaits)
  have hresolved : .resolved who outcome ∈ (afterActs (acts ++ [.answer batch.id response])).log := by
    rw [hlog]
    exact List.mem_append_left _ (List.mem_reverse.mpr (List.mem_map.mpr ⟨_, hanswer, rfl⟩))
  rw [List.append_cons]
  exact outcomesFor_append hwaits' hresolved later

/-- An answer is none of the others' business. -/
theorem outcomesFor_of_notMem (hw : ∀ scope, ⟨batch.id, scope, who⟩ ∉ (afterActs acts).cache.waiters) :
    outcomesFor who (afterActs (acts ++ [.answer batch.id response])).log = outcomesFor who (afterActs acts).log := by
  have hnone : outcomesFor who (announce ((afterActs acts).cache.answer batch.id response).2) = [] := by
    apply outcomesFor_eq_nil
    · intro scope outcome hs
      obtain ⟨a, -, he⟩ := List.mem_map.mp (List.mem_reverse.mp hs)
      cases he
    · intro outcome hr
      obtain ⟨a, ha, he⟩ := List.mem_map.mp (List.mem_reverse.mp hr)
      cases he
      obtain ⟨w, hmem, hid, hwho, -⟩ := ((explained_afterActs acts).aligned.mem_answers hb response).mp ha
      obtain ⟨_, scope, _⟩ := w
      subst hid hwho
      exact hw scope hmem
  rw [log_answer hb, outcomesFor, List.filterMap_append]
  exact (congrArg (· ++ _) hnone).trans (List.nil_append _)

theorem mem_scopes_of_waiter (hw : ⟨batch.id, scope, who⟩ ∈ (afterActs acts).cache.waiters) : scope ∈ batch.scopes := by
  have ha := (explained_afterActs acts).aligned
  obtain ⟨batch', hb', hid, hs⟩ := (ha.pendingIn_iff _ _).mp (ha.waiting _ hw)
  rwa [ha.eq_of_id hb' (List.mem_append_left _ hb) hid] at hs

/-- An error for the whole batch leaves all of its scopes absent. -/
theorem state_of_fails {error : FetchError} (hf : FailsWhole batch error response) (hs : scope ∈ batch.scopes) :
    ((afterActs acts).cache.answer batch.id response).1.state scope = .absent := by
  obtain ⟨stale, -, he⟩ :=
    (explained_afterActs acts).aligned.get?_answer_of_mem hb response (mem_settlement_of_fails hf hs)
  rw [state, he]
  rfl

end InFlight

/-- **Every request gets its own answer, once.** Let a batch in flight be answered. If there is a value for each of its
scopes, then whoever waits for a scope gets what the value in its place reads as, or hears that the settings of this
scope are invalid; and only settings that can be read, and were not invalidated meanwhile, are kept. If the answer fails
for the whole batch, by itself or for the number of its values, then everyone who waits for the batch hears why, and its
scopes are absent. Whatever is done later, nobody gets a second outcome. The others who wait, the other scopes and the
other batches stay as they are, and nobody waits for the batch any longer. -/
theorem outcomesFor_answer (acts : List Act) {batch : Batch} (hb : batch ∈ (afterActs acts).cache.inFlight)
    (response : Response) :
    let cache := (afterActs acts).cache
    let cache' := (afterActs (acts ++ [.answer batch.id response])).cache
    (∀ (values : List Json) (i : Nat) (scope : String) (value : Json), response = .values values →
      values.length = batch.scopes.length → batch.scopes[i]? = some scope → values[i]? = some value →
      (∀ who later, ⟨batch.id, scope, who⟩ ∈ cache.waiters →
        outcomesFor who (afterActs (acts ++ .answer batch.id response :: later)).log =
          [match Settings.read? value with
            | some settings => .ok settings
            | none => .error (.invalidSettings scope)]) ∧
      ∃ stale, cache.entries.get? scope = some (.pending batch.id stale) ∧
        cache'.entries.get? scope = if stale then none else (Settings.read? value).map .present) ∧
    (∀ error, FailsWhole batch error response →
      (∀ scope who later, ⟨batch.id, scope, who⟩ ∈ cache.waiters →
        outcomesFor who (afterActs (acts ++ .answer batch.id response :: later)).log = [.error error]) ∧
      ∀ scope ∈ batch.scopes, cache'.state scope = .absent) ∧
    (∀ who, (∀ scope, ⟨batch.id, scope, who⟩ ∉ cache.waiters) →
      outcomesFor who (afterActs (acts ++ [.answer batch.id response])).log = outcomesFor who (afterActs acts).log) ∧
    (∀ scope, scope ∉ batch.scopes → cache'.entries.get? scope = cache.entries.get? scope) ∧
    cache'.openBatch = cache.openBatch ∧ cache'.inFlight = cache.inFlight.filter (fun b => b.id != batch.id) ∧
    cache'.waiters = cache.waiters.filter fun w => w.batch != batch.id := by
  intro cache cache'
  have ha := (explained_afterActs acts).aligned
  have hcache : cache' = (cache.answer batch.id response).1 := by
    show (afterActs (acts ++ [.answer batch.id response])).cache = _
    rw [afterActs_concat]
    rfl
  refine ⟨?_, ?_, fun who => outcomesFor_of_notMem hb response, ?_, ?_, ?_, ?_⟩
  · rintro values i scope value rfl hlen hs hv
    have hm := mem_settlement_values hlen hs hv
    refine ⟨fun who later hw => outcomesFor_of_settlement hb _ hw hm later, ?_⟩
    obtain ⟨stale, hold, hnew⟩ := ha.get?_answer_of_mem hb _ hm
    refine ⟨stale, hold, ?_⟩
    rw [hcache, hnew, outcomeOf]
    cases stale <;> cases Settings.read? value <;> rfl
  · intro error hf
    refine ⟨?_, ?_⟩
    · intro scope who later hw
      exact outcomesFor_of_settlement hb _ hw (mem_settlement_of_fails hf (mem_scopes_of_waiter hb hw)) later
    · rw [hcache]
      exact fun scope hs => state_of_fails hb response hf hs
  · rw [hcache]
    exact fun scope hs => ha.get?_answer_of_notMem hb response hs
  · rw [hcache, ha.answer_eq hb]
  · rw [hcache, ha.answer_eq hb]
  · rw [hcache, ha.answer_eq hb]

/-- Three requests share a batch of two scopes, of which one gets settings that cannot be read. -/
theorem outcomesFor_answer_two_scopes :
    let acts : List Act := [.get "a" 50, .get "b" 50, .get "a" 50, .closeWindow 1]
    let answer : Act := .answer 1 (.values [.obj [("lineLength", .int 80)], .obj [("lineLength", .str "wide")]])
    ⟨1, ["a", "b"], 50⟩ ∈ (afterActs acts).cache.inFlight ∧
    outcomesFor 0 (afterActs (acts ++ [answer, .shutdown])).log = [.ok { lineLength := some 80 }] ∧
    outcomesFor 1 (afterActs (acts ++ [answer, .shutdown])).log = [.error (.invalidSettings "b")] ∧
    outcomesFor 2 (afterActs (acts ++ [answer, .shutdown])).log = [.ok { lineLength := some 80 }] := by
  intro acts answer
  have hb : ⟨1, ["a", "b"], 50⟩ ∈ (afterActs acts).cache.inFlight := by decide
  obtain ⟨hvalues, -⟩ := outcomesFor_answer acts hb
    (.values [.obj [("lineLength", .int 80)], .obj [("lineLength", .str "wide")]])
  have ha := (hvalues _ 0 "a" _ rfl rfl rfl rfl).1
  have hb' := (hvalues _ 1 "b" _ rfl rfl rfl rfl).1
  exact ⟨hb, ha 0 [.shutdown] (by decide), hb' 1 [.shutdown] (by decide), ha 2 [.shutdown] (by decide)⟩

end RubyServer.SettingsCache
