import Mathlib.Data.List.Dedup
import Mathlib.Data.List.Induction
import Mathlib.Data.List.Pairwise
import RubyServer.Proofs.SettingsCache.Alignment

/-!
# What becomes of a request for settings

A cache is asked, told to forget and ended, windows close and answers arrive, all in any order (`Act`). What shows of
this is a list of events, the latest first (`Event`): requests are served at once or wait for a batch, batches are sent
and answered, and those who waited get their outcomes. A course is a cache with its events so far (`Course`).

The cache, which keeps no history, agrees with the events:

- it lets exactly those wait who have not got their outcome, each once (`Requests`);
- a batch lists what was asked for in its window, in the order of the first requests, is sent once and is in flight
  until it is answered (`Fetches`);
- an entry that is not stale joined its batch after its scope was last invalidated, and settings that are present were
  the last answer for such a scope (`AccountFor`).

What an act does to the requests and to the fetches is proved here, one kind of event at a time.
-/

namespace RubyServer.SettingsCache

/-! ## Acts and events -/

/-- What may be done to a cache, and what happens to it with time. -/
inductive Act where
  | get (scope : String) (due : Nat)
  | invalidate (scope : String)
  | invalidateAll
  | closeWindow (batch : Nat)
  | answer (batch : Nat) (response : Response)
  | shutdown

/-- What shows of an act. Requests are known by their numbers. -/
inductive Event where
  | served (who : Nat) (scope : String) (outcome : SettingsOutcome)
  | waits (who : Nat) (scope : String) (batch : Nat)
  | invalidated (scope : String)
  | invalidatedAll
  | sent (batch : Batch)
  | answered (batch : Batch) (response : Response)
  | resolved (who : Nat) (outcome : SettingsOutcome)
  | ended

/-- Answers to those who waited, as events. -/
def announce (answers : List (Nat × SettingsOutcome)) : List Event :=
  (answers.map fun a => .resolved a.1 a.2).reverse

/-- The cache after an act, and what shows of it, the latest first. A request has the number `n`. -/
def act (c : SettingsCache Nat) (n : Nat) : Act → SettingsCache Nat × List Event
  | .get scope due =>
    let (c', outcome) := c.get n scope due
    (c', outcome.toList.map (.served n scope) ++
      (c'.waiters.drop c.waiters.length).map fun w => .waits w.who w.scope w.batch)
  | .invalidate scope => (c.invalidate scope, [.invalidated scope])
  | .invalidateAll => (c.invalidateAll, [.invalidatedAll])
  | .closeWindow id =>
    let c' := c.closeWindow id
    (c', (c'.inFlight.drop c.inFlight.length).map .sent)
  | .answer id response =>
    let (c', answers) := c.answer id response
    (c', announce answers ++ (c.inFlight.find? fun b => b.id == id).toList.map fun batch => .answered batch response)
  | .shutdown =>
    let (c', answers) := c.shutdown
    (c', announce answers ++ [.ended])

/-- A cache with what showed of the acts so far, the latest first, and their number. -/
structure Course where
  cache : SettingsCache Nat := {}
  count : Nat := 0
  log : List Event := []

/-- The course after one more act. A request is known by the number of acts before it. -/
def Course.step (s : Course) (a : Act) : Course :=
  ⟨(s.cache.act s.count a).1, s.count + 1, (s.cache.act s.count a).2 ++ s.log⟩

/-- The course of a cache from its beginning. -/
def afterActs (acts : List Act) : Course := acts.foldl Course.step {}

/-! ## What the events say -/

def Event.waiter? : Event → Option (Waiter Nat)
  | .waits who scope batch => some ⟨batch, scope, who⟩
  | _ => none

def Event.resolution? : Event → Option (Nat × SettingsOutcome)
  | .resolved who outcome => some (who, outcome)
  | _ => none

/-- The requests that had to wait, the latest first. -/
def waiting (h : List Event) : List (Waiter Nat) := h.filterMap Event.waiter?

/-- The outcomes for those who waited, the latest first. -/
def resolutions (h : List Event) : List (Nat × SettingsOutcome) := h.filterMap Event.resolution?

/-- The scopes of the requests that wait for a batch, the latest first. -/
def requestsFor (b : Nat) (h : List Event) : List String :=
  ((waiting h).filter fun w => w.batch = b).map Waiter.scope

/-- The scopes that were asked for in the window of a batch, in the order of their first requests. -/
def requestedScopes (b : Nat) (h : List Event) : List String := (requestsFor b h).dedup.reverse

/-- An event after which the settings of a scope are no longer to be relied on. -/
def Event.Invalidates (scope : String) : Event → Prop
  | .invalidated scope' => scope' = scope
  | .invalidatedAll => True
  | _ => False

/-- The last answer to a batch that listed a scope. -/
def lastAnswer? (scope : String) : List Event → Option (Batch × Response)
  | [] => none
  | .answered batch response :: h => if scope ∈ batch.scopes then some (batch, response) else lastAnswer? scope h
  | _ :: h => lastAnswer? scope h

/-- A scope joined a batch, which was not sent yet, by its first request for it, and was not invalidated since. -/
def JoinedSince (scope : String) (b : Nat) (h : List Event) : Prop :=
  ∃ after who before, h = after ++ .waits who scope b :: before ∧ scope ∉ requestsFor b before ∧
    (∀ batch, .sent batch ∈ before → batch.id ≠ b) ∧ ∀ e ∈ after, ¬ e.Invalidates scope

/-- Settings for a scope are its last answer, from a batch that the scope joined after it was last invalidated. -/
def Supplied (scope : String) (settings : Settings) (h : List Event) : Prop :=
  ∃ batch response, lastAnswer? scope h = some (batch, response) ∧ (scope, .ok settings) ∈ settlement batch response ∧
    JoinedSince scope batch.id h

/-- What every event has to do with the events before it. -/
def Event.Regular (past : List Event) : Event → Prop
  | .served _ scope (.ok settings) => Supplied scope settings past ∧
      ∀ batch, .sent batch ∈ past → scope ∈ batch.scopes → ∃ response, .answered batch response ∈ past
  | .waits _ scope b => (∀ batch response, .answered batch response ∈ past → batch.id ≠ b) ∧
      ∀ batch, .sent batch ∈ past → scope ∈ batch.scopes → (∀ response, .answered batch response ∉ past) → batch.id = b
  | .sent batch => batch.scopes ≠ [] ∧ batch.scopes = requestedScopes batch.id past
  | _ => True

/-- Events that are regular, one by one. -/
def Regular : List Event → Prop
  | [] => True
  | e :: h => e.Regular h ∧ Regular h

variable {h later earlier : List Event} {e : Event} {scope : String} {b : Nat} {batch : Batch} {settings : Settings}

theorem Regular.at (hr : Regular (later ++ e :: earlier)) : e.Regular earlier := by
  induction later with
  | nil => exact hr.1
  | cons _ _ ih => exact ih hr.2

theorem mem_waiting {w : Waiter Nat} : w ∈ waiting h ↔ .waits w.who w.scope w.batch ∈ h := by
  unfold waiting
  rw [List.mem_filterMap]
  constructor
  · rintro ⟨e, he, hw⟩
    cases e <;> simp only [Event.waiter?, Option.some.injEq, reduceCtorEq] at hw
    subst hw
    exact he
  · exact fun hm => ⟨_, hm, rfl⟩

theorem mem_resolutions {a : Nat × SettingsOutcome} : a ∈ resolutions h ↔ .resolved a.1 a.2 ∈ h := by
  unfold resolutions
  rw [List.mem_filterMap]
  constructor
  · rintro ⟨e, he, ha⟩
    cases e <;> simp only [Event.resolution?, Option.some.injEq, reduceCtorEq] at ha
    subst ha
    exact he
  · exact fun hm => ⟨_, hm, rfl⟩

theorem mem_requestsFor : scope ∈ requestsFor b h ↔ ∃ w ∈ waiting h, w.batch = b ∧ w.scope = scope := by
  simp [requestsFor, and_assoc]

theorem lastAnswer?_cons (ha : ∀ batch response, e = .answered batch response → scope ∉ batch.scopes) :
    lastAnswer? scope (e :: h) = lastAnswer? scope h := by
  cases e with
  | answered batch response => exact if_neg (ha batch response rfl)
  | _ => rfl

theorem JoinedSince.cons (hj : JoinedSince scope b h) (he : ¬ e.Invalidates scope) : JoinedSince scope b (e :: h) := by
  obtain ⟨after, who, before, rfl, hnew, hsent, hafter⟩ := hj
  exact ⟨e :: after, who, before, rfl, hnew, hsent, List.forall_mem_cons.mpr ⟨he, hafter⟩⟩

/-- An entry that is not stale goes back to a request after the last invalidation of its scope. -/
def AccountFor (h : List Event) (scope : String) : Entry → Prop
  | .pending b stale => stale = false → JoinedSince scope b h
  | .present settings => Supplied scope settings h

theorem AccountFor.cons {entry : Entry} (ha : AccountFor h scope entry) (he : ¬ e.Invalidates scope)
    (hne : ∀ batch response, e = .answered batch response → scope ∉ batch.scopes) :
    AccountFor (e :: h) scope entry := by
  cases entry with
  | pending b stale => exact fun hs => (ha hs).cons he
  | present settings =>
    obtain ⟨batch, response, hl, hm, hj⟩ := ha
    exact ⟨batch, response, (lastAnswer?_cons hne).trans hl, hm, hj.cons he⟩

/-! ## The cache agrees with the events -/

variable {c c' : SettingsCache Nat} {n : Nat}

/-- What someone who waited may get: the outcome of their scope in the batch they waited for, or that there is none. -/
def WaiterOutcome (w : Waiter Nat) (outcome : SettingsOutcome) (h : List Event) : Prop :=
  outcome = .error .cancelled ∨ ∃ batch response, batch.id = w.batch ∧ .answered batch response ∈ h ∧
    (w.scope, outcome) ∈ settlement batch response

theorem WaiterOutcome.mono {w : Waiter Nat} {outcome : SettingsOutcome} {h' : List Event} (hsub : h ⊆ h')
    (ho : WaiterOutcome w outcome h) : WaiterOutcome w outcome h' := by
  rcases ho with hc | ⟨batch, response, hid, hans, hm⟩
  · exact Or.inl hc
  · exact Or.inr ⟨batch, response, hid, hsub hans, hm⟩

/-- Those wait who have not got their outcome, and nobody gets two. -/
structure Requests (c : SettingsCache Nat) (n : Nat) (h : List Event) : Prop where
  who_lt : ∀ w ∈ waiting h, w.who < n
  nodup_waiting : ((waiting h).map Waiter.who).Nodup
  waiters_eq : c.waiters = (waiting h).reverse.filter fun w => w.who ∉ (resolutions h).map Prod.fst
  nodup_resolutions : ((resolutions h).map Prod.fst).Nodup
  resolved : ∀ a ∈ resolutions h, ∃ w ∈ waiting h, w.who = a.1 ∧ WaiterOutcome w a.2 h

/-- Batches are numbered, filled, sent and answered in this order. -/
structure Fetches (c : SettingsCache Nat) (h : List Event) : Prop where
  batch_lt : ∀ w ∈ waiting h, w.batch < c.nextBatch
  sent_lt : ∀ batch, .sent batch ∈ h → batch.id < c.nextBatch
  sent_of_answered : ∀ batch response, .answered batch response ∈ h → .sent batch ∈ h
  openBatch : ∀ batch, c.openBatch = some batch →
    batch.scopes = requestedScopes batch.id h ∧ ∀ batch', .sent batch' ∈ h → batch'.id ≠ batch.id
  inFlight : ∀ batch ∈ c.inFlight, .sent batch ∈ h
  unanswered : ∀ batch ∈ c.batches, ∀ batch' response, .answered batch' response ∈ h → batch'.id ≠ batch.id
  inFlight_of_sent : c.shutDown = false → ∀ batch, .sent batch ∈ h → (∀ response, .answered batch response ∉ h) →
    batch ∈ c.inFlight

/-- The cache agrees with the events so far. -/
structure Explained (c : SettingsCache Nat) (n : Nat) (h : List Event) : Prop where
  aligned : Aligned c
  requests : Requests c n h
  fetches : Fetches c h
  entries : ∀ scope entry, c.entries.get? scope = some entry → AccountFor h scope entry
  regular : Regular h

theorem explained_empty : Explained {} 0 [] where
  aligned := aligned_empty
  requests := by constructor <;> simp [waiting, resolutions]
  fetches := by constructor <;> simp [waiting, batches]
  entries := fun scope entry he => by cases he
  regular := trivial

/-! ## Requests -/

section Requests

variable {h' : List Event} (hr : Requests c n h)

include hr

theorem Requests.nodup_waiters : (c.waiters.map Waiter.who).Nodup := by
  rw [hr.waiters_eq]
  have hn := hr.nodup_waiting
  rw [← List.nodup_reverse, ← List.map_reverse] at hn
  exact (List.filter_sublist.map _).nodup hn

theorem Requests.mem_waiters {w : Waiter Nat} :
    w ∈ c.waiters ↔ w ∈ waiting h ∧ w.who ∉ (resolutions h).map Prod.fst := by
  rw [hr.waiters_eq, List.mem_filter, List.mem_reverse, decide_eq_true_iff]

/-- Events that are not about those who wait. -/
theorem Requests.of_same (hsub : h ⊆ h') (hwaiting : waiting h' = waiting h) (hres : resolutions h' = resolutions h)
    (hwaiters : c'.waiters = c.waiters) : Requests c' (n + 1) h' where
  who_lt := by
    rw [hwaiting]
    exact fun w hw => Nat.lt_succ_of_lt (hr.who_lt w hw)
  nodup_waiting := by rw [hwaiting]; exact hr.nodup_waiting
  waiters_eq := by rw [hwaiting, hres, hwaiters]; exact hr.waiters_eq
  nodup_resolutions := by rw [hres]; exact hr.nodup_resolutions
  resolved := by
    rw [hwaiting, hres]
    intro a ha
    obtain ⟨w, hw, hwho, ho⟩ := hr.resolved a ha
    exact ⟨w, hw, hwho, ho.mono hsub⟩

theorem Requests.waits (hwaiters : c'.waiters = c.waiters ++ [⟨b, scope, n⟩]) :
    Requests c' (n + 1) (.waits n scope b :: h) := by
  have hnew : n ∉ (waiting h).map Waiter.who := by
    intro hm
    obtain ⟨w, hw, rfl⟩ := List.mem_map.mp hm
    exact absurd (hr.who_lt w hw) (Nat.lt_irrefl _)
  have hunresolved : n ∉ (resolutions h).map Prod.fst := by
    intro hm
    obtain ⟨a, ha, rfl⟩ := List.mem_map.mp hm
    obtain ⟨w, hw, hwho, -⟩ := hr.resolved a ha
    exact hnew (List.mem_map.mpr ⟨w, hw, hwho⟩)
  have hwaiting : waiting (.waits n scope b :: h) = ⟨b, scope, n⟩ :: waiting h := rfl
  have hres : resolutions (.waits n scope b :: h) = resolutions h := rfl
  refine ⟨?_, ?_, ?_, hr.nodup_resolutions, ?_⟩
  · rw [hwaiting]
    intro w hw
    rcases List.mem_cons.mp hw with rfl | hw
    · exact Nat.lt_succ_self n
    · exact Nat.lt_succ_of_lt (hr.who_lt w hw)
  · rw [hwaiting, List.map_cons]
    exact List.nodup_cons.mpr ⟨hnew, hr.nodup_waiting⟩
  · have hkeep : decide (n ∉ (resolutions h).map Prod.fst) = true := decide_eq_true hunresolved
    rw [hwaiting, hres, hwaiters, List.reverse_cons, List.filter_append, List.filter_singleton, hkeep, ← hr.waiters_eq]
    rfl
  · rw [hwaiting, hres]
    intro a ha
    obtain ⟨w, hw, hwho, ho⟩ := hr.resolved a ha
    exact ⟨w, List.mem_cons_of_mem _ hw, hwho, ho.mono (List.subset_cons_self _ h)⟩

/-- The waiters that satisfy `p` get their outcomes, and leave. -/
theorem Requests.resolve {p : Waiter Nat → Bool} {answers : List (Nat × SettingsOutcome)} (hsub : h ⊆ h')
    (hwaiting : waiting h' = waiting h) (hres : resolutions h' = answers.reverse ++ resolutions h)
    (hwaiters : c'.waiters = c.waiters.filter fun w => !p w) (hnodup : (answers.map Prod.fst).Nodup)
    (hall : ∀ w ∈ c.waiters, p w = true → w.who ∈ answers.map Prod.fst)
    (hfrom : ∀ a ∈ answers, ∃ w ∈ c.waiters, p w = true ∧ w.who = a.1 ∧ WaiterOutcome w a.2 h') :
    Requests c' (n + 1) h' := by
  have hnew : ∀ who ∈ answers.map Prod.fst, who ∉ (resolutions h).map Prod.fst := by
    intro who hm
    obtain ⟨a, ha, rfl⟩ := List.mem_map.mp hm
    obtain ⟨w, hw, -, hwho, -⟩ := hfrom a ha
    exact hwho ▸ (hr.mem_waiters.mp hw).2
  have hmap : (resolutions h').map Prod.fst = (answers.map Prod.fst).reverse ++ (resolutions h).map Prod.fst := by
    rw [hres, List.map_append, List.map_reverse]
  refine ⟨?_, ?_, ?_, ?_, ?_⟩
  · rw [hwaiting]
    exact fun w hw => Nat.lt_succ_of_lt (hr.who_lt w hw)
  · rw [hwaiting]
    exact hr.nodup_waiting
  · -- of those without an outcome so far, the ones with a new outcome are those that satisfy `p`
    rw [hwaiting, hwaiters, hmap, hr.waiters_eq, List.filter_filter]
    apply List.filter_congr
    intro w hw
    by_cases hold : w.who ∈ (resolutions h).map Prod.fst
    · simp [hold]
    · have hmem : w ∈ c.waiters := hr.mem_waiters.mpr ⟨List.mem_reverse.mp hw, hold⟩
      have hiff : p w = true ↔ w.who ∈ answers.map Prod.fst := by
        refine ⟨hall w hmem, ?_⟩
        intro hm
        obtain ⟨a, ha, he⟩ := List.mem_map.mp hm
        obtain ⟨w', hw', hp, hwho, -⟩ := hfrom a ha
        have hsame : w' = w := List.inj_on_of_nodup_map hr.nodup_waiters hw' hmem (hwho.trans he)
        exact hsame ▸ hp
      cases hp : p w with
      | true =>
        have hm := hiff.mp hp
        simp only [List.mem_append, List.mem_reverse, hm, true_or, not_true_eq_false, decide_false, Bool.not_true,
          Bool.false_and]
      | false =>
        have hm : w.who ∉ answers.map Prod.fst := fun hm => by simp [hiff.mpr hm] at hp
        simp only [List.mem_append, List.mem_reverse, hm, hold, or_self, not_false_eq_true, decide_true, Bool.not_false,
          Bool.and_self]
  · rw [hmap]
    refine List.nodup_append.mpr ⟨List.nodup_reverse.mpr hnodup, hr.nodup_resolutions, ?_⟩
    rintro who hm who' hm' rfl
    exact hnew who (List.mem_reverse.mp hm) hm'
  · rw [hwaiting, hres]
    intro a ha
    rcases List.mem_append.mp ha with ha | ha
    · obtain ⟨w, hw, -, hwho, ho⟩ := hfrom a (List.mem_reverse.mp ha)
      exact ⟨w, (hr.mem_waiters.mp hw).1, hwho, ho⟩
    · obtain ⟨w, hw, hwho, ho⟩ := hr.resolved a ha
      exact ⟨w, hw, hwho, ho.mono hsub⟩

end Requests

/-! ## Outcomes as events -/

section Announce

variable {answers : List (Nat × SettingsOutcome)} {response : Response}

theorem announce_cons (a : Nat × SettingsOutcome) :
    announce (a :: answers) ++ h = announce answers ++ .resolved a.1 a.2 :: h := by
  simp [announce]

theorem waiting_announce : waiting (announce answers ++ h) = waiting h := by
  induction answers generalizing h with
  | nil => rfl
  | cons a answers ih => rw [announce_cons, ih]; rfl

theorem resolutions_announce : resolutions (announce answers ++ h) = answers.reverse ++ resolutions h := by
  induction answers generalizing h with
  | nil => rfl
  | cons a answers ih =>
    have hcons : resolutions (.resolved a.1 a.2 :: h) = a :: resolutions h := rfl
    rw [announce_cons, ih, hcons, List.reverse_cons, List.append_assoc]
    rfl

theorem sent_mem_announce : .sent batch ∈ announce answers ++ h ↔ .sent batch ∈ h := by
  induction answers generalizing h with
  | nil => rfl
  | cons a answers ih => rw [announce_cons, ih]; simp

theorem answered_mem_announce : .answered batch response ∈ announce answers ++ h ↔ .answered batch response ∈ h := by
  induction answers generalizing h with
  | nil => rfl
  | cons a answers ih => rw [announce_cons, ih]; simp

theorem Regular.announce (hr : Regular h) : Regular (announce answers ++ h) := by
  induction answers generalizing h with
  | nil => exact hr
  | cons a answers ih =>
    rw [announce_cons]
    exact ih ⟨trivial, hr⟩

theorem AccountFor.announce {entry : Entry} (ha : AccountFor h scope entry) :
    AccountFor (announce answers ++ h) scope entry := by
  induction answers generalizing h with
  | nil => exact ha
  | cons a answers ih =>
    rw [announce_cons]
    exact ih (ha.cons id fun _ _ he => by cases he)

end Announce

/-! ## Fetches -/

section Fetches

variable {h' : List Event} (ha : Aligned c) (hf : Fetches c h)

theorem requestsFor_waits (b' : Nat) : requestsFor b' (.waits n scope b :: h) =
    if b = b' then scope :: requestsFor b' h else requestsFor b' h := by
  have hwaiting : waiting (.waits n scope b :: h) = ⟨b, scope, n⟩ :: waiting h := rfl
  rw [requestsFor, hwaiting, List.filter_cons]
  by_cases hb : b = b'
  · simp [requestsFor, hb]
  · simp [requestsFor, hb]

theorem mem_requestedScopes : scope ∈ requestedScopes b h ↔ scope ∈ requestsFor b h := by
  rw [requestedScopes, List.mem_reverse, List.mem_dedup]

include hf

/-- Events that are not about batches. -/
theorem Fetches.of_same (hwaiting : waiting h' = waiting h) (hsent : ∀ batch, .sent batch ∈ h' ↔ .sent batch ∈ h)
    (hanswered : ∀ batch response, .answered batch response ∈ h' ↔ .answered batch response ∈ h) : Fetches c h' where
  batch_lt := by rw [hwaiting]; exact hf.batch_lt
  sent_lt := fun batch hb => hf.sent_lt batch ((hsent batch).mp hb)
  sent_of_answered := fun batch response hb =>
    (hsent batch).mpr (hf.sent_of_answered batch response ((hanswered batch response).mp hb))
  openBatch := by
    intro batch ho
    obtain ⟨hscopes, hunsent⟩ := hf.openBatch batch ho
    refine ⟨?_, fun batch' hb => hunsent batch' ((hsent batch').mp hb)⟩
    rw [requestedScopes, requestsFor, hwaiting]
    exact hscopes
  inFlight := fun batch hb => (hsent batch).mpr (hf.inFlight batch hb)
  unanswered := fun batch hb batch' response hb' => hf.unanswered batch hb batch' response ((hanswered _ _).mp hb')
  inFlight_of_sent := fun hup batch hb hnot =>
    hf.inFlight_of_sent hup batch ((hsent batch).mp hb) fun response hm => hnot response ((hanswered _ _).mpr hm)

theorem Fetches.of_cache (hopen : c'.openBatch = c.openBatch) (hin : c'.inFlight = c.inFlight)
    (hnext : c'.nextBatch = c.nextBatch) (hdown : c'.shutDown = c.shutDown) : Fetches c' h where
  batch_lt := by rw [hnext]; exact hf.batch_lt
  sent_lt := by rw [hnext]; exact hf.sent_lt
  sent_of_answered := hf.sent_of_answered
  openBatch := by rw [hopen]; exact hf.openBatch
  inFlight := by rw [hin]; exact hf.inFlight
  unanswered := by rw [batches, hin, hopen]; exact hf.unanswered
  inFlight_of_sent := by rw [hdown, hin]; exact hf.inFlight_of_sent

/-- The window that absent scopes join holds what was asked for in it, and was not sent. -/
theorem Fetches.window (due : Nat) : (c.window due).scopes = requestedScopes (c.window due).id h ∧
    ∀ batch', .sent batch' ∈ h → batch'.id ≠ (c.window due).id := by
  unfold SettingsCache.window
  cases ho : c.openBatch with
  | some batch => exact hf.openBatch batch ho
  | none =>
    have hnone : requestsFor c.nextBatch h = [] := by
      rw [List.eq_nil_iff_forall_not_mem]
      intro scope hm
      obtain ⟨w, hw, hid, -⟩ := mem_requestsFor.mp hm
      exact absurd (hf.batch_lt w hw) (by omega)
    refine ⟨?_, fun batch' hb => Nat.ne_of_lt (hf.sent_lt batch' hb)⟩
    simp [requestedScopes, hnone]

include ha

/-- An absent scope is new to the window. -/
theorem Fetches.notMem_window (due : Nat) (hnone : c.entries.get? scope = none) :
    scope ∉ requestsFor (c.window due).id h := by
  rw [← mem_requestedScopes, ← (hf.window due).1]
  intro hm
  have hlisted : scope ∈ c.batches.flatMap Batch.scopes := by
    rw [flatMap_scopes_batches c due]
    exact List.mem_append_right _ hm
  obtain ⟨batch, hb, hs⟩ := List.mem_flatMap.mp hlisted
  obtain ⟨stale, he⟩ := (ha.pendingIn_iff batch.id scope).mpr ⟨batch, hb, rfl, hs⟩
  rw [hnone] at he
  cases he

theorem Fetches.waits (hp : c.PendingIn b scope) : Fetches c (.waits n scope b :: h) := by
  obtain ⟨batch₀, hb₀, rfl, hs⟩ := (ha.pendingIn_iff b scope).mp hp
  refine ⟨?_, ?_, ?_, ?_, ?_, ?_, ?_⟩
  · intro w hw
    rcases List.mem_cons.mp (show w ∈ _ :: waiting h from hw) with rfl | hw
    · exact ha.id_lt batch₀ hb₀
    · exact hf.batch_lt w hw
  · simpa using hf.sent_lt
  · simpa using hf.sent_of_answered
  · intro batch ho
    obtain ⟨hscopes, hunsent⟩ := hf.openBatch batch ho
    refine ⟨?_, by simpa using hunsent⟩
    rw [requestedScopes, requestsFor_waits]
    split
    · next hid =>
      -- the window has the scope already
      have hsame : batch₀ = batch := ha.eq_of_id hb₀ (by simp [batches, ho]) hid
      have hmem : scope ∈ requestsFor batch.id h := by
        rw [← mem_requestedScopes, ← hscopes, ← hsame]
        exact hs
      rw [List.dedup_cons_of_mem hmem]
      exact hscopes
    · exact hscopes
  · simpa using hf.inFlight
  · simpa using hf.unanswered
  · simpa using hf.inFlight_of_sent

theorem Fetches.enlist (due : Nat) (hnone : c.entries.get? scope = none) :
    Fetches (c.enlist scope due) (.waits n scope (c.window due).id :: h) := by
  obtain ⟨hscopes, hunsent⟩ := hf.window due
  have hle := nextBatch_le_enlist c scope due
  refine ⟨?_, ?_, ?_, ?_, ?_, ?_, ?_⟩
  · intro w hw
    rcases List.mem_cons.mp (show w ∈ _ :: waiting h from hw) with rfl | hw
    · exact ha.window_lt due
    · exact Nat.lt_of_lt_of_le (hf.batch_lt w hw) hle
  · intro batch hb
    have hb : .sent batch ∈ h := by simpa using hb
    exact Nat.lt_of_lt_of_le (hf.sent_lt batch hb) hle
  · simpa using hf.sent_of_answered
  · intro batch ho
    rw [openBatch_enlist] at ho
    cases ho
    refine ⟨?_, by simpa using hunsent⟩
    rw [requestedScopes, requestsFor_waits, if_pos rfl,
      List.dedup_cons_of_notMem (hf.notMem_window ha due hnone), List.reverse_cons, hscopes]
    rfl
  · intro batch hb
    rw [inFlight_enlist] at hb
    exact List.mem_cons_of_mem _ (hf.inFlight batch hb)
  · intro batch hb batch' response hans
    have hans : .answered batch' response ∈ h := by simpa using hans
    rw [batches_enlist, List.mem_append, List.mem_singleton] at hb
    rcases hb with hb | rfl
    · exact hf.unanswered batch (List.mem_append_left _ hb) batch' response hans
    · exact hunsent batch' (hf.sent_of_answered batch' response hans)
  · intro hup batch hb hnot
    rw [shutDown_enlist] at hup
    have hb : .sent batch ∈ h := by simpa using hb
    rw [inFlight_enlist]
    exact hf.inFlight_of_sent hup batch hb (by simpa using hnot)

theorem Fetches.closeWindow (ho : c.openBatch = some batch) :
    Fetches { c with openBatch := none, inFlight := c.inFlight ++ [batch], fetches := c.fetches + 1 }
      (.sent batch :: h) := by
  have hbatches : c.batches = c.inFlight ++ [batch] := by simp [batches, ho]
  refine ⟨hf.batch_lt, ?_, ?_, ?_, ?_, ?_, ?_⟩
  · intro batch' hb
    rcases List.mem_cons.mp hb with e | hb
    · cases e
      exact ha.id_lt batch (by simp [hbatches])
    · exact hf.sent_lt batch' hb
  · intro batch' response hans
    have hans : .answered batch' response ∈ h := by simpa using hans
    exact List.mem_cons_of_mem _ (hf.sent_of_answered batch' response hans)
  · intro batch' ho'
    cases ho'
  · intro batch' hb
    rcases List.mem_append.mp hb with hb | hb
    · exact List.mem_cons_of_mem _ (hf.inFlight batch' hb)
    · rw [List.mem_singleton.mp hb]
      exact List.mem_cons_self
  · intro batch' hb batch'' response hans
    have hb : batch' ∈ c.batches := by rw [hbatches]; simpa [batches] using hb
    exact hf.unanswered batch' hb batch'' response (by simpa using hans)
  · intro hup batch' hb hnot
    rcases List.mem_cons.mp hb with e | hb
    · cases e
      exact List.mem_append_right _ (List.mem_singleton.mpr rfl)
    · exact List.mem_append_left _ (hf.inFlight_of_sent hup batch' hb (by simpa using hnot))

theorem Fetches.answer (hb : batch ∈ c.inFlight) (response : Response) :
    Fetches (c.answer batch.id response).1 (.answered batch response :: h) := by
  have hbatches := ha.batches_answer hb response
  rw [ha.answer_eq hb] at hbatches ⊢
  refine ⟨hf.batch_lt, ?_, ?_, ?_, ?_, ?_, ?_⟩
  · simpa using hf.sent_lt
  · intro batch' response' hans
    refine List.mem_cons_of_mem _ ?_
    rcases List.mem_cons.mp hans with e | hans
    · cases e
      exact hf.inFlight batch hb
    · exact hf.sent_of_answered batch' response' hans
  · intro batch' ho
    obtain ⟨hscopes, hunsent⟩ := hf.openBatch batch' ho
    exact ⟨hscopes, by simpa using hunsent⟩
  · intro batch' hb'
    exact List.mem_cons_of_mem _ (hf.inFlight batch' (List.mem_of_mem_filter hb'))
  · intro batch' hb' batch'' response' hans
    rw [hbatches, List.mem_filter, bne_iff_ne] at hb'
    rcases List.mem_cons.mp hans with e | hans
    · cases e
      exact Ne.symm hb'.2
    · exact hf.unanswered batch' hb'.1 batch'' response' hans
  · intro hup batch' hb' hnot
    have hb' : .sent batch' ∈ h := by simpa using hb'
    have hin := hf.inFlight_of_sent hup batch' hb' fun response' hm => hnot response' (List.mem_cons_of_mem _ hm)
    refine List.mem_filter.mpr ⟨hin, bne_iff_ne.mpr ?_⟩
    intro hid
    have hsame := ha.eq_of_id (List.mem_append_left _ hin) (List.mem_append_left _ hb) hid
    exact hnot response (hsame ▸ List.mem_cons_self)

omit ha in
theorem Fetches.ended (hopen : c'.openBatch = none) (hin : c'.inFlight = []) (hnext : c'.nextBatch = c.nextBatch)
    (hend : c'.shutDown = true) : Fetches c' h := by
  refine ⟨by rw [hnext]; exact hf.batch_lt, by rw [hnext]; exact hf.sent_lt, hf.sent_of_answered, ?_, ?_, ?_, ?_⟩
  · simp [hopen]
  · simp [hin]
  · simp [batches, hin, hopen]
  · simp [hend]

end Fetches

end RubyServer.SettingsCache
