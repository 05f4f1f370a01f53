import RubyServer.Proofs.SettingsCache.History

/-!
# Entries, batches, waiters and fetches at every moment

Every act keeps the cache in agreement with the events (`Explained.act`), so it agrees with them after any acts
(`explained_afterActs`). A request shows when it is made and only then (`filterMap_request?_log`), which tells what the
cache has to do with the requests among the acts: those are registered that have got no answer (`mem_waiters_iff`).
-/

namespace RubyServer.SettingsCache

variable {c c' : SettingsCache Nat} {n b : Nat} {h : List Event} {e : Event} {scope : String} {batch : Batch}

/-! ## Every act keeps the agreement -/

/-- An event that is neither about a batch nor about someone who waits. -/
structure Event.Quiet (e : Event) : Prop where
  waiter : e.waiter? = none
  resolution : e.resolution? = none
  sent : ∀ batch, .sent batch ≠ e
  answered : ∀ batch response, .answered batch response ≠ e

section Explained

variable (hx : Explained c n h)

include hx

/-- A fetch under way has its scopes pending. -/
theorem Explained.pendingIn_of_sent (hup : c.shutDown = false) (hsent : .sent batch ∈ h) (hs : scope ∈ batch.scopes)
    (hnot : ∀ response, .answered batch response ∉ h) : c.PendingIn batch.id scope := by
  have hb := hx.fetches.inFlight_of_sent hup batch hsent hnot
  exact (hx.aligned.pendingIn_iff _ _).mpr ⟨batch, List.mem_append_left _ hb, rfl, hs⟩

/-- A quiet event at which the cache forgets the scopes that the event invalidates. -/
theorem Explained.quiet (hq : e.Quiet) (hfg : Forgets (fun scope => e.Invalidates scope) c c') (hreg : e.Regular h) :
    Explained c' (n + 1) (e :: h) := by
  have hwaiting : waiting (e :: h) = waiting h := List.filterMap_cons_none hq.waiter
  have hres : resolutions (e :: h) = resolutions h := List.filterMap_cons_none hq.resolution
  have hwaiters : c'.waiters = c.waiters := by rw [hfg.frame]
  have hfetches : Fetches c (e :: h) := by
    refine hx.fetches.of_same hwaiting ?_ ?_
    · simp [hq.sent]
    · simp [hq.answered]
  refine ⟨hx.aligned.forgets hfg, hx.requests.of_same (List.subset_cons_self e h) hwaiting hres hwaiters, ?_, ?_,
    hreg, hx.regular⟩
  · refine hfetches.of_cache ?_ ?_ ?_ ?_ <;> rw [hfg.frame]
  · intro scope entry he
    by_cases hi : e.Invalidates scope
    · -- what is left of the entry is stale
      rw [hfg.forgotten scope hi] at he
      obtain ⟨entry', -, hforgotten⟩ := Option.bind_eq_some_iff.mp he
      cases entry' with
      | pending b stale =>
        cases hforgotten
        exact fun hs => by cases hs
      | present settings => cases hforgotten
    · rw [hfg.kept scope hi] at he
      exact (hx.entries scope entry he).cons hi fun batch response ha => absurd ha.symm (hq.answered batch response)

theorem Explained.served {outcome : SettingsOutcome} (hreg : (Event.served n scope outcome).Regular h) :
    Explained c (n + 1) (.served n scope outcome :: h) :=
  hx.quiet ⟨rfl, rfl, by simp, by simp⟩ ⟨rfl, fun _ hi => hi.elim, fun _ _ => rfl⟩ hreg

theorem Explained.waits {stale : Bool} (hup : c.shutDown = false) (he : c.entries.get? scope = some (.pending b stale)) :
    Explained (c.wait b scope n) (n + 1) (.waits n scope b :: h) := by
  have hp : c.PendingIn b scope := ⟨stale, he⟩
  refine ⟨hx.aligned.wait hp, hx.requests.waits rfl, (hx.fetches.waits hx.aligned hp).of_cache rfl rfl rfl rfl, ?_,
    ⟨?_, ?_⟩, hx.regular⟩
  · intro scope' entry he'
    exact (hx.entries scope' entry he').cons id fun _ _ ha => by cases ha
  · intro batch response hans
    obtain ⟨batch₀, hb₀, rfl, -⟩ := (hx.aligned.pendingIn_iff _ _).mp hp
    exact hx.fetches.unanswered batch₀ hb₀ batch response hans
  · intro batch hsent hs hnot
    exact (hx.pendingIn_of_sent hup hsent hs hnot).eq hp

theorem Explained.enlist (hup : c.shutDown = false) (hnone : c.entries.get? scope = none) (due : Nat) :
    Explained ((c.enlist scope due).wait (c.window due).id scope n) (n + 1)
      (.waits n scope (c.window due).id :: h) := by
  obtain ⟨-, hunsent⟩ := hx.fetches.window due
  have hp : (c.enlist scope due).PendingIn (c.window due).id scope := ⟨false, by rw [get?_enlist, if_pos rfl]⟩
  refine ⟨(hx.aligned.enlist due hnone).wait hp, hx.requests.waits ?_,
    (hx.fetches.enlist hx.aligned due hnone).of_cache rfl rfl rfl rfl, ?_, ⟨?_, ?_⟩, hx.regular⟩
  · show (c.enlist scope due).waiters ++ _ = _
    rw [waiters_enlist]
  · intro scope' entry hentry
    have he : (c.enlist scope due).entries.get? scope' = some entry := hentry
    rw [get?_enlist] at he
    split at he
    · next hs =>
      subst hs
      obtain rfl := Option.some.inj he
      exact fun _ => ⟨[], n, h, rfl, hx.fetches.notMem_window hx.aligned due hnone, hunsent, by simp⟩
    · exact (hx.entries scope' entry he).cons id fun _ _ ha => by cases ha
  · intro batch response hans
    exact hunsent batch (hx.fetches.sent_of_answered batch response hans)
  · intro batch hsent hs hnot
    obtain ⟨stale, he⟩ := hx.pendingIn_of_sent hup hsent hs hnot
    rw [hnone] at he
    cases he

theorem Explained.get (scope : String) (due : Nat) :
    Explained (c.act n (.get scope due)).1 (n + 1) ((c.act n (.get scope due)).2 ++ h) := by
  simp only [act]
  rcases get_cases c n scope due with ⟨-, he⟩ | ⟨hup, settings, hpresent, he⟩ | ⟨hup, b, stale, hpending, he⟩ |
    ⟨hup, hnone, he⟩
  · have hreg : (Event.served n scope (.error .cancelled)).Regular h := trivial
    rw [he]
    simpa using hx.served hreg
  · have hreg : (Event.served n scope (.ok settings)).Regular h := by
      refine ⟨hx.entries scope _ hpresent, ?_⟩
      intro batch hsent hs
      by_contra hnot
      obtain ⟨stale, hpending⟩ := hx.pendingIn_of_sent hup hsent hs (not_exists.mp hnot)
      rw [hpresent] at hpending
      cases hpending
    rw [he]
    simpa using hx.served hreg
  · rw [he]
    simpa [wait] using hx.waits hup hpending
  · have hnew := hx.enlist hup hnone due
    have hlen : (c.enlist scope due).waiters.length = c.waiters.length := by rw [waiters_enlist]
    rw [he]
    simpa [wait, ← hlen] using hnew

theorem Explained.closeWindow (b : Nat) :
    Explained (c.act n (.closeWindow b)).1 (n + 1) ((c.act n (.closeWindow b)).2 ++ h) := by
  simp only [act]
  rcases closeWindow_cases c b with he | ⟨batch, ho, -, he⟩
  · rw [he, List.drop_length]
    refine ⟨hx.aligned, ?_, hx.fetches, hx.entries, hx.regular⟩
    exact hx.requests.of_same (List.Subset.refl h) rfl rfl rfl
  · have ha := hx.aligned.closeWindow b
    rw [he] at ha ⊢
    rw [List.drop_left]
    refine ⟨ha, ?_, hx.fetches.closeWindow hx.aligned ho, ?_, ⟨?_, ?_⟩, hx.regular⟩
    · exact hx.requests.of_same (List.subset_cons_self _ h) rfl rfl rfl
    · intro scope entry hentry
      exact (hx.entries scope entry hentry).cons id fun _ _ ha => by cases ha
    · exact hx.aligned.scopes_ne_nil batch (by simp [batches, ho])
    · exact (hx.fetches.openBatch batch ho).1

theorem Explained.answer (b : Nat) (response : Response) :
    Explained (c.act n (.answer b response)).1 (n + 1) ((c.act n (.answer b response)).2 ++ h) := by
  simp only [act]
  rcases answer_cases c b response with ⟨hf, he⟩ | ⟨batch, hb, rfl, hf⟩
  · rw [he, hf]
    refine ⟨hx.aligned, ?_, hx.fetches, hx.entries, hx.regular⟩
    exact hx.requests.of_same (List.Subset.refl h) rfl rfl rfl
  · rw [hf, Option.toList_some, List.map_singleton, List.append_assoc, List.singleton_append]
    have hwaiting : waiting (.answered batch response :: h) = waiting h := rfl
    have hres : resolutions (.answered batch response :: h) = resolutions h := rfl
    refine ⟨hx.aligned.answer hb response, ?_, ?_, ?_, Regular.announce ⟨trivial, hx.regular⟩⟩
    · apply hx.requests.resolve (p := fun w => w.batch == batch.id)
      · exact List.Subset.trans (List.subset_cons_self _ h) (List.subset_append_right _ _)
      · rw [waiting_announce, hwaiting]
      · rw [resolutions_announce, hres]
      · rw [hx.aligned.answer_eq hb]
        rfl
      · exact hx.aligned.nodup_answers hb response hx.requests.nodup_waiters
      · intro w hw hid
        obtain ⟨outcome, hm⟩ := hx.aligned.exists_answer hb response hw (by simpa using hid)
        exact List.mem_map.mpr ⟨_, hm, rfl⟩
      · rintro ⟨who, outcome⟩ hm
        obtain ⟨w, hw, hid, hwho, hs⟩ := (hx.aligned.mem_answers hb response).mp hm
        refine ⟨w, hw, by simpa using hid, hwho, Or.inr ⟨batch, response, hid.symm, ?_, hs⟩⟩
        exact answered_mem_announce.mpr List.mem_cons_self
    · refine (hx.fetches.answer hx.aligned hb response).of_same waiting_announce ?_ ?_
      · exact fun _ => sent_mem_announce
      · exact fun _ _ => answered_mem_announce
    · intro scope entry he
      apply AccountFor.announce
      by_cases hs : scope ∈ batch.scopes
      · -- only settings that are not stale are kept, and they are the last answer from now on
        obtain ⟨outcome, hm⟩ := exists_settlement response hs
        obtain ⟨stale, hold, hnew⟩ := hx.aligned.get?_answer_of_mem hb response hm
        rw [hnew] at he
        cases outcome with
        | error error => cases he
        | ok settings =>
          cases stale with
          | true => cases he
          | false =>
            cases he
            have hj : JoinedSince scope batch.id h := hx.entries scope _ hold rfl
            exact ⟨batch, response, if_pos hs, hm, hj.cons id⟩
      · rw [hx.aligned.get?_answer_of_notMem hb response hs] at he
        exact (hx.entries scope entry he).cons id fun _ _ ha => by cases ha; exact hs

theorem Explained.shutdown : Explained (c.act n .shutdown).1 (n + 1) ((c.act n .shutdown).2 ++ h) := by
  have ha := hx.aligned.shutdown
  have hq : Event.ended.Quiet := ⟨rfl, rfl, by simp, by simp⟩
  have hended : Explained c (n + 1) (.ended :: h) :=
    hx.quiet hq ⟨rfl, fun _ hi => hi.elim, fun _ _ => rfl⟩ trivial
  simp only [act]
  rcases shutdown_cases c with ⟨-, he⟩ | ⟨-, he⟩
  · rw [he]
    exact hended
  · rw [he] at ha ⊢
    rw [List.append_assoc, List.singleton_append]
    refine ⟨ha, ?_, ?_, ?_, hended.regular.announce⟩
    · apply hx.requests.resolve (p := fun _ => true)
      · exact List.Subset.trans (List.subset_cons_self _ h) (List.subset_append_right _ _)
      · rw [waiting_announce]
        rfl
      · rw [resolutions_announce]
        rfl
      · simp
      · rw [List.map_map]
        exact hx.requests.nodup_waiters
      · intro w hw _
        exact List.mem_map.mpr ⟨_, List.mem_map.mpr ⟨w, hw, rfl⟩, rfl⟩
      · intro a hm
        obtain ⟨w, hw, rfl⟩ := List.mem_map.mp hm
        exact ⟨w, hw, rfl, rfl, Or.inl rfl⟩
    · have hfetches : Fetches c (announce (c.waiters.map fun w => (w.who, .error .cancelled)) ++ .ended :: h) :=
        hended.fetches.of_same waiting_announce (fun _ => sent_mem_announce) fun _ _ => answered_mem_announce
      exact hfetches.ended rfl rfl rfl rfl
    · intro scope entry hentry
      cases hentry

/-- An act keeps the cache in agreement with the events. -/
theorem Explained.act (a : Act) : Explained (c.act n a).1 (n + 1) ((c.act n a).2 ++ h) := by
  cases a with
  | get scope due => exact hx.get scope due
  | invalidate scope => exact hx.quiet ⟨rfl, rfl, by simp, by simp⟩ (forgets_invalidate c scope) trivial
  | invalidateAll => exact hx.quiet ⟨rfl, rfl, by simp, by simp⟩ (forgets_invalidateAll c) trivial
  | closeWindow id => exact hx.closeWindow id
  | answer id response => exact hx.answer id response
  | shutdown => exact hx.shutdown

end Explained

theorem afterActs_concat (acts : List Act) (a : Act) : afterActs (acts ++ [a]) = (afterActs acts).step a :=
  List.foldl_concat _ _ _ _

theorem count_afterActs (acts : List Act) : (afterActs acts).count = acts.length := by
  induction acts using List.reverseRecOn with
  | nil => rfl
  | append_singleton acts a ih =>
    rw [afterActs_concat, List.length_append, ← ih]
    rfl

/-- **The cache agrees with the events, whatever was done to it.** -/
theorem explained_afterActs (acts : List Act) :
    Explained (afterActs acts).cache acts.length (afterActs acts).log := by
  rw [← count_afterActs]
  unfold afterActs
  apply List.foldlRecOn (motive := fun s : Course => Explained s.cache s.count s.log)
  · exact explained_empty
  · intro s hx a _
    exact hx.act a

/-! ## Every request shows -/

/-- A request shows when it is made: it is served at once, or waits. -/
theorem events_get (c : SettingsCache Nat) (n : Nat) (scope : String) (due : Nat) :
    (∃ outcome, (c.act n (.get scope due)).2 = [.served n scope outcome]) ∨
    ∃ b, (c.act n (.get scope due)).2 = [.waits n scope b] := by
  simp only [act]
  rcases get_cases c n scope due with ⟨-, he⟩ | ⟨-, settings, -, he⟩ | ⟨-, b, stale, -, he⟩ | ⟨-, -, he⟩
  · exact Or.inl ⟨.error .cancelled, by rw [he]; simp⟩
  · exact Or.inl ⟨.ok settings, by rw [he]; simp⟩
  · exact Or.inr ⟨b, by rw [he]; simp [wait]⟩
  · have hlen : c.waiters.length = (c.enlist scope due).waiters.length := by rw [waiters_enlist]
    exact Or.inr ⟨(c.window due).id, by rw [he, hlen]; simp [wait]⟩

/-- The request that an event is about when it is made. -/
def Event.request? : Event → Option (Nat × String)
  | .served who scope _ => some (who, scope)
  | .waits who scope _ => some (who, scope)
  | _ => none

/-- No other act shows like a request. -/
theorem request?_events {a : Act} (ha : ∀ scope due, a ≠ .get scope due) (he : e ∈ (c.act n a).2) :
    e.request? = none := by
  cases a with
  | get scope due => exact absurd rfl (ha scope due)
  | invalidate scope => simp [act] at he; subst he; rfl
  | invalidateAll => simp [act] at he; subst he; rfl
  | closeWindow b =>
    obtain ⟨batch, -, rfl⟩ := List.mem_map.mp he
    rfl
  | answer b response =>
    rcases List.mem_append.mp he with he | he
    · simp only [announce, List.mem_reverse, List.mem_map] at he
      obtain ⟨a, -, rfl⟩ := he
      rfl
    · obtain ⟨batch, -, rfl⟩ := List.mem_map.mp he
      rfl
  | shutdown =>
    rcases List.mem_append.mp he with he | he
    · simp only [announce, List.mem_reverse, List.mem_map] at he
      obtain ⟨a, -, rfl⟩ := he
      rfl
    · rw [List.mem_singleton.mp he]
      rfl

/-- The request that an act is, with its number. -/
def Act.request? (n : Nat) : Act → Option (Nat × String)
  | .get scope _ => some (n, scope)
  | _ => none

/-- The requests among the acts, with their numbers. -/
def requested (acts : List Act) : List (Nat × String) := acts.zipIdx.filterMap fun a => a.1.request? a.2

theorem requested_concat (acts : List Act) (a : Act) :
    requested (acts ++ [a]) = requested acts ++ (a.request? acts.length).toList := by
  rw [requested, List.zipIdx_append, List.filterMap_append]
  cases h : a.request? acts.length <;> simp [requested, h]

theorem mem_requested {acts : List Act} {k : Nat} :
    (k, scope) ∈ requested acts ↔ ∃ due, acts[k]? = some (.get scope due) := by
  rw [requested, List.mem_filterMap]
  constructor
  · rintro ⟨⟨a, k'⟩, hm, he⟩
    rw [List.mk_mem_zipIdx_iff_getElem?] at hm
    cases a <;> simp only [Act.request?, Option.some.injEq, Prod.mk.injEq, reduceCtorEq] at he
    obtain ⟨rfl, rfl⟩ := he
    exact ⟨_, hm⟩
  · rintro ⟨due, hk⟩
    exact ⟨(.get scope due, k), List.mk_mem_zipIdx_iff_getElem?.mpr hk, rfl⟩

theorem nodup_requested (acts : List Act) : ((requested acts).map Prod.fst).Nodup := by
  induction acts using List.reverseRecOn with
  | nil => exact List.nodup_nil
  | append_singleton acts a ih =>
    rw [requested_concat, List.map_append]
    refine List.nodup_append.mpr ⟨ih, by cases a.request? acts.length <;> simp, ?_⟩
    -- the numbers so far are smaller
    rintro k hk k' hk' rfl
    obtain ⟨⟨k, scope⟩, hm, rfl⟩ := List.mem_map.mp hk
    obtain ⟨due, hget⟩ := mem_requested.mp hm
    have hlt : k < acts.length := (List.getElem?_eq_some_iff.mp hget).1
    cases a <;> simp [Act.request?] at hk'
    omega

/-- Every request shows once, when it is made. -/
theorem filterMap_request?_log (acts : List Act) :
    (afterActs acts).log.reverse.filterMap Event.request? = requested acts := by
  induction acts using List.reverseRecOn with
  | nil => rfl
  | append_singleton acts a ih =>
    have hlog : (afterActs (acts ++ [a])).log =
        ((afterActs acts).cache.act acts.length a).2 ++ (afterActs acts).log := by
      rw [afterActs_concat, ← count_afterActs]
      rfl
    rw [hlog, List.reverse_append, List.filterMap_append, ih, requested_concat]
    congr 1
    by_cases ha : ∃ scope due, a = .get scope due
    · obtain ⟨scope, due, rfl⟩ := ha
      rcases events_get (afterActs acts).cache acts.length scope due with ⟨outcome, he⟩ | ⟨b, he⟩
      · rw [he]
        rfl
      · rw [he]
        rfl
    · have hnone : a.request? acts.length = none := by
        cases a with
        | get scope due => exact absurd ⟨scope, due, rfl⟩ ha
        | _ => rfl
      rw [hnone, List.filterMap_eq_nil_iff.mpr]
      · rfl
      · intro e he
        exact request?_events (fun scope due h => ha ⟨scope, due, h⟩) (List.mem_reverse.mp he)

theorem get_of_request? {acts : List Act} {who : Nat} (he : e ∈ (afterActs acts).log)
    (hr : e.request? = some (who, scope)) : ∃ due, acts[who]? = some (.get scope due) := by
  rw [← mem_requested, ← filterMap_request?_log]
  exact List.mem_filterMap.mpr ⟨e, List.mem_reverse.mpr he, hr⟩

/-- A request that waits was not served at once. -/
theorem not_served_of_waits {acts : List Act} {who : Nat} (hw : .waits who scope b ∈ (afterActs acts).log)
    (scope' : String) (outcome : SettingsOutcome) : .served who scope' outcome ∉ (afterActs acts).log := by
  intro hs
  have hn := nodup_requested acts
  rw [← filterMap_request?_log, List.nodup_iff_pairwise_ne, List.pairwise_map, List.pairwise_filterMap] at hn
  have : Std.Symm fun e e' : Event => ∀ r, e.request? = some r → ∀ r', e'.request? = some r' → r.1 ≠ r'.1 :=
    ⟨fun e e' he r hr r' hr' => (he r' hr' r hr).symm⟩
  have hne := hn.forall (List.mem_reverse.mpr hw) (List.mem_reverse.mpr hs) (by simp)
  exact hne (who, scope) rfl (who, scope') rfl rfl

/-- A request among the acts that has got no answer. -/
def Unanswered (acts : List Act) (who : Nat) (scope : String) : Prop :=
  (∃ due, acts[who]? = some (.get scope due)) ∧ ∀ outcome,
    .served who scope outcome ∉ (afterActs acts).log ∧ .resolved who outcome ∉ (afterActs acts).log

theorem unanswered_iff {acts : List Act} {who : Nat} : Unanswered acts who scope ↔
    (∃ b, .waits who scope b ∈ (afterActs acts).log) ∧ ∀ outcome, .resolved who outcome ∉ (afterActs acts).log := by
  unfold Unanswered
  rw [← mem_requested, ← filterMap_request?_log, List.mem_filterMap]
  constructor
  · rintro ⟨⟨e, he, hr⟩, hno⟩
    refine ⟨?_, fun outcome => (hno outcome).2⟩
    cases e <;> simp only [Event.request?, Option.some.injEq, Prod.mk.injEq, reduceCtorEq] at hr
    · obtain ⟨rfl, rfl⟩ := hr
      exact absurd (List.mem_reverse.mp he) (hno _).1
    · obtain ⟨rfl, rfl⟩ := hr
      exact ⟨_, List.mem_reverse.mp he⟩
  · rintro ⟨⟨b, hw⟩, hno⟩
    exact ⟨⟨_, List.mem_reverse.mpr hw, rfl⟩, fun outcome => ⟨not_served_of_waits hw _ outcome, hno outcome⟩⟩

/-- Those are registered who wait and have no outcome. -/
theorem mem_waiters_iff_waits {acts : List Act} {who : Nat} : ⟨b, scope, who⟩ ∈ (afterActs acts).cache.waiters ↔
    .waits who scope b ∈ (afterActs acts).log ∧ ∀ outcome, .resolved who outcome ∉ (afterActs acts).log := by
  rw [(explained_afterActs acts).requests.mem_waiters, mem_waiting]
  simp [mem_resolutions]

theorem mem_waiters_iff {acts : List Act} {who : Nat} : ⟨b, scope, who⟩ ∈ (afterActs acts).cache.waiters ↔
    Unanswered acts who scope ∧ (afterActs acts).cache.PendingIn b scope := by
  have ha := (explained_afterActs acts).aligned
  rw [unanswered_iff]
  constructor
  · intro hw
    obtain ⟨hwaits, hno⟩ := mem_waiters_iff_waits.mp hw
    exact ⟨⟨⟨b, hwaits⟩, hno⟩, ha.waiting _ hw⟩
  · rintro ⟨⟨⟨b', hwaits⟩, hno⟩, hp⟩
    have hw := mem_waiters_iff_waits.mpr ⟨hwaits, hno⟩
    obtain rfl : b' = b := (ha.waiting _ hw).eq hp
    exact hw

/-- **Entries, batches, waiters and fetches fit at every moment.** Whatever was done to a cache: no scope is listed twice
among the batches that are open or in flight; an entry is pending in a batch exactly if such a batch lists its scope; the
scope of a request without an answer is pending, and the requests that are registered, each once and under the batch that
their scope is pending in, are the ones without an answer; every fetch has scopes, none of them twice, in the order in
which they were first asked for in its window; and settings are present only if they are the answer to a batch that the
scope joined after it was last invalidated. -/
theorem consistent_afterActs (acts : List Act) :
    ((afterActs acts).cache.batches.flatMap Batch.scopes).Nodup ∧
    (∀ b scope, (∃ stale, (afterActs acts).cache.entries.get? scope = some (.pending b stale)) ↔
      ∃ batch ∈ (afterActs acts).cache.batches, batch.id = b ∧ scope ∈ batch.scopes) ∧
    (∀ who scope, Unanswered acts who scope → ∃ b, (afterActs acts).cache.PendingIn b scope) ∧
    (∀ b scope who, ⟨b, scope, who⟩ ∈ (afterActs acts).cache.waiters ↔
      Unanswered acts who scope ∧ (afterActs acts).cache.PendingIn b scope) ∧
    ((afterActs acts).cache.waiters.map Waiter.who).Nodup ∧
    (∀ later batch earlier, (afterActs acts).log = later ++ .sent batch :: earlier →
      batch.scopes ≠ [] ∧ batch.scopes.Nodup ∧ batch.scopes = requestedScopes batch.id earlier) ∧
    ∀ scope settings, (afterActs acts).cache.entries.get? scope = some (.present settings) →
      Supplied scope settings (afterActs acts).log := by
  have hx := explained_afterActs acts
  refine ⟨hx.aligned.nodup_scopes, hx.aligned.pendingIn_iff, ?_, fun _ _ _ => mem_waiters_iff,
    hx.requests.nodup_waiters, ?_, fun scope settings => hx.entries scope (.present settings)⟩
  · intro who scope hu
    obtain ⟨⟨b, hwaits⟩, hno⟩ := unanswered_iff.mp hu
    exact ⟨b, hx.aligned.waiting _ (mem_waiters_iff_waits.mpr ⟨hwaits, hno⟩)⟩
  · intro later batch earlier hlog
    have hr := hx.regular
    rw [hlog] at hr
    obtain ⟨hne, hscopes⟩ : (Event.sent batch).Regular earlier := hr.at
    refine ⟨hne, ?_, hscopes⟩
    rw [hscopes, requestedScopes, List.nodup_reverse]
    exact List.nodup_dedup _

/-- Two windows: the batch of the first is answered while the second is open. -/
def twoWindows : List Act :=
  [.get "a" 50, .get "b" 50, .get "a" 50, .closeWindow 1, .get "c" 110, .answer 1 (.values [.null, .null])]

/-- Whoever asked in the second window is registered for its batch; the scopes of the first are present. -/
theorem consistent_afterActs_two_windows :
    Unanswered twoWindows 4 "c" ∧ (afterActs twoWindows).cache.PendingIn 2 "c" ∧
    (afterActs twoWindows).cache.entries.get? "a" = some (.present {}) ∧
    Supplied "a" {} (afterActs twoWindows).log ∧
    ["a", "b"] = requestedScopes 1 [.waits 2 "a" 1, .waits 1 "b" 1, .waits 0 "a" 1] := by
  obtain ⟨-, -, -, hwaiters, -, hsent, hpresent⟩ := consistent_afterActs twoWindows
  have hw : ⟨2, "c", 4⟩ ∈ (afterActs twoWindows).cache.waiters := by decide
  have ha : (afterActs twoWindows).cache.entries.get? "a" = some (.present {}) := by decide
  obtain ⟨hc, hp⟩ := (hwaiters 2 "c" 4).mp hw
  refine ⟨hc, hp, ha, hpresent "a" {} ha, ?_⟩
  exact (hsent [_, _, _, _, _] ⟨1, ["a", "b"], 50⟩ [.waits 2 "a" 1, .waits 1 "b" 1, .waits 0 "a" 1] rfl).2.2

end RubyServer.SettingsCache
