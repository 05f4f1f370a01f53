import Mathlib.Data.List.Nodup
import RubyServer.SettingsCache

/-!
# Entries, batches and waiters fit each other

A scope that is pending names its batch, the batch lists the scope, and whoever waits for the scope is registered under
both. `Aligned` says that the three agree: no scope is listed twice among the batches that are open or in flight, an
entry is pending exactly in the batch that lists its scope, and waiters wait for pending scopes only. Every operation
keeps this (`Aligned.enlist`, `Aligned.wait`, `Aligned.forgets`, `Aligned.closeWindow`, `Aligned.answer`).

On the way, each operation is described by what it does to the entry of a scope: an invalidation leaves of it what
`Entry.forgotten` says, an answer what `Entry.settled` says.
-/

namespace RubyServer

/-- What an invalidation leaves of an entry. -/
def Entry.forgotten : Entry → Option Entry
  | .pending batch _ => some (.pending batch true)
  | .present _ => none

/-- What becomes of a pending entry with the outcome for its scope. -/
def Entry.settled (stale : Bool) : SettingsOutcome → Option Entry
  | .ok settings => if stale then none else some (.present settings)
  | .error _ => none

theorem Entry.forgotten_forgotten (e : Option Entry) :
    (e.bind Entry.forgotten).bind Entry.forgotten = e.bind Entry.forgotten := by
  match e with
  | none => rfl
  | some (.pending _ _) => rfl
  | some (.present _) => rfl

namespace SettingsCache

variable {ω : Type} {c c' : SettingsCache ω} {batch : Batch} {scope s : String} {b id : Nat}

/-! ## Invalidations -/

theorem get?_invalidate (c : SettingsCache ω) (scope s : String) :
    (c.invalidate scope).entries.get? s =
      if scope = s then (c.entries.get? s).bind Entry.forgotten else c.entries.get? s := by
  unfold invalidate
  cases h : c.entries.get? scope with
  | none =>
    by_cases hs : scope = s
    · subst hs
      simp [h]
    · simp [hs]
  | some e =>
    cases e with
    | pending b stale =>
      by_cases hs : scope = s
      · subst hs
        simp [h, Entry.forgotten]
      · simp [Table.get?_insert, hs]
    | present settings =>
      by_cases hs : scope = s
      · subst hs
        simp [h, Entry.forgotten]
      · simp [Table.get?_erase, hs]

theorem invalidate_frame (c : SettingsCache ω) (scope : String) :
    c.invalidate scope = { c with entries := (c.invalidate scope).entries } := by
  unfold invalidate
  split <;> rfl

/-- A cache whose entries are forgotten for the scopes that satisfy `p`, and which is the same otherwise. -/
structure Forgets (p : String → Prop) (c c' : SettingsCache ω) : Prop where
  frame : c' = { c with entries := c'.entries }
  forgotten : ∀ s, p s → c'.entries.get? s = (c.entries.get? s).bind Entry.forgotten
  kept : ∀ s, ¬ p s → c'.entries.get? s = c.entries.get? s

theorem forgets_invalidate (c : SettingsCache ω) (scope : String) : Forgets (scope = ·) c (c.invalidate scope) where
  frame := invalidate_frame c scope
  forgotten := fun s hs => by rw [get?_invalidate, if_pos hs]
  kept := fun s hs => by rw [get?_invalidate, if_neg hs]

theorem forgets_foldl_invalidate (scopes : List String) (c : SettingsCache ω) :
    Forgets (· ∈ scopes) c (scopes.foldl invalidate c) := by
  induction scopes generalizing c with
  | nil => exact ⟨rfl, fun s hs => absurd hs List.not_mem_nil, fun s _ => rfl⟩
  | cons scope scopes ih =>
    have h := ih (c.invalidate scope)
    have hframe := invalidate_frame c scope
    refine ⟨?_, ?_, ?_⟩
    · rw [List.foldl_cons]
      rw [h.frame, hframe]
    · intro s hs
      rw [List.foldl_cons]
      by_cases hmem : s ∈ scopes
      · rw [h.forgotten s hmem, get?_invalidate]
        split
        · rw [Entry.forgotten_forgotten]
        · rfl
      · have he : scope = s := by simpa [hmem, eq_comm] using hs
        rw [h.kept s hmem, get?_invalidate, if_pos he]
    · intro s hs
      rw [List.mem_cons, not_or] at hs
      rw [List.foldl_cons, h.kept s hs.2, get?_invalidate, if_neg fun e => hs.1 e.symm]

theorem forgets_invalidateAll (c : SettingsCache ω) : Forgets (fun _ => True) c c.invalidateAll := by
  have h := forgets_foldl_invalidate c.entries.keys c
  refine ⟨h.frame, ?_, fun s hs => absurd trivial hs⟩
  intro s _
  by_cases hs : s ∈ c.entries.keys
  · exact h.forgotten s hs
  · show (c.entries.keys.foldl invalidate c).entries.get? s = _
    rw [h.kept s hs, Table.get?_eq_none hs]
    rfl

/-! ## The alignment -/

/-- The batches without an answer: those in flight, and the open one. -/
def batches (c : SettingsCache ω) : List Batch := c.inFlight ++ c.openBatch.toList

/-- A batch without an answer lists a scope. -/
def Lists (c : SettingsCache ω) (b : Nat) (scope : String) : Prop :=
  ∃ batch ∈ c.batches, batch.id = b ∧ scope ∈ batch.scopes

/-- The entry of a scope says that it is part of a batch. -/
def PendingIn (c : SettingsCache ω) (b : Nat) (scope : String) : Prop :=
  ∃ stale, c.entries.get? scope = some (.pending b stale)

/-- Entries, batches and waiters fit each other. -/
structure Aligned (c : SettingsCache ω) : Prop where
  nodup_ids : (c.batches.map Batch.id).Nodup
  id_lt : ∀ batch ∈ c.batches, batch.id < c.nextBatch
  scopes_ne_nil : ∀ batch ∈ c.batches, batch.scopes ≠ []
  nodup_scopes : (c.batches.flatMap Batch.scopes).Nodup
  pendingIn_iff : ∀ b scope, c.PendingIn b scope ↔ c.Lists b scope
  waiting : ∀ w ∈ c.waiters, c.PendingIn w.batch w.scope

theorem aligned_empty : Aligned ({} : SettingsCache ω) where
  nodup_ids := List.nodup_nil
  id_lt := fun _ h => absurd h List.not_mem_nil
  scopes_ne_nil := fun _ h => absurd h List.not_mem_nil
  nodup_scopes := List.nodup_nil
  pendingIn_iff := by simp [PendingIn, Lists, batches]
  waiting := fun _ h => absurd h List.not_mem_nil

theorem PendingIn.eq {b' : Nat} (h : c.PendingIn b scope) (h' : c.PendingIn b' scope) : b = b' := by
  obtain ⟨stale, h⟩ := h
  obtain ⟨stale', h'⟩ := h'
  rw [h] at h'
  cases h'
  rfl

/-- Batches that share their number or a scope are the same. -/
theorem Aligned.eq_of_id (h : Aligned c) {batch' : Batch} (hb : batch ∈ c.batches) (hb' : batch' ∈ c.batches)
    (hid : batch.id = batch'.id) : batch = batch' :=
  List.inj_on_of_nodup_map h.nodup_ids hb hb' hid

theorem Aligned.eq_of_scope (h : Aligned c) {batch' : Batch} (hb : batch ∈ c.batches) (hb' : batch' ∈ c.batches)
    (hs : scope ∈ batch.scopes) (hs' : scope ∈ batch'.scopes) : batch = batch' := by
  have hp := (h.pendingIn_iff batch.id scope).mpr ⟨batch, hb, rfl, hs⟩
  have hp' := (h.pendingIn_iff batch'.id scope).mpr ⟨batch', hb', rfl, hs'⟩
  exact h.eq_of_id hb hb' (hp.eq hp')

theorem Aligned.nodup_of_mem (h : Aligned c) (hb : batch ∈ c.batches) : batch.scopes.Nodup :=
  (List.nodup_flatMap.mp h.nodup_scopes).1 batch hb

/-- Another cache with the same batches and the same pending scopes. -/
theorem Aligned.of_same (h : Aligned c) (hbatches : c'.batches = c.batches) (hnext : c'.nextBatch = c.nextBatch)
    (hpending : ∀ b scope, c'.PendingIn b scope ↔ c.PendingIn b scope)
    (hwaiting : ∀ w ∈ c'.waiters, c.PendingIn w.batch w.scope) : Aligned c' where
  nodup_ids := by rw [hbatches]; exact h.nodup_ids
  id_lt := by rw [hbatches, hnext]; exact h.id_lt
  scopes_ne_nil := by rw [hbatches]; exact h.scopes_ne_nil
  nodup_scopes := by rw [hbatches]; exact h.nodup_scopes
  pendingIn_iff := by
    intro b scope
    rw [hpending, h.pendingIn_iff]
    simp only [Lists, hbatches]
  waiting := fun w hw => (hpending _ _).mpr (hwaiting w hw)

theorem Forgets.pendingIn_iff {p : String → Prop} (h : Forgets p c c') : c'.PendingIn b scope ↔ c.PendingIn b scope := by
  unfold PendingIn
  by_cases hp : p scope
  · rw [h.forgotten scope hp]
    cases he : c.entries.get? scope with
    | none => simp
    | some e => cases e <;> simp [Entry.forgotten]
  · rw [h.kept scope hp]

theorem Aligned.forgets (h : Aligned c) {p : String → Prop} (hf : Forgets p c c') : Aligned c' := by
  have hframe := hf.frame
  refine h.of_same ?_ ?_ (fun b scope => hf.pendingIn_iff) ?_
  · rw [hframe]; rfl
  · rw [hframe]
  · rw [hframe]; exact h.waiting

/-! ## Requests -/

theorem Aligned.wait (h : Aligned c) {who : ω} (hp : c.PendingIn b scope) : Aligned (c.wait b scope who) := by
  refine h.of_same rfl rfl (fun _ _ => Iff.rfl) ?_
  intro w hw
  rcases List.mem_append.mp hw with hw | hw
  · exact h.waiting w hw
  · rw [List.mem_singleton.mp hw]
    exact hp

/-- The batch that absent scopes join: the open one, or a new one. -/
def window (c : SettingsCache ω) (due : Nat) : Batch := c.openBatch.getD ⟨c.nextBatch, [], due⟩

/-- The cache after an absent scope joined the window. -/
def enlist (c : SettingsCache ω) (scope : String) (due : Nat) : SettingsCache ω :=
  { (c.join scope due).1 with
    entries := (c.join scope due).1.entries.insert scope (.pending (c.join scope due).2 false) }

/-- What asking for a scope does. -/
theorem get_cases (c : SettingsCache ω) (who : ω) (scope : String) (due : Nat) :
    (c.shutDown = true ∧ c.get who scope due = (c, some (.error .cancelled))) ∨
    (c.shutDown = false ∧ ∃ settings, c.entries.get? scope = some (.present settings) ∧
      c.get who scope due = (c, some (.ok settings))) ∨
    (c.shutDown = false ∧ ∃ b stale, c.entries.get? scope = some (.pending b stale) ∧
      c.get who scope due = (c.wait b scope who, none)) ∨
    (c.shutDown = false ∧ c.entries.get? scope = none ∧
      c.get who scope due = ((c.enlist scope due).wait (c.window due).id scope who, none)) := by
  unfold get
  cases hs : c.shutDown with
  | true => exact Or.inl ⟨rfl, rfl⟩
  | false =>
    right
    cases he : c.entries.get? scope with
    | none =>
      refine Or.inr (Or.inr ⟨rfl, rfl, ?_⟩)
      unfold enlist window join
      cases c.openBatch <;> rfl
    | some e =>
      cases e with
      | present settings => exact Or.inl ⟨rfl, settings, rfl, rfl⟩
      | pending b stale => exact Or.inr (Or.inl ⟨rfl, b, stale, rfl, rfl⟩)

section Enlist

variable (c) (scope) (due : Nat)

theorem get?_enlist (s : String) : (c.enlist scope due).entries.get? s =
    if scope = s then some (.pending (c.window due).id false) else c.entries.get? s := by
  unfold enlist window join
  cases c.openBatch <;> simp [Table.get?_insert]

theorem openBatch_enlist : (c.enlist scope due).openBatch =
    some { c.window due with scopes := (c.window due).scopes ++ [scope] } := by
  unfold enlist window join
  cases c.openBatch <;> rfl

theorem inFlight_enlist : (c.enlist scope due).inFlight = c.inFlight := by
  unfold enlist join
  cases c.openBatch <;> rfl

theorem waiters_enlist : (c.enlist scope due).waiters = c.waiters := by
  unfold enlist join
  cases c.openBatch <;> rfl

theorem shutDown_enlist : (c.enlist scope due).shutDown = c.shutDown := by
  unfold enlist join
  cases c.openBatch <;> rfl

theorem nextBatch_le_enlist : c.nextBatch ≤ (c.enlist scope due).nextBatch := by
  unfold enlist join
  cases c.openBatch <;> simp

theorem batches_enlist : (c.enlist scope due).batches =
    c.inFlight ++ [{ c.window due with scopes := (c.window due).scopes ++ [scope] }] := by
  rw [batches, openBatch_enlist, inFlight_enlist]
  rfl

theorem flatMap_scopes_batches :
    c.batches.flatMap Batch.scopes = c.inFlight.flatMap Batch.scopes ++ (c.window due).scopes := by
  unfold batches window
  cases c.openBatch <;> simp

end Enlist

theorem Aligned.window_lt (h : Aligned c) (due : Nat) : (c.window due).id < (c.enlist scope due).nextBatch := by
  unfold window enlist join
  cases ho : c.openBatch with
  | none => simp
  | some batch => exact h.id_lt batch (by simp [batches, ho])

theorem Aligned.window_id_notMem (h : Aligned c) (due : Nat) : (c.window due).id ∉ c.inFlight.map Batch.id := by
  unfold window
  cases ho : c.openBatch with
  | none =>
    intro hm
    obtain ⟨batch, hb, hid⟩ := List.mem_map.mp hm
    have hlt := h.id_lt batch (List.mem_append_left _ hb)
    simp at hid
    omega
  | some batch =>
    have hn := h.nodup_ids
    simp only [batches, ho, Option.toList_some, List.map_append, List.map_cons, List.map_nil] at hn
    intro hm
    exact (List.nodup_append.mp hn).2.2 _ hm _ (List.mem_singleton.mpr rfl) rfl

theorem lists_enlist (due : Nat) :
    (c.enlist scope due).Lists b s ↔ c.Lists b s ∨ b = (c.window due).id ∧ s = scope := by
  unfold Lists
  rw [batches_enlist]
  unfold batches window
  cases c.openBatch with
  | none => simp [eq_comm]
  | some batch =>
    simp only [Option.getD_some, Option.toList_some, List.mem_append, List.mem_singleton]
    constructor
    · rintro ⟨batch', hb | rfl, hid, hs⟩
      · exact Or.inl ⟨batch', Or.inl hb, hid, hs⟩
      · rcases List.mem_append.mp hs with hs | hs
        · exact Or.inl ⟨batch, Or.inr rfl, hid, hs⟩
        · exact Or.inr ⟨hid.symm, List.mem_singleton.mp hs⟩
    · rintro (⟨batch', hb | rfl, hid, hs⟩ | ⟨rfl, rfl⟩)
      · exact ⟨batch', Or.inl hb, hid, hs⟩
      · exact ⟨_, Or.inr rfl, hid, List.mem_append_left _ hs⟩
      · exact ⟨_, Or.inr rfl, rfl, by simp⟩

theorem Aligned.enlist (h : Aligned c) (due : Nat) (hnone : c.entries.get? scope = none) :
    Aligned (c.enlist scope due) where
  nodup_ids := by
    have hn := h.nodup_ids
    rw [batches, List.map_append] at hn
    rw [batches_enlist, List.map_append]
    refine List.nodup_append.mpr ⟨(List.nodup_append.mp hn).1, by simp, ?_⟩
    intro id hid id' hid' e
    obtain rfl : id' = (c.window due).id := by simpa using hid'
    exact h.window_id_notMem due (e ▸ hid)
  id_lt := by
    intro batch hb
    rw [batches_enlist, List.mem_append, List.mem_singleton] at hb
    rcases hb with hb | rfl
    · have hlt := h.id_lt batch (List.mem_append_left _ hb)
      have hle := nextBatch_le_enlist c scope due
      omega
    · exact h.window_lt due
  scopes_ne_nil := by
    intro batch hb
    rw [batches_enlist, List.mem_append, List.mem_singleton] at hb
    rcases hb with hb | rfl
    · exact h.scopes_ne_nil batch (List.mem_append_left _ hb)
    · simp
  nodup_scopes := by
    have hn := h.nodup_scopes
    have hnot : scope ∉ c.batches.flatMap Batch.scopes := by
      intro hm
      obtain ⟨batch, hb, hs⟩ := List.mem_flatMap.mp hm
      obtain ⟨stale, he⟩ := (h.pendingIn_iff batch.id scope).mpr ⟨batch, hb, rfl, hs⟩
      rw [hnone] at he
      cases he
    rw [flatMap_scopes_batches c due] at hn hnot
    rw [batches_enlist, List.flatMap_append, List.flatMap_singleton, ← List.append_assoc]
    exact List.nodup_append.mpr ⟨hn, by simp, fun a ha a' ha' e => hnot (List.mem_singleton.mp ha' ▸ e ▸ ha)⟩
  pendingIn_iff := by
    intro b s
    rw [lists_enlist, ← h.pendingIn_iff]
    unfold PendingIn
    rw [get?_enlist]
    by_cases hs : scope = s
    · subst hs
      simp [hnone, eq_comm]
    · simp [hs, Ne.symm hs]
  waiting := by
    intro w hw
    rw [waiters_enlist] at hw
    obtain ⟨stale, he⟩ := h.waiting w hw
    refine ⟨stale, ?_⟩
    rw [get?_enlist, if_neg, he]
    rintro rfl
    rw [hnone] at he
    cases he

/-! ## The end of a window -/

/-- What the end of a window does. -/
theorem closeWindow_cases (c : SettingsCache ω) (id : Nat) :
    c.closeWindow id = c ∨ ∃ batch, c.openBatch = some batch ∧ batch.id = id ∧
      c.closeWindow id = { c with openBatch := none, inFlight := c.inFlight ++ [batch], fetches := c.fetches + 1 } := by
  unfold closeWindow
  cases ho : c.openBatch with
  | none => exact Or.inl rfl
  | some batch =>
    by_cases hid : batch.id = id
    · exact Or.inr ⟨batch, rfl, hid, if_pos hid⟩
    · exact Or.inl (if_neg hid)

theorem Aligned.closeWindow (h : Aligned c) (id : Nat) : Aligned (c.closeWindow id) := by
  rcases closeWindow_cases c id with he | ⟨batch, ho, -, he⟩
  · rw [he]
    exact h
  · rw [he]
    refine h.of_same ?_ rfl (fun _ _ => Iff.rfl) h.waiting
    simp [batches, ho]

/-! ## Answers -/

@[simp] theorem length_outcomes (scopes : List String) (response : Response) :
    (outcomes scopes response).length = scopes.length := by
  cases response with
  | values values =>
    simp only [outcomes]
    split
    · next h => simp [h]
    · simp
  | failed error => simp [outcomes]

/-- The scopes of a batch with their outcomes. -/
def settlement (batch : Batch) (response : Response) : List (String × SettingsOutcome) :=
  batch.scopes.zip (outcomes batch.scopes response)

theorem map_fst_settlement (batch : Batch) (response : Response) :
    (settlement batch response).map Prod.fst = batch.scopes :=
  List.map_fst_zip (by simp)

theorem exists_settlement (response : Response) (hs : scope ∈ batch.scopes) :
    ∃ outcome, (scope, outcome) ∈ settlement batch response := by
  rw [← map_fst_settlement batch response, List.mem_map] at hs
  obtain ⟨⟨_, outcome⟩, hm, rfl⟩ := hs
  exact ⟨outcome, hm⟩

theorem mem_scopes_of_settlement {response : Response} {outcome : SettingsOutcome}
    (hm : (scope, outcome) ∈ settlement batch response) : scope ∈ batch.scopes := by
  rw [← map_fst_settlement batch response]
  exact List.mem_map.mpr ⟨_, hm, rfl⟩

section Settle

variable {entries : Table String Entry} {outcome : SettingsOutcome} {settled : List (String × SettingsOutcome)}
  {stale : Bool}

theorem get?_settle_of_ne (hne : scope ≠ s) : (settle id entries scope outcome).get? s = entries.get? s := by
  unfold settle
  split
  · split
    · split
      · rw [Table.get?_insert, if_neg hne]
      · rw [Table.get?_erase, if_neg hne]
    · rfl
  · rfl

theorem get?_settle_self (he : entries.get? scope = some (.pending id stale)) :
    (settle id entries scope outcome).get? scope = Entry.settled stale outcome := by
  unfold settle
  cases outcome <;> cases stale <;> simp [he, Entry.settled]

theorem get?_settleAll_of_notMem (hs : s ∉ settled.map Prod.fst) :
    (settled.foldl (fun entries a => settle id entries a.1 a.2) entries).get? s = entries.get? s := by
  induction settled generalizing entries with
  | nil => rfl
  | cons a settled ih =>
    rw [List.map_cons, List.mem_cons, not_or] at hs
    rw [List.foldl_cons, ih hs.2, get?_settle_of_ne fun e => hs.1 e.symm]

theorem get?_settleAll_of_mem (hn : (settled.map Prod.fst).Nodup) (hm : (s, outcome) ∈ settled)
    (he : entries.get? s = some (.pending id stale)) :
    (settled.foldl (fun entries a => settle id entries a.1 a.2) entries).get? s = Entry.settled stale outcome := by
  induction settled generalizing entries with
  | nil => cases hm
  | cons a settled ih =>
    rw [List.map_cons, List.nodup_cons] at hn
    rw [List.foldl_cons]
    rcases List.mem_cons.mp hm with rfl | hm
    · rw [get?_settleAll_of_notMem hn.1, get?_settle_self he]
    · -- the scope comes up later, so that it is another one now
      have hne : a.1 ≠ s := by
        intro e
        exact hn.1 (e ▸ List.mem_map.mpr ⟨_, hm, rfl⟩)
      exact ih hn.2 hm ((get?_settle_of_ne hne).trans he)

end Settle

theorem Aligned.find?_inFlight (h : Aligned c) (hb : batch ∈ c.inFlight) :
    c.inFlight.find? (fun b => b.id == batch.id) = some batch := by
  obtain ⟨batch', hf⟩ : ∃ batch', c.inFlight.find? (fun b => b.id == batch.id) = some batch' := by
    rw [← Option.isSome_iff_exists, List.find?_isSome]
    exact ⟨batch, hb, by simp⟩
  have hid : batch'.id = batch.id := by simpa using List.find?_some hf
  have hmem := List.mem_of_find?_eq_some hf
  rw [hf, h.eq_of_id (List.mem_append_left _ hmem) (List.mem_append_left _ hb) hid]

/-- What an answer does: nothing, unless it is the answer to a batch in flight. -/
theorem answer_cases (c : SettingsCache ω) (id : Nat) (response : Response) :
    (c.inFlight.find? (fun b => b.id == id) = none ∧ c.answer id response = (c, [])) ∨
    ∃ batch ∈ c.inFlight, batch.id = id ∧ c.inFlight.find? (fun b => b.id == id) = some batch := by
  cases hf : c.inFlight.find? (fun b => b.id == id) with
  | none =>
    refine Or.inl ⟨rfl, ?_⟩
    unfold answer
    rw [hf]
  | some batch =>
    exact Or.inr ⟨batch, List.mem_of_find?_eq_some hf, by simpa using List.find?_some hf, rfl⟩

theorem Aligned.answer_eq (h : Aligned c) (hb : batch ∈ c.inFlight) (response : Response) :
    c.answer batch.id response =
      ({ c with
          entries := (settlement batch response).foldl (fun entries a => settle batch.id entries a.1 a.2) c.entries
          inFlight := c.inFlight.filter fun b => b.id != batch.id
          waiters := c.waiters.filter fun w => w.batch != batch.id },
        (settlement batch response).flatMap fun a =>
          (c.waitingFor batch.id a.1).map fun who => (who, a.2)) := by
  unfold answer
  rw [h.find?_inFlight hb]
  rfl

section Answer

variable (h : Aligned c) (hb : batch ∈ c.inFlight) (response : Response)

include h hb

theorem Aligned.get?_answer_of_notMem (hs : scope ∉ batch.scopes) :
    (c.answer batch.id response).1.entries.get? scope = c.entries.get? scope := by
  rw [h.answer_eq hb]
  apply get?_settleAll_of_notMem
  rw [map_fst_settlement]
  exact hs

/-- Settings are kept unless their scope was invalidated. -/
theorem Aligned.get?_answer_of_mem {outcome : SettingsOutcome} (hm : (scope, outcome) ∈ settlement batch response) :
    ∃ stale, c.entries.get? scope = some (.pending batch.id stale) ∧
      (c.answer batch.id response).1.entries.get? scope = Entry.settled stale outcome := by
  have hbatch : batch ∈ c.batches := List.mem_append_left _ hb
  obtain ⟨stale, he⟩ :=
    (h.pendingIn_iff batch.id scope).mpr ⟨batch, hbatch, rfl, mem_scopes_of_settlement hm⟩
  refine ⟨stale, he, ?_⟩
  rw [h.answer_eq hb]
  refine get?_settleAll_of_mem ?_ hm he
  rw [map_fst_settlement]
  exact h.nodup_of_mem hbatch

theorem Aligned.batches_answer :
    (c.answer batch.id response).1.batches = c.batches.filter fun b => b.id != batch.id := by
  rw [h.answer_eq hb]
  show _ ++ _ = _
  rw [batches, List.filter_append]
  congr 1
  cases ho : c.openBatch with
  | none => rfl
  | some batch' =>
    have hne : batch'.id ≠ batch.id := by
      intro e
      have := h.window_id_notMem 0
      rw [window, ho, Option.getD_some, e] at this
      exact this (List.mem_map.mpr ⟨batch, hb, rfl⟩)
    simp [hne]

theorem Aligned.lists_answer :
    (c.answer batch.id response).1.Lists b scope ↔ c.Lists b scope ∧ scope ∉ batch.scopes := by
  have hbatch : batch ∈ c.batches := List.mem_append_left _ hb
  unfold Lists
  rw [h.batches_answer hb]
  simp only [List.mem_filter, bne_iff_ne]
  constructor
  · rintro ⟨batch', ⟨hb', hne⟩, hid, hs⟩
    refine ⟨⟨batch', hb', hid, hs⟩, ?_⟩
    intro hs'
    exact hne (congrArg Batch.id (h.eq_of_scope hb' hbatch hs hs'))
  · rintro ⟨⟨batch', hb', hid, hs⟩, hnot⟩
    refine ⟨batch', ⟨hb', ?_⟩, hid, hs⟩
    intro e
    exact hnot (h.eq_of_id hb' hbatch e ▸ hs)

theorem Aligned.pendingIn_answer :
    (c.answer batch.id response).1.PendingIn b scope ↔ c.PendingIn b scope ∧ scope ∉ batch.scopes := by
  unfold PendingIn
  by_cases hs : scope ∈ batch.scopes
  · obtain ⟨outcome, hm⟩ := exists_settlement response hs
    obtain ⟨stale, -, he⟩ := h.get?_answer_of_mem hb response hm
    rw [he]
    cases outcome <;> cases stale <;> simp [Entry.settled, hs]
  · rw [h.get?_answer_of_notMem hb response hs]
    simp [hs]

theorem Aligned.answer : Aligned (c.answer batch.id response).1 where
  nodup_ids := by
    rw [h.batches_answer hb]
    exact (List.filter_sublist.map _).nodup h.nodup_ids
  id_lt := by
    have hnext : (c.answer batch.id response).1.nextBatch = c.nextBatch := by rw [h.answer_eq hb]
    rw [h.batches_answer hb, hnext]
    exact fun b hb' => h.id_lt b (List.mem_of_mem_filter hb')
  scopes_ne_nil := by
    rw [h.batches_answer hb]
    exact fun b hb' => h.scopes_ne_nil b (List.mem_of_mem_filter hb')
  nodup_scopes := by
    rw [h.batches_answer hb]
    obtain ⟨heach, hpairs⟩ := List.nodup_flatMap.mp h.nodup_scopes
    exact List.nodup_flatMap.mpr ⟨fun b hb' => heach b (List.mem_of_mem_filter hb'), hpairs.filter _⟩
  pendingIn_iff := by
    intro b scope
    rw [h.pendingIn_answer hb, h.lists_answer hb, h.pendingIn_iff]
  waiting := by
    intro w hw
    have hw' : w ∈ c.waiters ∧ w.batch ≠ batch.id := by
      rw [h.answer_eq hb] at hw
      simpa using hw
    have hp := h.waiting w hw'.1
    rw [h.pendingIn_answer hb]
    refine ⟨hp, fun hs => hw'.2 (hp.eq ?_)⟩
    exact (h.pendingIn_iff _ _).mpr ⟨batch, List.mem_append_left _ hb, rfl, hs⟩

theorem Aligned.mem_answers {who : ω} {outcome : SettingsOutcome} :
    (who, outcome) ∈ (c.answer batch.id response).2 ↔
      ∃ w ∈ c.waiters, w.batch = batch.id ∧ w.who = who ∧ (w.scope, outcome) ∈ settlement batch response := by
  rw [h.answer_eq hb]
  simp only [waitingFor, List.mem_flatMap, List.mem_map, List.mem_filter, Prod.mk.injEq, Bool.and_eq_true, beq_iff_eq]
  constructor
  · rintro ⟨⟨scope, outcome⟩, hm, _, ⟨w, ⟨hw, hid, rfl⟩, rfl⟩, rfl, rfl⟩
    exact ⟨w, hw, hid, rfl, hm⟩
  · rintro ⟨w, hw, hid, rfl, hm⟩
    exact ⟨_, hm, _, ⟨w, ⟨hw, hid, rfl⟩, rfl⟩, rfl, rfl⟩

/-- Everyone who waits for a batch is answered. -/
theorem Aligned.exists_answer {w : Waiter ω} (hw : w ∈ c.waiters) (hid : w.batch = batch.id) :
    ∃ outcome, (w.who, outcome) ∈ (c.answer batch.id response).2 := by
  have hp := h.waiting w hw
  obtain ⟨batch', hb', hid', hs⟩ := (h.pendingIn_iff _ _).mp hp
  have he : batch' = batch := h.eq_of_id hb' (List.mem_append_left _ hb) (hid'.trans hid)
  obtain ⟨outcome, hm⟩ := exists_settlement response (he ▸ hs)
  exact ⟨outcome, (h.mem_answers hb response).mpr ⟨w, hw, hid, rfl, hm⟩⟩

/-- Nobody is answered twice. -/
theorem Aligned.nodup_answers (hwho : (c.waiters.map Waiter.who).Nodup) :
    ((c.answer batch.id response).2.map Prod.fst).Nodup := by
  have hscopes := h.nodup_of_mem (List.mem_append_left _ hb)
  rw [← map_fst_settlement batch response] at hscopes
  rw [h.answer_eq hb]
  simp only [List.map_flatMap, List.map_map, Function.comp_def, List.map_id']
  refine List.nodup_flatMap.mpr ⟨fun a _ => (List.filter_sublist.map _).nodup hwho, ?_⟩
  refine (List.pairwise_map.mp hscopes).imp ?_
  -- whoever were answered for two scopes would wait twice
  intro a a' hne who hm hm'
  obtain ⟨w, hw, rfl⟩ := List.mem_map.mp hm
  obtain ⟨w', hw', he⟩ := List.mem_map.mp hm'
  simp only [List.mem_filter, Bool.and_eq_true, beq_iff_eq] at hw hw'
  have hsame : w' = w := List.inj_on_of_nodup_map hwho hw'.1 hw.1 he
  exact hne (hw.2.2.symm.trans (hsame ▸ hw'.2.2))

end Answer

/-! ## The end -/

theorem shutdown_cases (c : SettingsCache ω) :
    c.shutDown = true ∧ c.shutdown = (c, []) ∨
    c.shutDown = false ∧ c.shutdown =
      ({ c with entries := ∅, openBatch := none, inFlight := [], waiters := [], shutDown := true },
        c.waiters.map fun w => (w.who, .error .cancelled)) := by
  unfold shutdown
  cases hs : c.shutDown with
  | true => exact Or.inl ⟨rfl, rfl⟩
  | false => exact Or.inr ⟨rfl, rfl⟩

theorem Aligned.shutdown (h : Aligned c) : Aligned c.shutdown.1 := by
  rcases shutdown_cases c with ⟨-, he⟩ | ⟨-, he⟩
  · rw [he]
    exact h
  · rw [he]
    refine ⟨List.nodup_nil, ?_, ?_, List.nodup_nil, ?_, ?_⟩
    all_goals simp [batches, Lists, PendingIn]

end SettingsCache

end RubyServer
