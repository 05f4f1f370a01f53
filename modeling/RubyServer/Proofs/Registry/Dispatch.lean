import Mathlib.Data.List.Nodup
import RubyServer.Rehearsal.Observers

/-!
# Dispatching to observers that change the registry

An observer may do with the registry whatever anybody may do with it, while it is being called by a dispatch. What comes of
this is a state that the one before `Evolves` to, however the subscribing, the ending and the dispatching go together and
nest. Such a registry `LeadsTo` another: the observers stay in the order of their numbers, and whoever is new has a number
that nobody had.

A dispatch is then the calls that it makes itself, one after the other (`foldl_turn`), and these are told by the observers
that were there when it began: each is called if it is still there when its turn comes (`dispatch_calls`).
-/

namespace RubyServer

namespace Registry

variable {κ σ : Type} {registry : σ → Registry κ} {call : κ → σ → σ} {r r' r'' : Registry κ} {s t : σ}

/-! ## What may happen -/

/-- What may become of a state, its registry being used by nothing but its operations: observers subscribe, subscriptions
end, and events are dispatched to observers that keep to the same. Whatever else is in the state may change at any time. -/
inductive Evolves (registry : σ → Registry κ) : σ → σ → Prop where
  | quiet {s t : σ} (h : registry t = registry s) : Evolves registry s t
  | subscribe {s t : σ} (observer : κ) (h : registry t = ((registry s).subscribe observer).1) : Evolves registry s t
  | unsubscribe {s t : σ} (id : Nat) (h : registry t = (registry s).unsubscribe id) : Evolves registry s t
  | clear {s t : σ} (h : registry t = (registry s).clear) : Evolves registry s t
  | dispatch {s : σ} (call : κ → σ → σ) (h : ∀ observer t, Evolves registry t (call observer t)) :
    Evolves registry s (Registry.dispatch registry call s).1
  | trans {s t u : σ} (h : Evolves registry s t) (h' : Evolves registry t u) : Evolves registry s u

/-! ## Numbers -/

/-- The observers are in the order of their numbers, and all numbers are below the next one. -/
structure Numbered (r : Registry κ) : Prop where
  ordered : (r.observers.map Prod.fst).Pairwise (· < ·)
  below : ∀ o ∈ r.observers, o.1 < r.next

/-- What becomes of a registry: it stays in order, and no number is used again. -/
structure LeadsTo (r r' : Registry κ) : Prop where
  next_le : r.next ≤ r'.next
  numbered : r.Numbered → r'.Numbered
  old_or_new : ∀ o ∈ r'.observers, o ∈ r.observers ∨ r.next ≤ o.1

theorem numbered_empty : Numbered ({} : Registry κ) := ⟨.nil, fun _ ho => (by cases ho)⟩

/-- A number belongs to one observer. -/
theorem Numbered.eq_of_id (h : r.Numbered) {o o' : Nat × κ} (ho : o ∈ r.observers) (ho' : o' ∈ r.observers)
    (hid : o.1 = o'.1) : o = o' :=
  List.inj_on_of_nodup_map (h.ordered.imp fun hlt => Nat.ne_of_lt hlt) ho ho' hid

theorem LeadsTo.refl (r : Registry κ) : LeadsTo r r := ⟨Nat.le_refl _, id, fun _ ho => Or.inl ho⟩

theorem LeadsTo.trans (h : LeadsTo r r') (h' : LeadsTo r' r'') : LeadsTo r r'' := by
  refine ⟨Nat.le_trans h.next_le h'.next_le, fun hr => h'.numbered (h.numbered hr), fun o ho => ?_⟩
  rcases h'.old_or_new o ho with ho | hnew
  · exact h.old_or_new o ho
  · exact Or.inr (Nat.le_trans h.next_le hnew)

theorem leadsTo_subscribe (r : Registry κ) (observer : κ) : LeadsTo r (r.subscribe observer).1 := by
  refine ⟨Nat.le_succ _, fun hr => ⟨?_, ?_⟩, ?_⟩
  · show ((r.observers ++ [(r.next, observer)]).map Prod.fst).Pairwise (· < ·)
    rw [List.map_append, List.pairwise_append]
    refine ⟨hr.ordered, List.pairwise_singleton _ _, ?_⟩
    intro id hid last hlast
    obtain ⟨o, ho, rfl⟩ := List.mem_map.mp hid
    rw [List.mem_singleton.mp hlast]
    exact hr.below o ho
  · intro o ho
    rcases List.mem_append.mp ho with ho | ho
    · exact Nat.lt_succ_of_lt (hr.below o ho)
    · rw [List.mem_singleton.mp ho]
      exact Nat.lt_succ_self _
  · intro o ho
    rcases List.mem_append.mp ho with ho | ho
    · exact Or.inl ho
    · rw [List.mem_singleton.mp ho]
      exact Or.inr (Nat.le_refl _)

/-- Whoever leaves, the others stay as they are. -/
theorem leadsTo_of_sublist (hnext : r'.next = r.next) (h : r'.observers.Sublist r.observers) : LeadsTo r r' := by
  refine ⟨Nat.le_of_eq hnext.symm, fun hr => ⟨?_, ?_⟩, fun o ho => Or.inl (h.subset ho)⟩
  · exact hr.ordered.sublist (h.map _)
  · intro o ho
    rw [hnext]
    exact hr.below o (h.subset ho)

/-! ## Calls -/

/-- The observers that a dispatch calls, out of those whose turns are still to come. -/
def callees (registry : σ → Registry κ) (call : κ → σ → σ) : σ → List (Nat × κ) → List (Nat × κ)
  | _, [] => []
  | s, o :: os =>
    if (registry s).isSubscribed o.1 then o :: callees registry call (call o.2 s) os else callees registry call s os

/-- The state after several calls. -/
def afterCalls (call : κ → σ → σ) (s : σ) (calls : List (Nat × κ)) : σ := calls.foldl (fun t o => call o.2 t) s

theorem foldl_turn (os : List (Nat × κ)) (s : σ) (n : Nat) : os.foldl (turn registry call) (s, n) =
    (afterCalls call s (callees registry call s os), n + (callees registry call s os).length) := by
  induction os generalizing s n with
  | nil => rfl
  | cons o os ih =>
    rw [List.foldl_cons, turn, callees]
    split
    · rw [ih, List.length_cons, Nat.add_right_comm, Nat.add_assoc]
      rfl
    · exact ih s n

theorem dispatch_eq (s : σ) : dispatch registry call s =
    (afterCalls call s (callees registry call s (registry s).observers),
      (callees registry call s (registry s).observers).length) := by
  rw [dispatch, foldl_turn, Nat.zero_add]

theorem callees_sublist (os : List (Nat × κ)) (s : σ) : (callees registry call s os).Sublist os := by
  induction os generalizing s with
  | nil => exact .slnil
  | cons o os ih =>
    rw [callees]
    split
    · exact (ih _).cons_cons o
    · exact (ih s).cons o

theorem callees_append (before after : List (Nat × κ)) (s : σ) : callees registry call s (before ++ after) =
    callees registry call s before ++
      callees registry call (afterCalls call s (callees registry call s before)) after := by
  induction before generalizing s with
  | nil => rfl
  | cons o before ih =>
    rw [List.cons_append, callees, callees]
    split
    · rw [ih]
      rfl
    · exact ih s

theorem leadsTo_afterCalls (hcall : ∀ observer t, LeadsTo (registry t) (registry (call observer t)))
    (calls : List (Nat × κ)) (s : σ) : LeadsTo (registry s) (registry (afterCalls call s calls)) := by
  induction calls generalizing s with
  | nil => exact .refl _
  | cons o calls ih => exact (hcall o.2 s).trans (ih _)

/-- Whatever happens to a registry, it stays in order and uses no number again. -/
theorem Evolves.leadsTo (h : Evolves registry s t) : LeadsTo (registry s) (registry t) := by
  induction h with
  | quiet h =>
    rw [h]
    exact .refl _
  | subscribe observer h =>
    rw [h]
    exact leadsTo_subscribe _ observer
  | unsubscribe id h =>
    rw [h]
    exact leadsTo_of_sublist rfl List.filter_sublist
  | clear h =>
    rw [h]
    exact leadsTo_of_sublist rfl (List.nil_sublist _)
  | dispatch call _ ih =>
    rw [dispatch_eq]
    exact leadsTo_afterCalls ih _ _
  | trans _ _ ih ih' => exact ih.trans ih'

/-- An observer that was there before is subscribed as long as it is there: nobody else has got its number. -/
theorem LeadsTo.isSubscribed_iff (h : LeadsTo r r') (hr : r.Numbered) {o : Nat × κ} (ho : o ∈ r.observers) :
    r'.isSubscribed o.1 = true ↔ o ∈ r'.observers := by
  rw [isSubscribed, List.any_eq_true]
  constructor
  · rintro ⟨o', ho', hid⟩
    rw [beq_iff_eq] at hid
    rcases h.old_or_new o' ho' with hold | hnew
    · rwa [← hr.eq_of_id hold ho hid]
    · exact absurd (hr.below o ho) (by omega)
  · intro ho'
    exact ⟨o, ho', beq_self_eq_true _⟩

/-- The calls that a dispatch has made when the turn of an observer comes are those to smaller numbers, and then the
observer is called if it is subscribed. -/
theorem callees_at (registry : σ → Registry κ) (call : κ → σ → σ) {before after : List (Nat × κ)} {o : Nat × κ}
    (hordered : ((before ++ o :: after).map Prod.fst).Pairwise (· < ·)) (s : σ) :
    ((callees registry call s (before ++ o :: after)).filter fun c => c.1 < o.1) = callees registry call s before ∧
      (o ∈ callees registry call s (before ++ o :: after) ↔
        (registry (afterCalls call s (callees registry call s before))).isSubscribed o.1 = true) := by
  rw [List.map_append, List.map_cons, List.pairwise_append, List.pairwise_cons] at hordered
  obtain ⟨-, ⟨hafter, -⟩, hbefore⟩ := hordered
  have hsmaller {t : σ} {c : Nat × κ} (hc : c ∈ callees registry call t before) : c.1 < o.1 :=
    hbefore c.1 (List.mem_map_of_mem ((callees_sublist before t).subset hc)) o.1 List.mem_cons_self
  have hgreater {t : σ} {c : Nat × κ} (hc : c ∈ callees registry call t after) : o.1 < c.1 :=
    hafter c.1 (List.mem_map_of_mem ((callees_sublist after t).subset hc))
  generalize hat : afterCalls call s (callees registry call s before) = t
  have hnone : (callees registry call t (o :: after)).filter (fun c => c.1 < o.1) = [] := by
    rw [List.filter_eq_nil_iff]
    intro c hc
    rcases List.mem_cons.mp ((callees_sublist (o :: after) t).subset hc) with rfl | hc
    · simp
    · have hlt := hafter c.1 (List.mem_map_of_mem hc)
      simpa using Nat.le_of_lt hlt
  rw [callees_append, hat]
  constructor
  · rw [List.filter_append, hnone, List.append_nil, List.filter_eq_self]
    exact fun c hc => decide_eq_true (hsmaller hc)
  · rw [List.mem_append, callees]
    constructor
    · rintro (ho | ho)
      · exact absurd (hsmaller ho) (Nat.lt_irrefl _)
      · split at ho
        · assumption
        · exact absurd (hgreater ho) (Nat.lt_irrefl _)
    · intro ho
      rw [if_pos ho]
      exact Or.inr List.mem_cons_self

/-- **What a dispatch calls.** Take any state that a state with a new registry evolves to, and observers that keep to the
operations of the registry. Then the observers are in the order of their numbers, which are all different. A dispatch
makes certain calls, one after the other, and counts them. They go to observers that were there when it began, in their
order and no more than once each: to each of them that is still there when its turn comes, which is after the calls to
those before it, and to no other. Whoever comes later, during the dispatch or after it, has a greater number than all that
were there, and is not called. -/
theorem dispatch_calls {s₀ : σ} (hnew : registry s₀ = {}) (hreached : Evolves registry s₀ s)
    (hcall : ∀ observer t, Evolves registry t (call observer t)) :
    ((registry s).observers.map Prod.fst).Pairwise (· < ·) ∧
    ∃ calls : List (Nat × κ),
      dispatch registry call s = (calls.foldl (fun t o => call o.2 t) s, calls.length) ∧
      calls.Sublist (registry s).observers ∧ (calls.map Prod.fst).Nodup ∧
      (∀ o ∈ (registry s).observers, o ∈ calls ↔
        o ∈ (registry ((calls.filter fun c => c.1 < o.1).foldl (fun t c => call c.2 t) s)).observers) ∧
      ∀ t, Evolves registry s t → ∀ o ∈ (registry t).observers, o ∉ (registry s).observers →
        (∀ c ∈ (registry s).observers, c.1 < o.1) ∧ o ∉ calls := by
  have hnumbered : (registry s).Numbered := hreached.leadsTo.numbered (hnew ▸ numbered_empty)
  have hsublist : (callees registry call s (registry s).observers).Sublist (registry s).observers := callees_sublist _ s
  refine ⟨hnumbered.ordered, callees registry call s (registry s).observers, dispatch_eq s, hsublist, ?_, ?_, ?_⟩
  · exact (hnumbered.ordered.sublist (hsublist.map _)).imp Nat.ne_of_lt
  · intro o ho
    obtain ⟨before, after, heq⟩ := List.append_of_mem ho
    have hordered := hnumbered.ordered
    rw [heq] at hordered
    obtain ⟨hearlier, hcalled⟩ := callees_at registry call hordered s
    rw [heq, hearlier, hcalled]
    exact (leadsTo_afterCalls (fun observer t => (hcall observer t).leadsTo) _ s).isSubscribed_iff hnumbered ho
  · intro t ht o ho hout
    refine ⟨fun c hc => ?_, fun hcalls => hout (hsublist.subset hcalls)⟩
    have hlate := (ht.leadsTo.old_or_new o ho).resolve_left hout
    exact Nat.lt_of_lt_of_le (hnumbered.below c hc) hlate

end Registry

namespace Rehearsal.Board

open Registry

/-! ## Scripted observers -/

/-- Scripted observers keep to the operations of the registry, however deep their dispatches nest. -/
theorem evolves_notify (depth : Nat) (event : String) (listener : Listener) (b : Board) :
    Evolves Board.registry b (notify depth event listener b) := by
  induction depth generalizing event listener b with
  | zero => exact .quiet rfl
  | succ depth ih =>
    rw [notify]
    refine List.foldlRecOn (motive := Evolves Board.registry b) _ _ (.quiet rfl) ?_
    intro b' hb reaction _
    refine hb.trans ?_
    cases reaction with
    | subscribe name => exact .subscribe ⟨name, []⟩ rfl
    | unsubscribe name =>
      show Evolves Board.registry b' (b'.unsubscribe name)
      unfold Board.unsubscribe
      split
      · next id _ => exact .unsubscribe id rfl
      · exact .quiet rfl
    | clear => exact .clear rfl
    | dispatch e =>
      show Evolves Board.registry b' (if isMarked event then b' else _)
      split
      · exact .quiet rfl
      · exact .dispatch (notify depth (">" ++ e)) fun listener t => ih (">" ++ e) listener t

theorem evolves_subscribe (b : Board) (listener : Listener) : Evolves Board.registry b (b.subscribe listener) :=
  .subscribe listener rfl

/-- Three observers: the first ends the subscription of the second, brings in a fourth and dispatches an event itself. -/
def meddling : Board :=
  ((Board.subscribe {} ⟨"first", [.unsubscribe "second", .subscribe "fourth", .dispatch "again"]⟩).subscribe
    ⟨"second", []⟩).subscribe ⟨"third", []⟩

/-- Two of the three are called; the other three of the five calls are made by the dispatch inside, and do not count. -/
theorem dispatch_calls_meddling :
    (meddling.dispatch "news").1.calls.length = 5 ∧ (meddling.dispatch "news").2 = 2 ∧
    ∃ calls : List (Nat × Listener),
      (meddling.dispatch "news").1 = calls.foldl (fun b o => notify 2 "news" o.2 b) meddling ∧
      calls.length = 2 ∧ calls.Sublist meddling.registry.observers := by
  have hnew : Board.registry {} = {} := rfl
  have hreached : Evolves Board.registry {} meddling :=
    ((evolves_subscribe _ _).trans (evolves_subscribe _ _)).trans (evolves_subscribe _ _)
  have hcount : (meddling.dispatch "news").2 = 2 := by decide +kernel
  obtain ⟨-, calls, hdispatch, hsublist, -⟩ := dispatch_calls hnew hreached (evolves_notify 2 "news")
  refine ⟨by decide +kernel, hcount, calls, congrArg Prod.fst hdispatch, ?_, hsublist⟩
  exact (congrArg Prod.snd hdispatch).symm.trans hcount

end Rehearsal.Board

end RubyServer
