import Mathlib.Data.List.TakeWhile
import RubyServer.Lint.Run
import RubyServer.Proofs.Text.Sorting

/-!
# What a lint run comes to

A run stops at the first of two things: a rule that fails, or one diagnostic more than there is room for. Put without the
order of events, rule by rule (`takeUp_eq`) and over all rules (`collect_eq`): with what the rules before any failing one
have to say (`kept`), the run fails with the failing rule if all of this has room, and is cut off if it has not. What is
reported is sorted by where it starts, and diagnostics that start together stay in the order in which the rules found them
(`stablySorted_iff`).
-/

namespace RubyServer

namespace Lint

variable (c : LintConfig) (s : Source) (rules : List Rule)

/-! ## What the rules have to say -/

/-- What is wrong with a configuration; of several faults the first counts. -/
inductive Fault : LintError → Prop where
  | lineLength (h : c.maxLineLength = 0) : Fault .zeroLineLength
  | limit (hlength : c.maxLineLength ≠ 0) (h : c.maxDiagnostics = 0) : Fault .zeroDiagnosticLimit
  | ruleId (hlength : c.maxLineLength ≠ 0) (hlimit : c.maxDiagnostics ≠ 0) (h : "" ∈ c.rules.keys) : Fault .emptyRuleId

/-- The rules that the configuration does not switch off. -/
def active : List Rule := rules.filter fun r => (c.rules.get? r.id).all RuleConfig.enabled

/-- The error of a rule that fails. -/
def failureOf? (r : Rule) : Option LintError :=
  match r.check c.maxLineLength s with
  | .ok _ => none
  | .error e => some e

/-- What is kept of diagnostics: each is made an error if they are to be raised, and then those below the floor drop
out. -/
def passing (floor : Severity) (raised : Bool) (ds : List Diagnostic) : List Diagnostic :=
  (ds.map fun d => if raised then { d with severity := .error } else d).filter fun d => floor ≤ d.severity

/-- What is kept of what a rule finds. It is raised to errors if the configuration says so of the rule. -/
def keptOf (r : Rule) : List Diagnostic :=
  match r.check c.maxLineLength s with
  | .ok ds => passing c.minSeverity ((c.rules.get? r.id).any RuleConfig.error) ds
  | .error _ => []

/-- The error of the first rule that fails. -/
def failure? : Option LintError := (active c rules).findSome? (failureOf? c s)

/-- What is kept of what the rules find, rule after rule, up to the first one that fails. -/
def kept : List Diagnostic := ((active c rules).takeWhile fun r => (failureOf? c s r).isNone).flatMap (keptOf c s)

/-- The diagnostics that are reported for what is kept: all if there is room for them, and otherwise as many as there is
room for, with a warning. -/
def reported (limit : Nat) (kept : List Diagnostic) : List Diagnostic :=
  if kept.length ≤ limit then kept
  else kept.take limit ++
    [{ severity := .warning, concern := .custom "diagnostic-limit", rule := "diagnostic-limit", span := .zero
       message := s!"Diagnostic limit of {limit} reached; remaining issues are not reported." }]

variable {c s rules}

theorem fault?_eq_some_iff {e : LintError} : c.fault? = some e ↔ Fault c e := by
  have hid : c.rules.keys.any String.isEmpty = true ↔ "" ∈ c.rules.keys := by simp [String.isEmpty_iff]
  unfold LintConfig.fault?
  constructor
  · intro h
    split at h
    · next hlength => cases h; exact .lineLength hlength
    · next hlength =>
      split at h
      · next hlimit => cases h; exact .limit hlength hlimit
      · next hlimit =>
        split at h
        · next hempty => cases h; exact .ruleId hlength hlimit (hid.mp hempty)
        · cases h
  · rintro (h | ⟨hlength, h⟩ | ⟨hlength, hlimit, h⟩)
    · rw [if_pos h]
    · rw [if_neg hlength, if_pos h]
    · rw [if_neg hlength, if_neg hlimit, if_pos (hid.mpr h)]

theorem enabled_rule (c : LintConfig) (id : String) : (c.rule id).enabled = (c.rules.get? id).all RuleConfig.enabled := by
  unfold LintConfig.rule
  cases c.rules.get? id <;> rfl

theorem error_rule (c : LintConfig) (id : String) : (c.rule id).error = (c.rules.get? id).any RuleConfig.error := by
  unfold LintConfig.rule
  cases c.rules.get? id <;> rfl

theorem keptOf_of_check {r : Rule} {ds : List Diagnostic} (h : r.check c.maxLineLength s = .ok ds) :
    keptOf c s r = passing c.minSeverity (c.rule r.id).error ds := by
  unfold keptOf
  rw [h, error_rule]

theorem passing_cons (floor : Severity) (raised : Bool) (d : Diagnostic) (ds : List Diagnostic) :
    passing floor raised (d :: ds) =
      if floor ≤ (if raised then d.escalate else d).severity then
        (if raised then d.escalate else d) :: passing floor raised ds
      else passing floor raised ds := by
  unfold passing
  rw [List.map_cons, List.filter_cons]
  simp only [decide_eq_true_eq]
  rfl

section Reported

variable {limit : Nat} {found : List Diagnostic}

theorem reported_of_length_le (h : found.length ≤ limit) : reported limit found = found := if_pos h

theorem reported_of_lt_length (h : limit < found.length) :
    reported limit found = found.take limit ++ [limitWarning limit] := if_neg (Nat.not_le.mpr h)

/-- What comes after more than there is room for changes nothing. -/
theorem reported_append_of_lt (h : limit < found.length) (l : List Diagnostic) :
    reported limit (found ++ l) = reported limit found := by
  have hlong : limit < (found ++ l).length := by
    rw [List.length_append]
    omega
  rw [reported_of_lt_length hlong, reported_of_lt_length h, List.take_append_of_le_length h.le]

/-- Where there is no room left, the warning takes the place of what comes next. -/
theorem reported_append_cons (h : found.length = limit) (d : Diagnostic) (ds : List Diagnostic) :
    reported limit (found ++ d :: ds) = found ++ [limitWarning limit] := by
  have hlong : limit < (found ++ d :: ds).length := by
    rw [List.length_append, List.length_cons]
    omega
  rw [reported_of_lt_length hlong, List.take_left' h]

end Reported

theorem length_reported_le (limit : Nat) (kept : List Diagnostic) : (reported limit kept).length ≤ limit + 1 := by
  unfold reported
  split
  · omega
  · rw [List.length_append, List.length_take, List.length_singleton]
    omega

/-! ## Rule by rule -/

section Cons

variable (rules) {r : Rule}

theorem active_cons_of_disabled (h : (c.rule r.id).enabled = false) : active c (r :: rules) = active c rules :=
  List.filter_cons_of_neg (by simp [← enabled_rule, h])

theorem active_cons (h : (c.rule r.id).enabled = true) : active c (r :: rules) = r :: active c rules :=
  List.filter_cons_of_pos (by rw [← enabled_rule, h])

variable (henabled : (c.rule r.id).enabled = true)

include henabled

/-- A rule that fails is the first that does, and nothing is kept from it on. -/
theorem kept_cons_of_error {e : LintError} (h : r.check c.maxLineLength s = .error e) :
    failure? c s (r :: rules) = some e ∧ kept c s (r :: rules) = [] := by
  have hfails : failureOf? c s r = some e := by
    unfold failureOf?
    rw [h]
  unfold failure? kept
  rw [active_cons rules henabled, List.findSome?_cons, List.takeWhile_cons_of_neg (by simp [hfails]), hfails]
  exact ⟨rfl, rfl⟩

/-- A rule that does not fail adds what is kept of what it finds. -/
theorem kept_cons_of_ok {ds : List Diagnostic} (h : r.check c.maxLineLength s = .ok ds) :
    failure? c s (r :: rules) = failure? c s rules ∧
      kept c s (r :: rules) = passing c.minSeverity (c.rule r.id).error ds ++ kept c s rules := by
  have hends : failureOf? c s r = none := by
    unfold failureOf?
    rw [h]
  unfold failure? kept
  rw [active_cons rules henabled, List.findSome?_cons, List.takeWhile_cons_of_pos (by simp [hends]), hends,
    List.flatMap_cons, keptOf_of_check h]
  exact ⟨rfl, rfl⟩

end Cons

/-- What is found once the diagnostics of a rule are taken up: what is reported of all that is kept, and whether it is
more than there is room for. -/
theorem takeUp_eq (rule : RuleConfig) {found : List Diagnostic} (hfound : found.length ≤ c.maxDiagnostics)
    (ds : List Diagnostic) : takeUp c rule found ds =
      (reported c.maxDiagnostics (found ++ passing c.minSeverity rule.error ds),
        decide (c.maxDiagnostics < (found ++ passing c.minSeverity rule.error ds).length)) := by
  induction ds generalizing found with
  | nil =>
    have hnil : found ++ passing c.minSeverity rule.error [] = found := List.append_nil found
    rw [takeUp, hnil, reported_of_length_le hfound, decide_eq_false (by omega)]
  | cons d ds ih =>
    simp only [takeUp, passing_cons]
    generalize (if rule.error then d.escalate else d) = d
    by_cases hfloor : c.minSeverity ≤ d.severity
    · rw [if_pos hfloor, if_pos hfloor]
      by_cases hfull : c.maxDiagnostics ≤ found.length
      · -- what was found has had room all along, so it is as much as there is room for
        rw [if_pos hfull, reported_append_cons (Nat.le_antisymm hfound hfull)]
        simp only [List.length_append, List.length_cons]
        rw [decide_eq_true (by omega)]
      · have hroom : (found ++ [d]).length ≤ c.maxDiagnostics := by
          rw [List.length_append, List.length_singleton]
          omega
        rw [if_neg hfull, ih hroom, List.append_assoc, List.singleton_append]
    · rw [if_neg hfloor, if_neg hfloor, ih hfound]

/-- What a run collects: it stops at a rule that fails only if there is room for all that is kept before it. -/
theorem collect_eq {found : List Diagnostic} (hfound : found.length ≤ c.maxDiagnostics) : collect c s found rules =
    if (found ++ kept c s rules).length ≤ c.maxDiagnostics then
      match failure? c s rules with
      | some e => .error e
      | none => .ok (found ++ kept c s rules)
    else .ok (reported c.maxDiagnostics (found ++ kept c s rules)) := by
  induction rules generalizing found with
  | nil =>
    have hnil : found ++ kept c s [] = found := List.append_nil found
    rw [collect, hnil, if_pos hfound]
    rfl
  | cons r rules ih =>
    rw [collect]
    cases henabled : (c.rule r.id).enabled with
    | false =>
      have hactive := active_cons_of_disabled rules henabled
      unfold kept failure? at ih ⊢
      rw [hactive]
      exact ih hfound
    | true =>
      rw [if_pos rfl]
      cases hcheck : r.check c.maxLineLength s with
      | error e =>
        obtain ⟨hfailure, hkept⟩ := kept_cons_of_error rules henabled hcheck
        rw [hfailure, hkept, List.append_nil, if_pos hfound]
      | ok ds =>
        obtain ⟨hfailure, hkept⟩ := kept_cons_of_ok rules henabled hcheck
        rw [hfailure, hkept, ← List.append_assoc]
        simp only [takeUp_eq _ hfound]
        -- what there is after this rule either has no room, and then nothing more counts, or the rest goes behind it
        generalize found ++ passing c.minSeverity (c.rule r.id).error ds = found'
        by_cases hfull : c.maxDiagnostics < found'.length
        · have hlong : ¬ (found' ++ kept c s rules).length ≤ c.maxDiagnostics := by
            rw [List.length_append]
            omega
          rw [decide_eq_true hfull, if_neg hlong, reported_append_of_lt hfull]
        · rw [decide_eq_false hfull, reported_of_length_le (Nat.not_lt.mp hfull)]
          exact ih (Nat.not_lt.mp hfull)

/-! ## The run -/

theorem run_of_fault {e : LintError} (h : c.fault? = some e) : run c rules s = .error e := by
  unfold run
  rw [h]

/-- A run whose configuration is sound. -/
theorem run_eq (h : c.fault? = none) : run c rules s =
    if (kept c s rules).length ≤ c.maxDiagnostics then
      match failure? c s rules with
      | some e => .error e
      | none => .ok (sorted (kept c s rules))
    else .ok (sorted (reported c.maxDiagnostics (kept c s rules))) := by
  have hempty : ([] : List Diagnostic).length ≤ c.maxDiagnostics := Nat.zero_le _
  unfold run
  simp only [h, collect_eq hempty, List.nil_append]
  by_cases hroom : (kept c s rules).length ≤ c.maxDiagnostics
  · rw [if_pos hroom, if_pos hroom]
    cases failure? c s rules <;> rfl
  · rw [if_neg hroom, if_neg hroom]

/-- Diagnostics are sorted by where they start. -/
theorem stablySorted_iff {found l : List Diagnostic} :
    StablySorted (fun d => d.span.start) found l ↔ l = sorted found := stablySorted_sortBy_iff

theorem filter_sorted (keep : Diagnostic → Bool) (found : List Diagnostic) :
    (sorted found).filter keep = sorted (found.filter keep) :=
  filter_sortBy (decide_key_total fun d : Diagnostic => d.span.start) (decide_key_trans _) keep found

theorem run_eq_error_iff (h : c.fault? = none) {e : LintError} :
    run c rules s = .error e ↔ failure? c s rules = some e ∧ (kept c s rules).length ≤ c.maxDiagnostics := by
  rw [run_eq h]
  split
  · next hroom => cases failure? c s rules <;> simp [hroom]
  · next hroom => simp [hroom]

theorem run_eq_ok (h : c.fault? = none)
    (hgoes : failure? c s rules = none ∨ c.maxDiagnostics < (kept c s rules).length) :
    run c rules s = .ok (sorted (reported c.maxDiagnostics (kept c s rules))) := by
  rw [run_eq h]
  split
  · next hroom => rw [hgoes.resolve_right (Nat.not_lt.mpr hroom), reported_of_length_le hroom]
  · rfl

/-- A run that reports something reports what it keeps, cut off at the limit. -/
theorem eq_sorted_of_run_eq_ok {found : List Diagnostic} (h : run c rules s = .ok found) :
    found = sorted (reported c.maxDiagnostics (kept c s rules)) := by
  cases hfault : c.fault? with
  | some e => cases (run_of_fault hfault).symm.trans h
  | none =>
    by_cases hgoes : failure? c s rules = none ∨ c.maxDiagnostics < (kept c s rules).length
    · exact Except.ok.inj (h.symm.trans (run_eq_ok hfault hgoes))
    · rw [not_or, Nat.not_lt, ← ne_eq, Option.ne_none_iff_exists'] at hgoes
      obtain ⟨⟨e, hfailure⟩, hroom⟩ := hgoes
      cases ((run_eq_error_iff hfault).mpr ⟨hfailure, hroom⟩).symm.trans h

/-- What a run reports was found by one of its rules, save the warning at its end. -/
theorem mem_run {found : List Diagnostic} (h : run c rules s = .ok found) {d : Diagnostic} (hd : d ∈ found) :
    d = limitWarning c.maxDiagnostics ∨
      ∃ r ∈ rules, ∃ l, r.check c.maxLineLength s = .ok l ∧ ∃ d' ∈ l, d.rule = d'.rule ∧ d.span = d'.span := by
  rw [eq_sorted_of_run_eq_ok h, (stablySorted_iff.mpr rfl).perm.mem_iff] at hd
  have hcut : d = limitWarning c.maxDiagnostics ∨ d ∈ kept c s rules := by
    unfold reported at hd
    split at hd
    · exact Or.inr hd
    · rcases List.mem_append.mp hd with hd | hd
      · exact Or.inr (List.mem_of_mem_take hd)
      · exact Or.inl (List.mem_singleton.mp hd)
  refine hcut.imp_right fun hd => ?_
  obtain ⟨r, hr, hd⟩ := List.mem_flatMap.mp hd
  refine ⟨r, (List.mem_filter.mp ((List.takeWhile_sublist _).mem hr)).1, ?_⟩
  unfold keptOf at hd
  cases hcheck : r.check c.maxLineLength s with
  | error e =>
    rw [hcheck] at hd
    cases hd
  | ok l =>
    rw [hcheck] at hd
    obtain ⟨d', hd', rfl⟩ := List.mem_map.mp (List.mem_filter.mp hd).1
    refine ⟨l, rfl, d', hd', ?_⟩
    split <;> exact ⟨rfl, rfl⟩

/-- **What a lint run comes to.** A configuration with a fault makes the run fail with it. Otherwise the run fails exactly
if an active rule fails and what the rules before the first such rule have to say is not more than the limit, and then
with the error of that rule. In all other cases it reports what is kept of what the rules before any failing one find, all
of it if it is not more than the limit, and otherwise as much of it as the limit allows and one warning; sorted by where
the diagnostics start, those that start together in the order found. It never reports more than one diagnostic above the
limit. -/
theorem run_outcome (c : LintConfig) (rules : List Rule) (s : Source) :
    (∀ e, Fault c e → run c rules s = .error e) ∧
    ((∀ e, ¬ Fault c e) →
      (∀ e, run c rules s = .error e ↔
        failure? c s rules = some e ∧ (kept c s rules).length ≤ c.maxDiagnostics) ∧
      (failure? c s rules = none ∨ c.maxDiagnostics < (kept c s rules).length → ∃ found, run c rules s = .ok found ∧
        ∀ l, StablySorted (fun d => d.span.start) (reported c.maxDiagnostics (kept c s rules)) l ↔ l = found)) ∧
    ∀ found, run c rules s = .ok found → found.length ≤ c.maxDiagnostics + 1 := by
  refine ⟨fun e hfault => run_of_fault (fault?_eq_some_iff.mpr hfault), fun hsound => ?_, ?_⟩
  · have hfault : c.fault? = none := Option.eq_none_iff_forall_ne_some.mpr fun e he => hsound e (fault?_eq_some_iff.mp he)
    refine ⟨fun e => run_eq_error_iff hfault, fun hgoes => ?_⟩
    exact ⟨_, run_eq_ok hfault hgoes, fun l => stablySorted_iff⟩
  · intro found h
    rw [eq_sorted_of_run_eq_ok h, (stablySorted_iff.mpr rfl).perm.length_eq]
    exact length_reported_le _ _

end Lint

end RubyServer
