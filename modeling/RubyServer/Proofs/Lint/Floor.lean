import RubyServer.Proofs.Lint.Outcome

/-!
# The severity floor

What rules find is held against the floor of the configuration once it is raised to errors where the configuration says
so, and nothing below the floor is kept (`floor_le_of_mem_kept`). The warning that ends a run which found too much is the
run's own, and no floor applies to it: it is below one that lets through errors alone. So of all that a run reports this
warning is the one thing that may be below the floor (`below_floor_of_run`).
-/

namespace RubyServer

theorem Severity.not_le_warning_iff {floor : Severity} : ¬ floor ≤ .warning ↔ floor = .error := by
  cases floor <;> decide

namespace Lint

variable {c : LintConfig} {s : Source} {rules : List Rule} {found : List Diagnostic}

theorem floor_le_of_mem_kept {d : Diagnostic} (hd : d ∈ kept c s rules) : c.minSeverity ≤ d.severity := by
  obtain ⟨r, -, hd⟩ := List.mem_flatMap.mp hd
  unfold keptOf at hd
  split at hd
  · exact of_decide_eq_true (List.mem_filter.mp hd).2
  · cases hd

/-- Nothing of what is kept is below the floor. -/
theorem filter_below_eq_nil {l : List Diagnostic} (hl : l ⊆ kept c s rules) :
    (l.filter fun d => ¬ c.minSeverity ≤ d.severity) = [] := by
  rw [List.filter_eq_nil_iff]
  intro d hd
  simpa using floor_le_of_mem_kept (hl hd)

theorem filter_below_limitWarning (floor : Severity) (limit : Nat) :
    ([limitWarning limit].filter fun d => ¬ floor ≤ d.severity) =
      if floor = .error then [limitWarning limit] else [] := by
  have hwarning : (limitWarning limit).severity = .warning := rfl
  simp only [List.filter_cons, hwarning, Severity.not_le_warning_iff, decide_eq_true_eq, List.filter_nil]

/-- What is reported below the floor, before it is sorted. -/
theorem filter_below_reported :
    ((reported c.maxDiagnostics (kept c s rules)).filter fun d => ¬ c.minSeverity ≤ d.severity) =
      if c.maxDiagnostics < (kept c s rules).length ∧ c.minSeverity = .error then [limitWarning c.maxDiagnostics]
      else [] := by
  by_cases hroom : (kept c s rules).length ≤ c.maxDiagnostics
  · rw [reported_of_length_le hroom, if_neg fun h => absurd h.1 (Nat.not_lt.mpr hroom),
      filter_below_eq_nil fun _ hd => hd]
  · rw [reported_of_lt_length (Nat.not_le.mp hroom), List.filter_append, filter_below_eq_nil (List.take_subset _ _),
      filter_below_limitWarning, List.nil_append]
    simp only [Nat.not_le.mp hroom, true_and]

/-- There is nothing to sort in what is below the floor. -/
theorem filter_below_of_run (h : run c rules s = .ok found) :
    (found.filter fun d => ¬ c.minSeverity ≤ d.severity) =
      (reported c.maxDiagnostics (kept c s rules)).filter fun d => ¬ c.minSeverity ≤ d.severity := by
  rw [eq_sorted_of_run_eq_ok h, filter_sorted, filter_below_reported]
  split <;> rfl

/-- **What a run reports below its floor.** Whatever a run reports is not below the floor, the warning about its limit
apart. The diagnostics below the floor are this warning, once, if more was kept than the limit allows and the floor lets
through errors alone, and otherwise none. -/
theorem below_floor_of_run (h : run c rules s = .ok found) :
    (∀ d ∈ found, d ≠ limitWarning c.maxDiagnostics → c.minSeverity ≤ d.severity) ∧
    (found.filter fun d => ¬ c.minSeverity ≤ d.severity) =
      if c.maxDiagnostics < (kept c s rules).length ∧ c.minSeverity = .error then [limitWarning c.maxDiagnostics]
      else [] := by
  refine ⟨?_, (filter_below_of_run h).trans filter_below_reported⟩
  intro d hd hne
  by_contra hlow
  have hmem : d ∈ found.filter fun d => ¬ c.minSeverity ≤ d.severity := List.mem_filter.mpr ⟨hd, decide_eq_true hlow⟩
  rw [filter_below_of_run h, filter_below_reported] at hmem
  split at hmem
  · exact hne (List.mem_singleton.mp hmem)
  · cases hmem

/-- Two lines that end in a blank. -/
def twoBlankEnds : Source where
  text := "a \nb \n".toList
  parse := .tree <| .mk ⟨"program", true, false, false, 0, 6, none⟩
    [.mk ⟨"identifier", true, false, false, 0, 1, none⟩ [], .mk ⟨"identifier", true, false, false, 3, 4, none⟩ []]

/-- Blanks at the ends of lines count as errors, errors alone are let through, and one diagnostic is enough. -/
def strict : LintConfig := LintConfig.setError { minSeverity := .error, maxDiagnostics := 1 } "trailing-whitespace"

theorem run_strict : ∃ d, run strict [Rule.trailingWhitespace] twoBlankEnds = .ok [limitWarning 1, d] ∧
    d.severity = .error :=
  ⟨_, rfl, rfl⟩

/-- A run that lets through errors alone reports a warning. -/
theorem run_strict_below_floor : ∃ found, run strict [Rule.trailingWhitespace] twoBlankEnds = .ok found ∧
    ∃ d ∈ found, ¬ strict.minSeverity ≤ d.severity := by
  obtain ⟨d, hrun, -⟩ := run_strict
  exact ⟨_, hrun, limitWarning 1, List.mem_cons_self, by decide⟩

/-- Of the two diagnostics of this run, the one that the rule found is not below the floor. -/
theorem below_floor_of_run_strict : ∃ d, run strict [Rule.trailingWhitespace] twoBlankEnds = .ok [limitWarning 1, d] ∧
    strict.minSeverity ≤ d.severity ∧
    ([limitWarning 1, d].filter fun d => ¬ strict.minSeverity ≤ d.severity) = [limitWarning 1] := by
  obtain ⟨d, hrun, herror⟩ := run_strict
  obtain ⟨hfloor, hbelow⟩ := below_floor_of_run hrun
  refine ⟨d, hrun, ?_, hbelow.trans (if_pos (by decide))⟩
  refine hfloor d (by simp) ?_
  rintro rfl
  cases herror

end Lint

end RubyServer
