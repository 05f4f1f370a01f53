import RubyServer.Proofs.Lint.Findings
import RubyServer.Proofs.Lint.Outcome
import RubyServer.Settings

/-!
# What a switch turns off

Four of the standard rules have a switch in the settings. A lint run under settings leaves out the rules that are switched
off (`rule_lintConfig`) and otherwise does what it would do with everything switched on: the rules do not depend on each
other, and each signs what it finds. So what is reported is what would be reported with everything switched on, without
what the silenced rules say and in the same order (`diagnose_switches`). Only a run that is cut off at the limit may
report things in place of those that a switch took away.
-/

namespace RubyServer

/-- The rules with a switch of their own, and where it stands. -/
def LintSettings.switches (l : LintSettings) : List (Rule × Bool) :=
  [(.trailingWhitespace, l.trailingWhitespace), (.tabIndentation, l.tabIndentation), (.finalNewline, l.finalNewline),
    (.duplicateMethod, l.duplicateMethod)]

/-- Whether what bears a rule's id comes from a rule that is switched off. -/
def LintSettings.silences (l : LintSettings) (id : String) : Bool := l.switches.any fun (r, on) => r.id == id && !on

/-- The settings with all rules switched on. -/
def Settings.switchedOn (settings : Settings) : Settings :=
  { settings with
    lint :=
      { settings.lint with
        trailingWhitespace := true
        tabIndentation := true
        finalNewline := true
        duplicateMethod := true } }

/-! ## The configuration of a run -/

namespace LintConfig

variable {c : LintConfig}

theorem rule_disable (c : LintConfig) (id id' : String) :
    (c.disable id).rule id' = if id = id' then { enabled := false, error := false } else c.rule id' := by
  unfold rule disable setRule
  rw [Table.get?_insert]
  split <;> rfl

/-- Rules that are disabled one after the other are all disabled. -/
theorem rule_foldl_disable (ids : List String) (id : String) :
    (ids.foldl disable c).rule id = if id ∈ ids then { enabled := false, error := false } else c.rule id := by
  induction ids generalizing c with
  | nil => rfl
  | cons id' ids ih =>
    rw [List.foldl_cons, ih, rule_disable]
    by_cases hmem : id ∈ ids
    · simp [hmem]
    · simp [hmem, eq_comm]

/-- Disabling rules changes nothing else. -/
theorem foldl_disable_frame (ids : List String) :
    (ids.foldl disable c).minSeverity = c.minSeverity ∧ (ids.foldl disable c).maxDiagnostics = c.maxDiagnostics ∧
      (ids.foldl disable c).maxLineLength = c.maxLineLength := by
  induction ids generalizing c with
  | nil => exact ⟨rfl, rfl, rfl⟩
  | cons id ids ih => exact ih

theorem mem_keys_foldl_disable {ids : List String} {id : String} (h : id ∈ (ids.foldl disable c).rules.keys) :
    id ∈ ids ∨ id ∈ c.rules.keys := by
  induction ids generalizing c with
  | nil => exact Or.inr h
  | cons id' ids ih =>
    rcases ih h with hmem | hmem
    · exact Or.inl (List.mem_cons_of_mem _ hmem)
    · rcases Table.mem_keys_put.mp hmem with rfl | hmem
      · exact Or.inl List.mem_cons_self
      · exact Or.inr hmem

end LintConfig

namespace Settings

variable {settings : Settings} {s : Source} {r : Rule}

/-- The switches stand under the ids of their rules. -/
theorem toggles_eq (settings : Settings) : settings.toggles = settings.lint.switches.map fun t => (t.1.id, t.2) := rfl

/-- The disabled rules are those that are switched off. -/
theorem mem_disabledRules (settings : Settings) (id : String) :
    id ∈ settings.disabledRules ↔ settings.lint.silences id = true := by
  simp only [disabledRules, toggles_eq, LintSettings.silences, List.mem_map, List.mem_filter, List.any_eq_true,
    Bool.and_eq_true, beq_iff_eq]
  constructor
  · rintro ⟨_, ⟨⟨t, ht, rfl⟩, hoff⟩, rfl⟩
    exact ⟨t, ht, rfl, hoff⟩
  · rintro ⟨t, ht, rfl, hoff⟩
    exact ⟨_, ⟨⟨t, ht, rfl⟩, hoff⟩, rfl⟩

theorem rule_lintConfig (settings : Settings) (id : String) :
    settings.lintConfig.rule id = if settings.lint.silences id then { enabled := false, error := false } else {} := by
  unfold lintConfig
  rw [LintConfig.rule_foldl_disable]
  simp only [mem_disabledRules]
  rfl

/-- The only fault that settings can have is a line length of zero. -/
theorem fault?_lintConfig (settings : Settings) :
    settings.lintConfig.fault? = if settings.maxLineLength = 0 then some .zeroLineLength else none := by
  have hnamed : ∀ id ∈ settings.toggles.map Prod.fst, id.isEmpty = false := by
    show ∀ id ∈ ["trailing-whitespace", "tab-indentation", "final-newline", "duplicate-method"], id.isEmpty = false
    decide
  have hids : settings.lintConfig.rules.keys.any String.isEmpty = false := by
    rw [List.any_eq_false]
    intro id hid
    have hmem : id ∈ settings.disabledRules := (LintConfig.mem_keys_foldl_disable hid).resolve_right List.not_mem_nil
    rw [hnamed id ((List.filter_sublist.map Prod.fst).mem hmem)]
    exact Bool.false_ne_true
  obtain ⟨-, hlimit, hlength⟩ :=
    LintConfig.foldl_disable_frame (c := { maxLineLength := settings.maxLineLength }) settings.disabledRules
  unfold LintConfig.fault?
  rw [show settings.lintConfig.maxLineLength = settings.maxLineLength from hlength,
    show settings.lintConfig.maxDiagnostics = 10000 from hlimit, hids]
  rfl

theorem maxDiagnostics_lintConfig (settings : Settings) : settings.lintConfig.maxDiagnostics = 10000 :=
  (LintConfig.foldl_disable_frame settings.disabledRules).2.1

/-! ## What the rules say -/

/-- The standard rules do not fail, so that all that are active have their say. -/
theorem kept_standard (c : LintConfig) (s : Source) : Lint.failure? c s Rule.standard = none ∧
    Lint.kept c s Rule.standard = (Lint.active c Rule.standard).flatMap (Lint.keptOf c s) := by
  have hends : ∀ r ∈ Lint.active c Rule.standard, Lint.failureOf? c s r = none := by
    intro r hr
    obtain ⟨found, hcheck, -⟩ := Rule.finds_of_mem_standard (List.mem_filter.mp hr).1 c.maxLineLength s
    unfold Lint.failureOf?
    rw [hcheck]
  constructor
  · exact List.findSome?_eq_none_iff.mpr hends
  · unfold Lint.kept
    rw [List.takeWhile_eq_self_iff.mpr fun r hr => by simp [hends r hr]]

theorem active_lintConfig (settings : Settings) (rules : List Rule) :
    Lint.active settings.lintConfig rules = rules.filter fun r => !settings.lint.silences r.id := by
  unfold Lint.active
  congr 1
  funext r
  rw [← Lint.enabled_rule, rule_lintConfig]
  cases settings.lint.silences r.id <;> rfl

/-- Settings let a rule that is not switched off say all that it finds. -/
theorem keptOf_lintConfig {found : List Diagnostic} (hon : settings.lint.silences r.id = false)
    (h : r.check settings.maxLineLength s = .ok found) : Lint.keptOf settings.lintConfig s r = found := by
  obtain ⟨hfloor, -, hlength⟩ :=
    LintConfig.foldl_disable_frame (c := { maxLineLength := settings.maxLineLength }) settings.disabledRules
  have hcheck : r.check settings.lintConfig.maxLineLength s = .ok found := by
    rw [← h]
    exact congrArg (r.check · s) hlength
  rw [Lint.keptOf_of_check hcheck, rule_lintConfig, hon, show settings.lintConfig.minSeverity = .hint from hfloor]
  simp only [Lint.passing, Bool.false_eq_true, if_false, List.map_id_fun', id_eq]
  exact List.filter_eq_self.mpr fun d _ => decide_eq_true (Nat.zero_le _)

theorem silences_switchedOn (settings : Settings) (id : String) : settings.switchedOn.lint.silences id = false := by
  simp [switchedOn, LintSettings.silences, LintSettings.switches]

/-- What is kept under settings is what is kept with everything switched on, less what silenced rules say. -/
theorem kept_lintConfig (settings : Settings) (s : Source) : Lint.kept settings.lintConfig s Rule.standard =
    (Lint.kept settings.switchedOn.lintConfig s Rule.standard).filter fun d => !settings.lint.silences d.rule := by
  have hon : Lint.active settings.switchedOn.lintConfig Rule.standard = Rule.standard := by
    rw [active_lintConfig]
    exact List.filter_eq_self.mpr fun r _ => by simp [silences_switchedOn]
  rw [(kept_standard settings.lintConfig s).2, (kept_standard settings.switchedOn.lintConfig s).2, hon,
    active_lintConfig, List.filter_flatMap, flatMap_filter_eq]
  apply List.flatMap_congr
  intro r hr
  obtain ⟨found, hcheck, hfinds⟩ := Rule.finds_of_mem_standard hr settings.maxLineLength s
  rw [keptOf_lintConfig (silences_switchedOn settings r.id) hcheck]
  cases hsilent : settings.lint.silences r.id with
  | true =>
    have hnone : found.filter (fun d => !settings.lint.silences d.rule) = [] :=
      List.filter_eq_nil_iff.mpr fun d hd => by simp [(hfinds d hd).1, hsilent]
    simp [hnone]
  | false =>
    have hall : found.filter (fun d => !settings.lint.silences d.rule) = found :=
      List.filter_eq_self.mpr fun d hd => by simp [(hfinds d hd).1, hsilent]
    simp [hall, keptOf_lintConfig hsilent hcheck]

/-! ## Linting by settings -/

/-- Linting under settings that allow for lines reports what is kept. -/
theorem diagnose_eq (henabled : settings.lint.enabled = true) (hlength : settings.maxLineLength ≠ 0) (s : Source) :
    settings.diagnose s =
      .ok (Lint.sorted (Lint.reported 10000 (Lint.kept settings.lintConfig s Rule.standard))) := by
  have hfault : settings.lintConfig.fault? = none := by rw [fault?_lintConfig, if_neg hlength]
  unfold diagnose
  rw [if_pos henabled, Lint.run_eq_ok hfault (Or.inl (kept_standard settings.lintConfig s).1),
    maxDiagnostics_lintConfig]

/-- **What a switch turns off.** With linting switched off nothing is reported. Otherwise linting fails exactly if the
longest line allowed, the one for all tools if it is set and else the one for linting, has length zero; and if it does not
fail, and would not report more than the limit with everything switched on, then it reports what it would report with
everything switched on, less exactly what bears the id of a rule that is switched off, and in the same order. -/
theorem diagnose_switches (settings : Settings) (s : Source) :
    (settings.lint.enabled = false → settings.diagnose s = .ok []) ∧
    (settings.lint.enabled = true →
      ((∃ e, settings.diagnose s = .error e) ↔ settings.lineLength.getD settings.lint.lineLength = 0) ∧
      (settings.lineLength.getD settings.lint.lineLength ≠ 0 → ∃ all found,
        settings.switchedOn.diagnose s = .ok all ∧ settings.diagnose s = .ok found ∧
        (all.length ≤ settings.switchedOn.lintConfig.maxDiagnostics →
          found = all.filter fun d => !settings.lint.silences d.rule))) := by
  refine ⟨fun hoff => ?_, fun hon => ⟨?_, fun hlength => ?_⟩⟩
  · unfold diagnose
    rw [hoff]
    rfl
  · constructor
    · rintro ⟨e, he⟩
      by_contra hlength
      cases (diagnose_eq hon hlength s).symm.trans he
    · intro hlength
      have hfault : settings.lintConfig.fault? = some .zeroLineLength := by
        rw [fault?_lintConfig]
        exact if_pos hlength
      unfold diagnose
      rw [if_pos hon, Lint.run_of_fault hfault]
      exact ⟨_, rfl⟩
  · have henabled : settings.switchedOn.lint.enabled = true := hon
    refine ⟨_, _, diagnose_eq henabled hlength s, diagnose_eq hon hlength s, ?_⟩
    rw [maxDiagnostics_lintConfig, (Lint.stablySorted_iff.mpr rfl).perm.length_eq]
    intro hlimit
    -- a run that is cut off reports more than the limit
    have hkept : (Lint.kept settings.switchedOn.lintConfig s Rule.standard).length ≤ 10000 := by
      by_contra hmany
      rw [Lint.reported, if_neg hmany, List.length_append, List.length_take, List.length_singleton] at hlimit
      omega
    have hfewer : (Lint.kept settings.lintConfig s Rule.standard).length ≤ 10000 := by
      rw [kept_lintConfig]
      exact (List.length_filter_le _ _).trans hkept
    rw [Lint.reported, if_pos hfewer, Lint.reported, if_pos hkept, Lint.filter_sorted, kept_lintConfig]

end Settings

end RubyServer
