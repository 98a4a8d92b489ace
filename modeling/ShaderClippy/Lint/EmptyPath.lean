/-
  ShaderClippy.Lint.EmptyPath

  **DOES AN EMPTY PATH DISABLE THE OVERRIDES?**

  `lint` promises it; `severity_for` has no test for it and asks the matcher
  about the empty text like about any other. An override whose glob is made
  of nothing but stars (`Config.EmptyText`) applies.
-/
import ShaderClippy.Config.EmptyText
import ShaderClippy.Lint.Orchestrator

namespace ShaderClippy.Lint

/-- What the overrides with globs of nothing but stars set for a rule, in order. -/
def starSettings (config : Config) (ruleId : Text) : List RuleSeverity :=
  (config.overrides.filter fun entry => Config.starsOnly (Config.globComponents entry.pathGlob)).filterMap
    fun entry => entry.ruleSeverity.lookup ruleId

/-- A fold that keeps the last setting of a matching override. -/
theorem foldl_overrides (ruleId filePath : Text)
    {f : Option RuleSeverity → RuleOverride → Option RuleSeverity}
    (hf : ∀ sev entry, f sev entry =
      if Config.pathGlobMatch entry.pathGlob filePath then (entry.ruleSeverity.lookup ruleId).or sev
      else sev) (entries : List RuleOverride) :
    ∀ sev : Option RuleSeverity, entries.foldl f sev
        = (((entries.filter fun entry => Config.pathGlobMatch entry.pathGlob filePath).filterMap
            fun entry => entry.ruleSeverity.lookup ruleId).getLast?).or sev := by
  induction entries with
  | nil => intro sev; rfl
  | cons entry entries ih =>
      intro sev
      rw [List.foldl_cons, ih, hf]
      -- the last override that sets the rule wins
      by_cases hmatch : Config.pathGlobMatch entry.pathGlob filePath = true
      · simp only [hmatch, if_true, List.filter_cons]
        cases hset : entry.ruleSeverity.lookup ruleId with
        | none => simp only [List.filterMap_cons, hset, Option.none_or]
        | some s =>
            simp only [List.filterMap_cons, hset, List.getLast?_cons, Option.some_or]
            cases List.getLast? _ <;> rfl
      · simp only [hmatch, List.filter_cons]
        rfl

/-- The empty path is matched by the patterns made of stars only. -/
theorem severityFor_empty (config : Config) (ruleId : Text) :
    config.severityFor ruleId [] =
      (starSettings config ruleId).getLast?.or (config.ruleSeverity.lookup ruleId) := by
  unfold Config.severityFor starSettings
  rw [foldl_overrides ruleId [], Option.or_none]
  · simp only [Config.pathGlobMatch_empty]
    cases List.getLast? _ <;> rfl
  · intro sev entry
    cases entry.ruleSeverity.lookup ruleId <;> rfl

/-- **An empty path gives the lookup in the top-level table IF AND ONLY IF no
override with a glob of nothing but stars sets the rule, or the last one that
does sets what the table says.** -/
theorem severityFor_empty_iff (config : Config) (ruleId : Text) :
    config.severityFor ruleId [] = config.ruleSeverity.lookup ruleId ↔
      starSettings config ruleId = []
        ∨ (starSettings config ruleId).getLast? = config.ruleSeverity.lookup ruleId := by
  rw [severityFor_empty, ← List.getLast?_eq_none_iff]
  cases (starSettings config ruleId).getLast? with
  | none => simp
  | some s => simp

/-- `**` allows a rule in every file. -/
def allowEverywhere : Config :=
  ⟨[("r".toList, .deny)], [⟨"**".toList, [("r".toList, .allow)]⟩], .none⟩

/-- **The override applies to no file at all.** -/
theorem allowEverywhere_empty :
    allowEverywhere.severityFor "r".toList [] = some .allow
      ∧ allowEverywhere.ruleSeverity.lookup "r".toList = some .deny := by
  refine ⟨?_, by decide⟩
  rw [severityFor_empty]
  decide

end ShaderClippy.Lint
