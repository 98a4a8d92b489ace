/-
  ShaderClippy.Config.Declared

  **WHAT A DOCUMENT SAYS OF A RULE** (`config.cpp`, `severity_for`; `lint.cpp`).

  A document declares a severity for a rule at a path: the last entry of
  `[[overrides]]` whose path glob matches and which names the rule, else `[rules]`
  (`Declares`). That is what the loaded configuration answers (`severityFor_iff`), so
  a run drops what the document allows, makes errors of what it denies and warnings of
  what it warns of, and leaves the rest as the rules emitted it (`lint_declared`).
-/
import ShaderClippy.Config.Loader
import ShaderClippy.Lint.DocumentOrder

namespace ShaderClippy.Config

open Lint (RuleSeverity RuleOverride Rule LintEnv LintOptions lint runRules)

/-! ## §1. Documents. -/

/-- The severity a table of rules has for a rule. -/
def declaredIn (table : Table) (ruleId : Text) : Option RuleSeverity :=
  match getKey table ruleId with
  | some (.string _ text) => parseRuleSeverity text
  | _ => none

/-- The table under a key, or an empty one. -/
def tableUnder (table : Table) (key : Text) : Table :=
  match getKey table key with
  | some (.table _ entries) => entries
  | _ => []

def Toml.asTable : Toml → Option Table
  | .table _ entries => some entries
  | _ => none

/-- The entries of `[[overrides]]`. -/
def overrideTables (root : Table) : List Table :=
  match getKey root "overrides".toList with
  | some (.array _ elements) => elements.filterMap Toml.asTable
  | _ => []

/-- Does the path glob of an override match? -/
def appliesTo (table : Table) (path : Text) : Bool :=
  match getKey table "path".toList with
  | some (.string _ glob) => pathGlobMatch glob path
  | _ => false

/-- What an override says of a rule at a path. -/
def overrideSetting (ruleId path : Text) (table : Table) : Option RuleSeverity :=
  if appliesTo table path then declaredIn (tableUnder table "rules".toList) ruleId else none

/-- **The severity the document declares.** -/
inductive Declares (root : Table) (ruleId path : Text) : RuleSeverity → Prop
  | override {sev : RuleSeverity} {earlier later : List Table} {table : Table}
      (split : overrideTables root = earlier ++ table :: later) (applies : appliesTo table path = true)
      (named : declaredIn (tableUnder table "rules".toList) ruleId = some sev)
      (last : ∀ t ∈ later, overrideSetting ruleId path t = none) : Declares root ruleId path sev
  | rules {sev : RuleSeverity} (silent : ∀ t ∈ overrideTables root, overrideSetting ruleId path t = none)
      (named : declaredIn (tableUnder root "rules".toList) ruleId = some sev) : Declares root ruleId path sev

/-! ## §2. Configurations. -/

section Loaded

variable {source : Text} {root : Table} {config : LoadedConfig}

/-- What `parse_root` does. -/
theorem parseRoot_parts (h : parseRoot source root = .ok config) :
    rulesSection source root = .ok config.ruleSeverity ∧ overridesSection source root = .ok config.overrides
      ∧ (∃ texts, stringList source root "shader".toList "include-directories".toList = .ok texts
        ∧ config.shaderIncludeDirectories
          = texts.map fun text => resolveConfigRelativePath text (LexicalPath.Path.ofText source))
      ∧ ∃ warnings, floatSection source root = .ok (config.compareEpsilonValue, config.divEpsilonValue, warnings) := by
  unfold parseRoot at h
  obtain ⟨rules, hrules, h⟩ := Checked.bind_eq_ok.mp h
  obtain ⟨includes, _, h⟩ := Checked.bind_eq_ok.mp h
  obtain ⟨excludes, _, h⟩ := Checked.bind_eq_ok.mp h
  obtain ⟨texts, htexts, h⟩ := Checked.bind_eq_ok.mp h
  obtain ⟨⟨compare, div, warnings⟩, hfloat, h⟩ := Checked.bind_eq_ok.mp h
  obtain ⟨language, _, h⟩ := Checked.bind_eq_ok.mp h
  obtain ⟨target, _, h⟩ := Checked.bind_eq_ok.mp h
  obtain ⟨overrides, hoverrides, h⟩ := Checked.bind_eq_ok.mp h
  cases h
  exact ⟨hrules, hoverrides, ⟨texts, htexts, rfl⟩, warnings, hfloat⟩

/-- Severities are read as they are declared. -/
theorem lookup_severities {notString : Text → Text} {invalid : Text → Text → Text} {table : Table}
    {severities : List (Text × RuleSeverity)}
    (h : table.mapM (severityEntry source notString invalid) = .ok severities) (ruleId : Text) :
    severities.lookup ruleId = declaredIn table ruleId := by
  -- entry by entry: what is looked up on one side is looked up on the other
  have hentries := Checked.forall₂_of_mapM h
  clear h
  induction hentries with
  | nil => rfl
  | @cons entry severity table severities hentry _ ih =>
      obtain ⟨key, value⟩ := entry
      unfold severityEntry at hentry
      split at hentry
      case h_2 => cases hentry
      case h_1 place text hvalue =>
        split at hentry
        case h_2 => cases hentry
        case h_1 sev hsev =>
          cases hentry
          change value = .string place text at hvalue
          unfold declaredIn getKey
          rw [List.lookup_cons, List.lookup_cons, hvalue]
          cases hkey : ruleId == key with
          | true => exact hsev.symm
          | false => exact ih

/-- What a loaded override says of a rule at a path. -/
def entrySetting (ruleId path : Text) (entry : RuleOverride) : Option RuleSeverity :=
  if pathGlobMatch entry.pathGlob path then entry.ruleSeverity.lookup ruleId else none

/-- An override says what its table says. -/
theorem setting_overrideEntry {value : Toml} {entry : RuleOverride} (h : overrideEntry source value = .ok entry)
    (ruleId path : Text) :
    ∃ table, value.asTable = some table ∧ entrySetting ruleId path entry = overrideSetting ruleId path table := by
  unfold overrideEntry at h
  split at h
  case h_2 => cases h
  case h_1 place table =>
    obtain ⟨glob, hglob, h⟩ := Checked.bind_eq_ok.mp h
    obtain ⟨rules, hrules, h⟩ := Checked.bind_eq_ok.mp h
    cases h
    have happlies : appliesTo table path = pathGlobMatch glob path := by
      unfold overridePath at hglob
      unfold appliesTo
      split at hglob
      case h_1 => cases hglob
      case h_2 place text hget =>
        cases hglob
        rw [hget]
      case h_3 => cases hglob
    -- an override without rules declares nothing, and neither does an empty list
    have hsays : rules.lookup ruleId = declaredIn (tableUnder table "rules".toList) ruleId := by
      unfold overrideRules at hrules
      unfold tableUnder
      split at hrules
      case h_1 hget =>
        cases hrules
        rw [hget]
        rfl
      case h_2 place entries hget =>
        rw [hget]
        exact lookup_severities hrules ruleId
      case h_3 => cases hrules
    refine ⟨table, rfl, ?_⟩
    unfold overrideSetting entrySetting
    rw [happlies, ← hsays]

theorem settings_overrides {overrides : List RuleOverride} (h : overridesSection source root = .ok overrides)
    (ruleId path : Text) :
    overrides.map (entrySetting ruleId path) = (overrideTables root).map (overrideSetting ruleId path) := by
  unfold overridesSection at h
  unfold overrideTables
  split at h
  case h_1 hget =>
    rw [hget, ← Except.ok.inj h]
    rfl
  case h_2 place elements hget =>
    rw [hget]
    have hentries := Checked.forall₂_of_mapM h
    clear h hget
    induction hentries with
    | nil => rfl
    | cons hentry _ ih =>
        -- every entry that was accepted is a table, so none is left out
        obtain ⟨table, htable, hsetting⟩ := setting_overrideEntry hentry ruleId path
        rw [List.map_cons, hsetting, ih]
        show _ = List.map _ (List.filterMap _ (_ :: _))
        rw [List.filterMap_cons, htable]
        rfl
  case h_3 => cases h

/-- The rules of the root. -/
theorem lookup_rulesSection (h : rulesSection source root = .ok config.ruleSeverity) (ruleId : Text) :
    config.ruleSeverity.lookup ruleId = declaredIn (tableUnder root "rules".toList) ruleId := by
  unfold rulesSection at h
  obtain ⟨found, hfound, h⟩ := Checked.bind_eq_ok.mp h
  unfold tableUnder
  obtain ⟨rfl, hget⟩ | ⟨place, table, rfl, hget⟩ := sectionTable_eq hfound
  · rw [hget, ← Except.ok.inj h]
    rfl
  · rw [hget]
    exact lookup_severities h ruleId

/-- `severity_for`, as a row of settings. -/
theorem severityFor_eq (config : Lint.Config) (ruleId path : Text) :
    config.severityFor ruleId path
      = (config.overrides.foldl (fun acc entry => (entrySetting ruleId path entry).or acc) none).or
        (config.ruleSeverity.lookup ruleId) := by
  have hfold : ∀ f : Option RuleSeverity → RuleOverride → Option RuleSeverity,
      (∀ acc entry, f acc entry = (entrySetting ruleId path entry).or acc) →
      config.overrides.foldl f none
        = config.overrides.foldl (fun acc entry => (entrySetting ruleId path entry).or acc) none := by
    intro f hf
    rw [funext fun acc => funext (hf acc)]
  unfold Lint.Config.severityFor
  rw [hfold]
  · dsimp only
    cases config.overrides.foldl (fun acc entry => (entrySetting ruleId path entry).or acc) none <;> rfl
  · intro acc entry
    unfold entrySetting
    split
    · cases entry.ruleSeverity.lookup ruleId <;> rfl
    · rfl

/-- The overrides of the document, in place of those of the configuration. -/
theorem foldl_overrides {overrides : List RuleOverride} (h : overridesSection source root = .ok overrides)
    (ruleId path : Text) :
    overrides.foldl (fun acc entry => (entrySetting ruleId path entry).or acc) none
      = (overrideTables root).foldl (fun acc t => (overrideSetting ruleId path t).or acc) none := by
  have hmap : ∀ {α : Type} (l : List α) (setting : α → Option RuleSeverity),
      l.foldl (fun acc a => (setting a).or acc) none = (l.map setting).foldl (fun acc s => s.or acc) none := by
    intro α l setting
    rw [List.foldl_map]
  rw [hmap, settings_overrides h ruleId path, ← hmap]

/-- **`severity_for` answers what the document declares.** -/
theorem severityFor_iff (h : parseRoot source root = .ok config) (ruleId path : Text) (sev : RuleSeverity) :
    config.severityFor ruleId path = some sev ↔ Declares root ruleId path sev := by
  obtain ⟨hrules, hoverrides, _, _⟩ := parseRoot_parts h
  have hset : ∀ {t : Table}, appliesTo t path = true →
      overrideSetting ruleId path t = declaredIn (tableUnder t "rules".toList) ruleId := fun happlies => if_pos happlies
  rw [severityFor_eq, foldl_overrides hoverrides, lookup_rulesSection hrules]
  constructor
  · intro hsev
    -- the last override that names the rule decides, and without one the rules of the root
    cases hfound : (overrideTables root).foldl (fun acc t => (overrideSetting ruleId path t).or acc) none with
    | none =>
        rw [hfound, Option.none_or] at hsev
        exact .rules (Checked.foldl_override_eq_none.mp hfound) hsev
    | some found =>
        rw [hfound, Option.some_or] at hsev
        cases hsev
        obtain ⟨earlier, t, later, hsplit, ht, hlater⟩ := Checked.foldl_override_eq_some.mp hfound
        have happlies : appliesTo t path = true := by
          unfold overrideSetting at ht
          split at ht
          · assumption
          · cases ht
        rw [hset happlies] at ht
        exact .override hsplit happlies ht hlater
  · intro hd
    cases hd with
    | override split applies named last =>
        rw [Checked.foldl_override_eq_some.mpr ⟨_, _, _, split, (hset applies).trans named, last⟩]
        rfl
    | rules silent named =>
        rw [Checked.foldl_override_eq_none.mpr silent, Option.none_or, named]

end Loaded

/-! ## §3. Runs. -/

variable {R I : Type}

/-- **What the document declares becomes of the diagnostics of a run.** -/
theorem lint_declared {source : Text} {root : Table} {config : LoadedConfig}
    (h : parseRoot source root = .ok config) (env : LintEnv R I) (rules : List (Rule R I)) (options : LintOptions)
    (path : Text) (d : Diagnostic) :
    d ∈ lint env rules options (some (config.toConfig, path)) ↔
      ∃ emitted ∈ runRules env rules options (some config.toConfig),
        (d = emitted ∧ ∀ sev, ¬ Declares root emitted.code path sev)
          ∨ (d = { emitted with severity := .warning } ∧ Declares root emitted.code path .warn)
          ∨ (d = { emitted with severity := .error } ∧ Declares root emitted.code path .deny) := by
  have hretag : ∀ emitted : Diagnostic, Lint.retag config.toConfig path emitted = some d ↔
      (d = emitted ∧ ∀ sev, ¬ Declares root emitted.code path sev)
        ∨ (d = { emitted with severity := .warning } ∧ Declares root emitted.code path .warn)
        ∨ (d = { emitted with severity := .error } ∧ Declares root emitted.code path .deny) := by
    intro emitted
    unfold Lint.retag
    simp only [← severityFor_iff h]
    cases hsev : config.severityFor emitted.code path with
    | none => simp [eq_comm]
    | some sev => cases sev <;> simp [eq_comm]
  show d ∈ (runRules env rules options (some config.toConfig)).filterMap (Lint.retag config.toConfig path) ↔ _
  rw [List.mem_filterMap]
  exact exists_congr fun emitted => and_congr_right fun _ => hretag emitted

/-- A document that denies one rule, and allows another one below a directory. -/
def deniedRoot : Table :=
  [("overrides".toList, .array ⟨3, 1⟩ [.table ⟨3, 1⟩
      [("path".toList, .string ⟨4, 8⟩ "shaders/**".toList),
       ("rules".toList, .table ⟨5, 9⟩ [("whole-tree".toList, .string ⟨5, 24⟩ "allow".toList)])]]),
   ("rules".toList, .table ⟨1, 1⟩ [("first-name".toList, .string ⟨2, 14⟩ "deny".toList)])]

theorem lint_declared_denied :
    ∃ config, parseRoot [] deniedRoot = .ok config ∧ ∀ d,
      d ∈ lint Lint.twoNames [Lint.wholeTreeRule, Lint.firstNameRule] ⟨true, true, true⟩
          (some (config.toConfig, "shaders/a.hlsl".toList)) ↔
        ∃ emitted ∈ runRules Lint.twoNames [Lint.wholeTreeRule, Lint.firstNameRule] ⟨true, true, true⟩
            (some config.toConfig),
          (d = emitted ∧ ∀ sev, ¬ Declares deniedRoot emitted.code "shaders/a.hlsl".toList sev)
            ∨ (d = { emitted with severity := .warning }
              ∧ Declares deniedRoot emitted.code "shaders/a.hlsl".toList .warn)
            ∨ (d = { emitted with severity := .error }
              ∧ Declares deniedRoot emitted.code "shaders/a.hlsl".toList .deny) :=
  ⟨_, rfl, lint_declared rfl Lint.twoNames _ _ "shaders/a.hlsl".toList⟩

end ShaderClippy.Config
