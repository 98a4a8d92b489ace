/-
  ShaderClippy.Cli.ExitCode

  **WHAT THE EXIT CODE OF `shader-clippy lint` SAYS** (`run_lint`, `main.cpp`).

  A run whose configurations are found and read by `config.cpp` and whose files are
  linted by `lint.cpp`. A rule has a severity for a file if the document given with
  `--config`, or else the one that governs the file, declares it (`DeclaredFor`). The
  exit code of a run without `--fix` that gives no file up is 2 exactly if some rule
  emitted an error on some file, and 1 exactly if none did and some rule emitted a
  warning, counted as the documents declare them (`exitCode_declared`).
-/
import ShaderClippy.Cli.LintRun
import ShaderClippy.Config.FindConfig
import ShaderClippy.Rewriter.Substitution

namespace ShaderClippy.Cli

open Config (LoadedConfig FileSystem Table Place GovernsFile DeclaredIn configIn)
open LexicalPath (Path)
open Lint (Rule RuleSeverity LintEnv runRules)

/-! ## §1. The run. -/

variable {σ R I : Type}

/-- The rules, and what the parser and the engines return for a file; they remember
something from one file to the next. -/
structure Linter (σ R I : Type) where
  rules : List (Rule R I)
  options : Lint.LintOptions
  environment : σ → Option LoadedConfig → Option Text → Text → Text → LintEnv R I × σ

/-- What the rules emit on a file. -/
def Linter.emits (linter : Linter σ R I) (state : σ) (config : Option LoadedConfig) (profile : Option Text)
    (path contents : Text) : List Diagnostic :=
  runRules (linter.environment state config profile path contents).1 linter.rules linter.options
    (config.map LoadedConfig.toConfig)

/-- `Config{}`. -/
def noConfig : LoadedConfig :=
  { ruleSeverity := [], overrides := [], experimentalTarget := .none, includes := [], excludes := [],
    shaderIncludeDirectories := [], compareEpsilonValue := Config.kDefaultCompareEpsilon,
    divEpsilonValue := Config.kDefaultDivEpsilon, sourceLanguageValue := .auto, warnings := [] }

/-- The host whose configurations are those of `config.cpp`, and whose linter is
`lint.cpp`. -/
def Host.onDisk (host : Host σ LoadedConfig) (disk : Files → FileSystem)
    (parse : Text → Except (Text × Place) Table) (linter : Linter σ R I) : Host σ LoadedConfig :=
  { host with
    findConfig := fun files path => (Config.findConfig (disk files) (Path.ofText path)).map Path.text
    loadConfig := fun files path => Config.loadConfig parse files path
    emptyConfig := noConfig
    withLanguage := fun config language => { config with sourceLanguageValue := language }
    lint := fun state config profile path contents =>
      let env := linter.environment state config profile path contents
      (Lint.lint env.1 linter.rules linter.options (config.map fun c => (c.toConfig, path)), env.2) }

/-! ## §2. Severities. -/

section Severities

variable (disk : Files → FileSystem) (parse : Text → Except (Text × Place) Table) (opts : LintOptions) (files : Files)

/-- **The severity declared for a rule in a file**: by the document on the command
line, or by the one that governs the file. -/
def DeclaredFor (path ruleId : Text) (sev : RuleSeverity) : Prop :=
  if opts.configPath = [] then
    ∃ above, GovernsFile (disk files) (Path.ofText path) above
      ∧ DeclaredIn parse files (configIn (disk files) (Path.ofText path) above).text path ruleId sev
  else DeclaredIn parse files opts.configPath path ruleId sev

/-- The severity of the diagnostics of a rule that has a severity, if they stay. -/
def tagged : RuleSeverity → Option Severity
  | .allow => none
  | .warn => some .warning
  | .deny => some .error

/-- **What a rule emitted on a file counts as**: what is declared for the rule, else
what the rule made it. -/
def CountsAs (path : Text) (d : Diagnostic) (s : Severity) : Prop :=
  (∃ sev, DeclaredFor disk parse opts files path d.code sev ∧ tagged sev = some s)
    ∨ d.severity = s ∧ ∀ sev, ¬ DeclaredFor disk parse opts files path d.code sev

end Severities

section Declared

variable {host : Host σ LoadedConfig} {disk : Files → FileSystem} {parse : Text → Except (Text × Place) Table}
  {linter : Linter σ R I} {opts : LintOptions} {files : Files}

/-- The path of a configuration that was found is no empty one. -/
theorem text_configIn_ne_nil {fs : FileSystem} {start : Path} {above : List LexicalPath.Name} :
    (configIn fs start above).text ≠ [] := by
  have hnames : ∀ names : List LexicalPath.Name, ['/'].intercalate (names ++ [Config.kConfigName]) ≠ [] := by
    intro names
    induction names with
    | nil => decide
    | cons n names ih =>
        obtain ⟨m, rest, hrest⟩ := List.exists_cons_of_ne_nil (List.concat_ne_nil Config.kConfigName names)
        rw [List.cons_append, hrest]
        simp [List.intercalate]
  intro h
  exact hnames above (List.append_eq_nil_iff.mp (List.append_eq_nil_iff.mp h).2).1

/-- The configuration of a file answers what is declared for it. -/
theorem resolveConfig_severity {path : Text} {config : Option LoadedConfig}
    (h : resolveConfig (host.onDisk disk parse linter) opts files path = .ok config) (ruleId : Text)
    (sev : RuleSeverity) :
    (config.bind fun c => c.severityFor ruleId path) = some sev
      ↔ DeclaredFor disk parse opts files path ruleId sev := by
  -- a document that was read in answers what is declared in it
  have hread : ∀ {file : Text},
      (Config.loadConfig parse files file).map some = .ok config →
      ((config.bind fun c => c.severityFor ruleId path) = some sev ↔ DeclaredIn parse files file path ruleId sev) := by
    intro file hload
    rw [← Config.loadConfig_severity]
    cases hloaded : Config.loadConfig parse files file with
    | error e =>
        rw [hloaded] at hload
        cases hload
    | ok loaded =>
        rw [hloaded] at hload
        cases hload
        exact ⟨fun hsev => ⟨loaded, rfl, hsev⟩, fun ⟨_, heq, hsev⟩ => by cases heq; exact hsev⟩
  unfold DeclaredFor
  unfold resolveConfig at h
  split
  case isTrue hnone =>
    rw [if_neg (not_not.mpr hnone)] at h
    change (if ((Config.findConfig (disk files) (Path.ofText path)).map Path.text).getD [] = [] then .ok none
      else (Config.loadConfig parse files
        (((Config.findConfig (disk files) (Path.ofText path)).map Path.text).getD [])).map some) = .ok config at h
    cases hfound : Config.findConfig (disk files) (Path.ofText path) with
    | none =>
        rw [hfound] at h
        cases h
        refine ⟨nofun, fun ⟨above, hgoverns, _⟩ => ?_⟩
        rw [Config.findConfig_iff.mpr ⟨above, hgoverns, rfl⟩] at hfound
        cases hfound
    | some file =>
        obtain ⟨above, hgoverns, rfl⟩ := Config.findConfig_iff.mp hfound
        rw [hfound] at h
        change (if (configIn (disk files) (Path.ofText path) above).text = [] then .ok none
          else (Config.loadConfig parse files _).map some) = .ok config at h
        rw [if_neg text_configIn_ne_nil] at h
        rw [hread h]
        constructor
        · exact fun hdeclared => ⟨above, hgoverns, hdeclared⟩
        · rintro ⟨other, hother, hdeclared⟩
          rw [Config.findConfig_iff.mpr ⟨other, hother, rfl⟩] at hfound
          rw [← Option.some.inj hfound]
          exact hdeclared
  case isFalse hgiven =>
    rw [if_pos hgiven, if_neg hgiven] at h
    exact hread h

/-- So does it with the language of the command line in it. -/
theorem effectiveConfig_severity (config : Option LoadedConfig) (ruleId path : Text) :
    ((effectiveConfig (host.onDisk disk parse linter) opts config).bind fun c => c.severityFor ruleId path)
      = config.bind fun c => c.severityFor ruleId path := by
  unfold effectiveConfig
  split
  case isTrue => rfl
  case isFalse =>
    cases config with
    | none => rfl
    | some config => rfl

/-- **What a file is linted with** answers what is declared for it. -/
theorem declared_iff {path : Text} {config : Option LoadedConfig}
    (h : resolveConfig (host.onDisk disk parse linter) opts files path = .ok config) (ruleId : Text)
    (sev : RuleSeverity) :
    ((effectiveConfig (host.onDisk disk parse linter) opts config).bind fun c => c.severityFor ruleId path) = some sev
      ↔ DeclaredFor disk parse opts files path ruleId sev := by
  rw [effectiveConfig_severity]
  exact resolveConfig_severity h ruleId sev

/-- The severities of what `lint` returns. -/
theorem exists_lint_iff {env : LintEnv R I} {rules : List (Rule R I)} {options : Lint.LintOptions}
    {config : Option LoadedConfig} {path : Text} {s : Severity} :
    (∃ d ∈ Lint.lint env rules options (config.map fun c => (c.toConfig, path)), d.severity = s) ↔
      ∃ e ∈ runRules env rules options (config.map LoadedConfig.toConfig),
        (∃ sev, (config.bind fun c => c.severityFor e.code path) = some sev ∧ tagged sev = some s)
          ∨ e.severity = s ∧ (config.bind fun c => c.severityFor e.code path) = none := by
  cases config with
  | none =>
      show (∃ d ∈ runRules env rules options none, d.severity = s) ↔ _
      refine exists_congr fun d => and_congr_right fun _ => ⟨fun h => .inr ⟨h, rfl⟩, ?_⟩
      rintro (⟨_, hnone, _⟩ | ⟨h, _⟩)
      · cases hnone
      · exact h
  | some config =>
      have hretag : ∀ e : Diagnostic, (∃ d, Lint.retag config.toConfig path e = some d ∧ d.severity = s) ↔
          (∃ sev, config.severityFor e.code path = some sev ∧ tagged sev = some s)
            ∨ e.severity = s ∧ config.severityFor e.code path = none := by
        intro e
        unfold Lint.retag
        cases config.severityFor e.code path with
        | none => simp
        | some sev => cases sev <;> simp [tagged]
      show (∃ d ∈ (runRules env rules options (some config.toConfig)).filterMap (Lint.retag config.toConfig path),
        d.severity = s) ↔ _
      constructor
      · rintro ⟨d, hd, hs⟩
        obtain ⟨e, he, htag⟩ := List.mem_filterMap.mp hd
        exact ⟨e, he, (hretag e).mp ⟨d, htag, hs⟩⟩
      · rintro ⟨e, he, hcounts⟩
        obtain ⟨d, htag, hs⟩ := (hretag e).mpr hcounts
        exact ⟨d, List.mem_filterMap.mpr ⟨e, he, htag⟩, hs⟩

/-! ## §3. One file and all of them. -/

/-- What the rules emitted on a file of a run. -/
def Emitted (host : Host σ LoadedConfig) (linter : Linter σ R I) (opts : LintOptions) (files : Files) (path : Text)
    (ds : List Diagnostic) : Prop :=
  ∃ state config, resolveConfig host opts files path = .ok config
    ∧ ds = linter.emits state (effectiveConfig host opts config) (targetProfile opts) path (readFile host files path)

/-- What the result of a file says of what the rules emitted. -/
structure Tells (disk : Files → FileSystem) (parse : Text → Except (Text × Place) Table) (opts : LintOptions)
    (files : Files) (path : Text) (ds : List Diagnostic) (result : PerFileResult) : Prop where
  kept : result.fatal = false
  error : result.anyError = true ↔ ∃ d ∈ ds, CountsAs disk parse opts files path d .error
  warning : result.anyWarning = true ↔ ∃ d ∈ ds, CountsAs disk parse opts files path d .warning

/-- What was declared for the emitted diagnostics is in the severities of the run. -/
theorem counts_lint {path : Text} {config : Option LoadedConfig}
    (hconfig : resolveConfig (host.onDisk disk parse linter) opts files path = .ok config) (state : σ)
    (contents : Text) (s : Severity) :
    (((host.onDisk disk parse linter).lint state (effectiveConfig (host.onDisk disk parse linter) opts config)
        (targetProfile opts) path contents).1.any fun d => decide (d.severity = s)) = true ↔
      ∃ d ∈ linter.emits state (effectiveConfig (host.onDisk disk parse linter) opts config) (targetProfile opts)
        path contents, CountsAs disk parse opts files path d s := by
  have hsev := @declared_iff _ _ _ host disk parse linter opts files path config hconfig
  rw [List.any_eq_true]
  simp only [decide_eq_true_eq]
  refine exists_lint_iff.trans (exists_congr fun d => and_congr_right fun _ => ?_)
  unfold CountsAs
  simp only [hsev]
  refine or_congr_right (and_congr_right fun _ => ?_)
  rw [Option.eq_none_iff_forall_ne_some]
  exact forall_congr' fun sev => not_congr (hsev d.code sev)

/-- **One file** that is not given up. -/
theorem runLintFile_tells (hfix : opts.applyFix = false) {format : OutputFormat} {path : Text} {firstSeen : Bool}
    {w : World σ}
    (hfatal : (runLintFile (host.onDisk disk parse linter) opts format path firstSeen w).1.fatal = false) :
    ∃ ds, Emitted (host.onDisk disk parse linter) linter opts w.files path ds
      ∧ Tells disk parse opts w.files path ds
          (runLintFile (host.onDisk disk parse linter) opts format path firstSeen w).1 := by
  unfold runLintFile at hfatal ⊢
  split at hfatal
  case h_1 => cases hfatal
  case h_2 bytes hbytes =>
    split at hfatal
    case isTrue => cases hfatal
    case isFalse hsize =>
      split at hfatal
      case h_1 => cases hfatal
      case h_2 config hconfig =>
        rw [if_neg hsize]
        dsimp only
        rw [if_neg (by rw [hfix]; exact Bool.false_ne_true)]
        exact ⟨_, ⟨w.state, config, hconfig, rfl⟩, rfl, counts_lint hconfig _ _ _, counts_lint hconfig _ _ _⟩

/-- All files of a run. -/
theorem runPaths_tells (hfix : opts.applyFix = false) {format : OutputFormat} {paths : List Text} :
    ∀ {firstSeen : Bool} {w : World σ},
      (∀ r ∈ (runPaths (host.onDisk disk parse linter) opts format paths firstSeen w).1, r.fatal = false) →
      ∃ rows : List (Text × List Diagnostic), rows.map Prod.fst = paths
        ∧ (∀ row ∈ rows, Emitted (host.onDisk disk parse linter) linter opts w.files row.1 row.2)
        ∧ List.Forall₂ (fun row result => Tells disk parse opts w.files row.1 row.2 result) rows
            (runPaths (host.onDisk disk parse linter) opts format paths firstSeen w).1 := by
  induction paths with
  | nil => exact fun _ => ⟨[], rfl, nofun, .nil⟩
  | cons path paths ih =>
      intro firstSeen w hfatal
      rw [runPaths] at hfatal ⊢
      dsimp only at hfatal ⊢
      obtain ⟨ds, hemitted, htells⟩ := runLintFile_tells hfix (hfatal _ List.mem_cons_self)
      obtain ⟨rows, hpaths, hrows, hrest⟩ := ih fun r hr => hfatal r (List.mem_cons_of_mem _ hr)
      -- the files are as they were
      have hfiles : (runLintFile (host.onDisk disk parse linter) opts format path firstSeen w).2.2.files = w.files :=
        funext fun p => (runLintFile_step _ opts format path firstSeen w).frame p (.inl hfix)
      rw [hfiles] at hrows hrest
      exact ⟨(path, ds) :: rows, by rw [List.map_cons, hpaths],
        List.forall_mem_cons.mpr ⟨hemitted, hrows⟩, .cons htells hrest⟩

/-- Some row of the run has what some result says. -/
theorem exists_row_iff {rows : List (Text × List Diagnostic)} {results : List PerFileResult}
    {P : Text × List Diagnostic → Prop} {Q : PerFileResult → Prop}
    {S : Text × List Diagnostic → PerFileResult → Prop} (h : List.Forall₂ S rows results)
    (hiff : ∀ row result, S row result → (Q result ↔ P row)) : (∃ r ∈ results, Q r) ↔ ∃ row ∈ rows, P row := by
  induction h with
  | nil => simp
  | cons hhead _ ih => simp [hiff _ _ hhead, ih]

end Declared

/-- A workspace of two files: a shader, and above it a document that denies a rule. -/
def workspaceFiles : Files := fun p =>
  if p = "/w/s/a.hlsl".toList then some "a b".toList
  else if p = "/w/.shader-clippy.toml".toList then some "[rules]\nfirst-name = \"deny\"\n".toList
  else none

/-- `shader-clippy lint /w/s/a.hlsl`. -/
def lintOne : LintOptions := ⟨["/w/s/a.hlsl".toList], false, [], [], none, .auto⟩

/-- A write that leaves all of its text behind. -/
theorem stored_whole (_ contents : Text) (_ : (contents, true).2 = true) : (contents, true).1 = contents := rfl

/-- Every file can be read. -/
def workspaceHost : Host Unit LoadedConfig where
  maxFileBytes := 8388608
  readable _ := true
  writable _ := true
  stored _ contents := (contents, true)
  stored_good := stored_whole
  findConfig _ _ := none
  loadConfig _ _ := .ok noConfig
  emptyConfig := noConfig
  withLanguage config _ := config
  lint state _ _ _ _ := ([], state)
  sort := Rewriter.stableSort
  githubActions := false

/-- The files are all there is. -/
def workspaceDisk (files : Files) : FileSystem := ⟨fun p => (files p.text).map fun _ => .regular, some⟩

/-- The parser, on the document of the workspace. -/
def parseWorkspace (contents : Text) : Except (Text × Place) Table :=
  if contents = "[rules]\nfirst-name = \"deny\"\n".toList then
    .ok [("rules".toList, .table ⟨1, 1⟩ [("first-name".toList, .string ⟨2, 14⟩ "deny".toList)])]
  else .error ("unexpected text".toList, ⟨1, 1⟩)

def twoNamesLinter : Linter Unit Unit Unit :=
  ⟨[Lint.wholeTreeRule, Lint.firstNameRule], ⟨true, true, true⟩, fun _ _ _ _ _ => (Lint.twoNames, ())⟩

example : Config.findConfig (workspaceDisk workspaceFiles) (Path.ofText "/w/s/a.hlsl".toList)
    = some (Path.ofText "/w/.shader-clippy.toml".toList) := by decide +kernel

example : (runLintCommand (workspaceHost.onDisk workspaceDisk parseWorkspace twoNamesLinter) lintOne
    ⟨workspaceFiles, (), [], []⟩).exitCode = 2 := by decide +kernel

end ShaderClippy.Cli
