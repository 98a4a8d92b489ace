/-
  ShaderClippy.Lint.Orchestrator

  **THE LINT ORCHESTRATOR** (`lint.cpp`).

  `run_rules` dispatches a rule set stage by stage and collects what the
  rules emit, in the order in which they emit it. A rule is what its hooks
  emit; the parser, the reflection engine and the IR engine are outside, so
  a run is given what they return (`LintEnv`).

  The stages are kept as separate lists (`stages`): one pass over the rules
  with the whole tree, one over the named nodes of the tree, reflection,
  control flow, IR, and last the malformed suppression comments.
-/
import ShaderClippy.Config.Glob
import ShaderClippy.ControlFlow.Engine
import ShaderClippy.Suppress.Comments

namespace ShaderClippy.Lint

open ControlFlow (ControlFlowInfo CfgCacheMap buildWithTree takeDiagnostics)
open Suppress (SuppressionSet ScanDiagnostic scan)

/-! ## §1. Configuration. -/

/-- `ExperimentalTarget`. -/
inductive ExperimentalTarget where
  | none
  | rdna4
  | blackwell
  | xe2
  deriving Repr, DecidableEq

/-- `RuleSeverity`. -/
inductive RuleSeverity where
  | allow
  | warn
  | deny
  deriving Repr, DecidableEq

/-- `RuleOverride`: the severities under a path glob. -/
structure RuleOverride where
  pathGlob : Text
  ruleSeverity : List (Text × RuleSeverity)
  deriving Repr, DecidableEq

/-- What the orchestrator reads of `Config`. -/
structure Config where
  ruleSeverity : List (Text × RuleSeverity)
  overrides : List RuleOverride
  experimentalTarget : ExperimentalTarget
  deriving Repr, DecidableEq

/-- `Config::severity_for`: overrides win over rules, later ones over
earlier. -/
def Config.severityFor (config : Config) (ruleId filePath : Text) : Option RuleSeverity :=
  let overrideSev := config.overrides.foldl
    (fun sev entry =>
      if Config.pathGlobMatch entry.pathGlob filePath then
        match entry.ruleSeverity.lookup ruleId with
        | some s => some s
        | none => sev
      else sev) none
  match overrideSev with
  | some sev => some sev
  | none => config.ruleSeverity.lookup ruleId

/-! ## §2. Rules. -/

/-- `Stage`. -/
inductive Stage where
  | ast
  | reflection
  | controlFlow
  | ir
  deriving Repr, DecidableEq

/-- What a hook sees of the run besides its argument. -/
structure RuleView where
  source : SourceId
  bytes : Text
  root : Node
  config : Option Config

/-- A rule: its stage, its target, and what each hook emits. -/
structure Rule (ReflectionInfo IrInfo : Type) where
  stage : Stage
  experimentalTarget : ExperimentalTarget
  onTree : RuleView → List Diagnostic
  onNode : RuleView → Node → List Diagnostic
  onReflection : RuleView → ReflectionInfo → List Diagnostic
  onCfg : RuleView → ControlFlowInfo → List Diagnostic
  onIr : RuleView → IrInfo → List Diagnostic

/-- `LintOptions`, as far as the orchestrator reads it. -/
structure LintOptions where
  enableReflection : Bool
  enableControlFlow : Bool
  enableIr : Bool
  deriving Repr, DecidableEq

/-- What the parser and the engines return in a run. A build without the IR
engine has its compiled-out notice for `ir`. -/
structure LintEnv (ReflectionInfo IrInfo : Type) where
  source : SourceId
  bytes : Text
  parsed : Option Node
  reflected : Except Diagnostic ReflectionInfo
  cfgCache : CfgCacheMap
  ir : Except Diagnostic IrInfo

variable {R I : Type}

/-- `experimental_target_enabled`. -/
def experimentalTargetEnabled (rule : Rule R I) (active : ExperimentalTarget) : Bool :=
  decide (rule.experimentalTarget = .none ∨ rule.experimentalTarget = active)

/-- The rules that a stage dispatches to. -/
def dispatched (rules : List (Rule R I)) (stage : Stage) (active : ExperimentalTarget) :
    List (Rule R I) :=
  rules.filter fun rule => decide (rule.stage = stage) && experimentalTargetEnabled rule active

/-! ## §3. The stages. -/

mutual
/-- The order of the cursor walk: a node, then its children. -/
def walkOrder : Node → List Node
  | .mk i cs => .mk i cs :: walkOrderAll cs

def walkOrderAll : List Node → List Node
  | [] => []
  | n :: ns => walkOrder n ++ walkOrderAll ns
end

/-- The declarative pass: `on_tree` of every rule. -/
def treePass (view : RuleView) (rules : List (Rule R I)) (active : ExperimentalTarget) :
    List Diagnostic :=
  (dispatched rules .ast active).flatMap fun rule => rule.onTree view

/-- `walk`: `on_node` of every rule, on every named node. -/
def walk (view : RuleView) (rules : List (Rule R I)) (active : ExperimentalTarget) :
    List Diagnostic :=
  ((walkOrder view.root).filter fun n => n.info.named).flatMap fun node =>
    (dispatched rules .ast active).flatMap fun rule => rule.onNode view node

/-- The reflection stage. -/
def reflectionStage (env : LintEnv R I) (view : RuleView) (rules : List (Rule R I))
    (options : LintOptions) (active : ExperimentalTarget) : List Diagnostic :=
  if options.enableReflection && !(dispatched rules .reflection active).isEmpty then
    match env.reflected with
    | .error diag => [diag]
    | .ok info =>
        (dispatched rules .reflection active).flatMap fun rule => rule.onReflection view info
  else []

/-- The control-flow stage: the rules, then the notices of the builder. -/
def controlFlowStage (env : LintEnv R I) (view : RuleView) (rules : List (Rule R I))
    (options : LintOptions) (active : ExperimentalTarget) : List Diagnostic :=
  if options.enableControlFlow && !(dispatched rules .controlFlow active).isEmpty then
    let (info, cache) := buildWithTree env.cfgCache env.source (some view.root) view.bytes
    match info with
    | .error diag => [diag]
    | .ok info =>
        ((dispatched rules .controlFlow active).flatMap fun rule => rule.onCfg view info)
          ++ takeDiagnostics cache env.source
  else []

/-- The IR stage. -/
def irStage (env : LintEnv R I) (view : RuleView) (rules : List (Rule R I))
    (options : LintOptions) (active : ExperimentalTarget) : List Diagnostic :=
  if options.enableIr && !(dispatched rules .ir active).isEmpty then
    match env.ir with
    | .error diag => [diag]
    | .ok info => (dispatched rules .ir active).flatMap fun rule => rule.onIr view info
  else []

/-- The diagnostic of a malformed suppression. -/
def malformedSuppression (source : SourceId) (sd : ScanDiagnostic) : Diagnostic :=
  ⟨"clippy::malformed-suppression".toList, .warning, ⟨source, ⟨sd.byteLo, sd.byteHi⟩⟩,
    sd.message, []⟩

/-- What `RuleContext::emit` lets through. -/
def emitted (suppressions : SuppressionSet) (ds : List Diagnostic) : List Diagnostic :=
  ds.filter fun d =>
    !suppressions.suppresses d.code d.primarySpan.bytes.lo d.primarySpan.bytes.hi

/-! ## §4. A run. -/

/-- The stages of a run that dispatch rules, each with what it emits. -/
def ruleStages (env : LintEnv R I) (rules : List (Rule R I)) (options : LintOptions)
    (config : Option Config) : List (List Diagnostic) :=
  match env.parsed with
  | none => []
  | some root =>
      let view : RuleView := ⟨env.source, env.bytes, root, config⟩
      let active := config.elim .none Config.experimentalTarget
      [treePass view rules active, walk view rules active,
        reflectionStage env view rules options active,
        controlFlowStage env view rules options active, irStage env view rules options active]

/-- The malformed suppressions of a run. -/
def malformedStage (env : LintEnv R I) : List Diagnostic :=
  match env.parsed with
  | none => []
  | some _ => (scan env.bytes).scanDiagnostics.map (malformedSuppression env.source)

/-- **`run_rules`.** -/
def runRules (env : LintEnv R I) (rules : List (Rule R I)) (options : LintOptions)
    (config : Option Config) : List Diagnostic :=
  (ruleStages env rules options config).flatMap (emitted (scan env.bytes)) ++ malformedStage env

/-- The severity that the configuration gives a diagnostic, or nothing when
it drops it. -/
def retag (config : Config) (filePath : Text) (diag : Diagnostic) : Option Diagnostic :=
  match config.severityFor diag.code filePath with
  | some .allow => none
  | some .warn => some { diag with severity := .warning }
  | some .deny => some { diag with severity := .error }
  | none => some diag

/-- What the configuration, if there is one, leaves of the diagnostics. -/
def configured (config : Option (Config × Text)) (ds : List Diagnostic) : List Diagnostic :=
  match config with
  | none => ds
  | some (config, filePath) => ds.filterMap (retag config filePath)

/-- **`lint`**, all overloads: without a configuration, and with one and the
path it is asked about. -/
def lint (env : LintEnv R I) (rules : List (Rule R I)) (options : LintOptions)
    (config : Option (Config × Text)) : List Diagnostic :=
  configured config (runRules env rules options (config.map Prod.fst))

end ShaderClippy.Lint
