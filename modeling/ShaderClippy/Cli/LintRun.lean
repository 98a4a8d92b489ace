/-
  ShaderClippy.Cli.LintRun

  **A RUN OF `shader-clippy lint`** (`run_lint_one`, `run_lint`, `main.cpp`).

  The program takes its paths one after another: it reads the file, finds its
  configuration, lints it, prints what was found, and with `--fix` hands the
  machine-applicable fixes to the rewriter and writes the file back. The files,
  what the linter remembers from one file to the next and the two output streams
  are the state of the run; what is outside of the program is a `Host`.

  Only the files on the command line are ever written, and only with `--fix`; what
  they hold at the end has been made by passes, each over the text that was linted
  (`runLint_files`).
-/
import ShaderClippy.Cli.HumanOutput
import ShaderClippy.Config.Loader
import ShaderClippy.Rewriter.Def
import Mathlib.Logic.Relation

namespace ShaderClippy.Cli

open Config (ConfigError)

/-! ## §1. Options and files. -/

/-- `OutputFormat`. -/
inductive OutputFormat where
  | human
  | json
  | githubAnnotations
  deriving Repr, DecidableEq

/-- `LintOptions` of the command line. -/
structure LintOptions where
  paths : List Text
  applyFix : Bool
  configPath : Text
  targetProfile : Text
  format : Option OutputFormat
  sourceLanguage : SourceLanguage
  deriving Repr, DecidableEq

/-- The regular files, by their paths. -/
abbrev Files := Text → Option Text

/-- What is outside of the program: which files can be opened, what a write leaves
behind and whether the stream is good after it, where a configuration is found, how
it is read, what `lint` returns (it remembers something from call to call), and the
sort of the standard library. -/
structure Host (σ κ : Type) where
  maxFileBytes : Nat
  readable : Text → Bool
  writable : Text → Bool
  stored : Text → Text → Text × Bool
  stored_good : ∀ path contents, (stored path contents).2 = true → (stored path contents).1 = contents
  findConfig : Files → Text → Option Text
  loadConfig : Files → Text → Except ConfigError κ
  emptyConfig : κ
  withLanguage : κ → SourceLanguage → κ
  lint : σ → Option κ → Option Text → Text → Text → List Diagnostic × σ
  sort : Rewriter.DescendingSort Char
  githubActions : Bool

/-- The state of a run. -/
structure World (σ : Type) where
  files : Files
  state : σ
  out : Text
  err : Text

/-- `PerFileResult`. -/
structure PerFileResult where
  anyWarning : Bool
  anyError : Bool
  fatal : Bool
  diagCount : Nat
  deriving Repr, DecidableEq

variable {σ κ : Type}

/-! ## §2. One file. -/

/-- `read_file`. -/
def readFile (host : Host σ κ) (files : Files) (path : Text) : Text :=
  if host.readable path then (files path).getD [] else []

/-- `write_file`. -/
def writeFile (host : Host σ κ) (files : Files) (path contents : Text) : Files × Bool :=
  if host.writable path then
    (fun p => if p = path then some (host.stored path contents).1 else files p, (host.stored path contents).2)
  else (files, false)

/-- `collect_fixes`: what is machine-applicable, with the priority of its
diagnostic. -/
def collectFixes (diagnostics : List Diagnostic) : List (Rewriter.PrioritisedFix Char) :=
  diagnostics.flatMap fun d =>
    (d.fixes.filter fun f => f.machineApplicable).map fun f => ⟨⟨d.severity, d.code⟩, f⟩

/-- The configuration of a file: the one given, or the one found. -/
def resolveConfig (host : Host σ κ) (opts : LintOptions) (files : Files) (path : Text) :
    Except ConfigError (Option κ) :=
  let resolved := if opts.configPath ≠ [] then opts.configPath else (host.findConfig files path).getD []
  if resolved = [] then .ok none else (host.loadConfig files resolved).map some

/-- `effective_config`: a language on the command line goes into the
configuration. -/
def effectiveConfig (host : Host σ κ) (opts : LintOptions) (config : Option κ) : Option κ :=
  if opts.sourceLanguage = .auto then config
  else some (host.withLanguage (config.getD host.emptyConfig) opts.sourceLanguage)

/-- The target profile, if there is one. -/
def targetProfile (opts : LintOptions) : Option Text :=
  if opts.targetProfile = [] then none else some opts.targetProfile

/-- What is printed for the diagnostics of a file, and `json_first_seen` behind
it. -/
def report (format : OutputFormat) (sources : SourceManager) (firstSeen : Bool) (diagnostics : List Diagnostic) :
    Bool × Text :=
  match format with
  | .json =>
      let p := diagnostics.foldl (printDiagnostic sources) ⟨firstSeen, []⟩
      (p.firstSeen, p.out)
  | .githubAnnotations => (firstSeen, diagnostics.flatMap fun d => renderGithubAnnotationLine d sources)
  | .human => (firstSeen, diagnostics.flatMap fun d => renderDiagnostic d sources)

def fatalResult : PerFileResult := ⟨false, false, true, 0⟩

/-- What `--fix` says about a fix that was dropped. -/
def conflictNote (path : Text) (c : Rewriter.FixConflict) : Text :=
  path ++ ": note: dropped fix from `".toList ++ c.droppedRuleId ++ "` because it overlaps `".toList
    ++ c.winningRuleId ++ "` [clippy::fix-conflict]\n".toList

/-- What it says about those that were not. -/
def appliedNote (path : Text) (applied : Nat) : Text :=
  "shader-clippy: applied ".toList ++ Nat.toDigits 10 applied ++ " fix".toList
    ++ (if applied = 1 then [] else "es".toList) ++ " to ".toList ++ path ++ "\n".toList

/-- The part of `run_lint_one` behind `if (opts.apply_fix)`. -/
def applyFixes (host : Host σ κ) (format : OutputFormat) (path : Text) (diagnostics : List Diagnostic)
    (result : PerFileResult) (w : World σ) : PerFileResult × World σ :=
  let fixes := collectFixes diagnostics
  if fixes = [] then
    let note := "shader-clippy: --fix had nothing to apply for ".toList ++ path ++ "\n".toList
    (result, if format = .human then { w with out := w.out ++ note } else w)
  else
    let original := readFile host w.files path
    -- `read_file` gives an empty text for a file it cannot open
    if original = [] ∧ w.files path ≠ some [] then
      ({ result with fatal := true },
        { w with err := w.err ++ "shader-clippy: could not read ".toList ++ path ++ " for --fix\n".toList })
    else
      let rewritten := Rewriter.apply host.sort original fixes
      let written := writeFile host w.files path rewritten.1
      if written.2 = false then
        ({ result with fatal := true },
          { w with
            files := written.1
            err := w.err ++ "shader-clippy: could not write ".toList ++ path ++ "\n".toList })
      else
        (result,
          { w with
            files := written.1
            out := w.out ++ if format = .human then appliedNote path (fixes.length - rewritten.2.length) else []
            err := w.err ++ rewritten.2.flatMap (conflictNote path) })

/-- `run_lint_one`. -/
def runLintFile (host : Host σ κ) (opts : LintOptions) (format : OutputFormat) (path : Text) (firstSeen : Bool)
    (w : World σ) : PerFileResult × Bool × World σ :=
  match w.files path with
  | none =>
      (fatalResult, firstSeen,
        { w with err := w.err ++ "shader-clippy: file not found: ".toList ++ path ++ "\n".toList })
  | some bytes =>
      if host.maxFileBytes < bytes.length then
        (fatalResult, firstSeen,
          { w with err := w.err ++ "shader-clippy: could not read ".toList ++ path ++ "\n".toList })
      else
        match resolveConfig host opts w.files path with
        | .error e =>
            (fatalResult, firstSeen,
              { w with
                err := w.err ++ e.source ++ ":".toList ++ Nat.toDigits 10 e.line ++ ":".toList
                  ++ Nat.toDigits 10 e.column ++ ": error: ".toList ++ e.message ++ " [clippy::config]\n".toList })
        | .ok config =>
            let contents := readFile host w.files path
            let linted := host.lint w.state (effectiveConfig host opts config) (targetProfile opts) path contents
            let reported := report format [⟨path, contents⟩] firstSeen linted.1
            let result : PerFileResult :=
              ⟨linted.1.any fun d => decide (d.severity = .warning),
                linted.1.any fun d => decide (d.severity = .error), false, linted.1.length⟩
            -- the diagnostics are printed before the file is rewritten
            let w' : World σ := { w with state := linted.2, out := w.out ++ reported.2 }
            if opts.applyFix then
              let fixed := applyFixes host format path linted.1 result w'
              (fixed.1, reported.1, fixed.2)
            else (result, reported.1, w')

/-! ## §3. All files. -/

/-- The loop of `run_lint`. -/
def runPaths (host : Host σ κ) (opts : LintOptions) (format : OutputFormat) :
    List Text → Bool → World σ → List PerFileResult × World σ
  | [], _, w => ([], w)
  | path :: paths, firstSeen, w =>
      let r := runLintFile host opts format path firstSeen w
      let rest := runPaths host opts format paths r.2.1 r.2.2
      (r.1 :: rest.1, rest.2)

/-- `detect_default_format`, unless a format is given. -/
def formatOf (host : Host σ κ) (opts : LintOptions) : OutputFormat :=
  opts.format.getD (if host.githubActions then .githubAnnotations else .human)

/-- What is printed behind the last file. -/
def summary (format : OutputFormat) (files totalDiags : Nat) : Text :=
  match format with
  | .json => "]\n".toList
  | .githubAnnotations => []
  | .human =>
      if totalDiags = 0 then []
      else
        "\nshader-clippy: ".toList ++ Nat.toDigits 10 totalDiags ++ " diagnostic".toList
          ++ (if totalDiags = 1 then [] else "s".toList) ++ " emitted across ".toList ++ Nat.toDigits 10 files
          ++ if files = 1 then " file\n".toList else " files\n".toList

/-- The exit code. -/
def exitCode (results : List PerFileResult) : Nat :=
  if results.any fun r => r.anyError || r.fatal then 2
  else if results.any fun r => r.anyWarning then 1
  else 0

/-- How a run ends. -/
structure Finished (σ : Type) where
  results : List PerFileResult
  exitCode : Nat
  world : World σ

/-- **`run_lint`.** -/
def runLintCommand (host : Host σ κ) (opts : LintOptions) (w : World σ) : Finished σ :=
  if opts.paths = [] then
    ⟨[], 2, { w with err := w.err ++ "shader-clippy: lint requires at least one file argument\n".toList }⟩
  else
    let format := formatOf host opts
    let opened := if format = .json then { w with out := w.out ++ "[".toList } else w
    let r := runPaths host opts format opts.paths false opened
    let total := (r.1.map PerFileResult.diagCount).sum
    ⟨r.1, exitCode r.1, { r.2 with out := r.2.out ++ summary format opts.paths.length total }⟩

/-! ## §4. What happens to the files. -/

/-- A pass over a file: its text was linted, and the fixes of what was found were
applied to it. -/
def Pass (host : Host σ κ) (opts : LintOptions) (path : Text) (a b : Text) : Prop :=
  ∃ state config, b = (Rewriter.apply host.sort a
    (collectFixes (host.lint state config (targetProfile opts) path a).1)).1

/-- A pass in the course of a run: the file was linted with its configuration. -/
def PassFrom (host : Host σ κ) (opts : LintOptions) (files : Files) (path a b : Text) : Prop :=
  ∃ state config, resolveConfig host opts files path = .ok config
    ∧ b = (Rewriter.apply host.sort a
        (collectFixes (host.lint state (effectiveConfig host opts config) (targetProfile opts) path a).1)).1

theorem PassFrom.pass {host : Host σ κ} {opts : LintOptions} {files : Files} {path a b : Text}
    (h : PassFrom host opts files path a b) : Pass host opts path a b := by
  obtain ⟨state, config, _, hb⟩ := h
  exact ⟨state, _, hb⟩

/-- What one file does to the files: nothing but, with `--fix`, a pass over itself if it
can be read. -/
structure FileStep (host : Host σ κ) (opts : LintOptions) (path : Text) (fatal : Bool) (before after : Files) :
    Prop where
  frame : ∀ p, opts.applyFix = false ∨ p ≠ path → after p = before p
  pass : fatal = false → ∀ a, before path = some a → ∃ b, after path = some b
    ∧ (b = a ∧ (opts.applyFix = true → host.readable path = false) ∨ PassFrom host opts before path a b)

/-- The files off the paths are as they were. -/
def SameOff (paths : List Text) (before after : Files) : Prop := ∀ p, p ∉ paths → after p = before p

/-- A file and then others. -/
theorem SameOff.trans {path : Text} {paths : List Text} {f g h : Files} (hfg : SameOff [path] f g)
    (hgh : SameOff paths g h) : SameOff (path :: paths) f h := by
  intro p hp
  rw [List.mem_cons, not_or] at hp
  rw [hgh p hp.2, hfg p (mt List.mem_singleton.mp hp.1)]

theorem FileStep.sameOff {host : Host σ κ} {opts : LintOptions} {path : Text} {fatal : Bool} {before after : Files}
    (h : FileStep host opts path fatal before after) : SameOff [path] before after :=
  fun p hp => h.frame p (.inr (mt List.mem_singleton.mpr hp))

/-- A file that is given up, not to be fixed or not to be read. -/
theorem FileStep.none {host : Host σ κ} {opts : LintOptions} {path : Text} {fatal : Bool} (files : Files)
    (h : fatal = false → opts.applyFix = true → host.readable path = false) :
    FileStep host opts path fatal files files :=
  ⟨fun _ _ => rfl, fun hfatal a ha => ⟨a, ha, .inl ⟨rfl, h hfatal⟩⟩⟩

theorem writeFile_other {host : Host σ κ} {files : Files} {path contents p : Text} (h : p ≠ path) :
    (writeFile host files path contents).1 p = files p := by
  unfold writeFile
  split
  · exact if_neg h
  · rfl

theorem writeFile_good {host : Host σ κ} {files : Files} {path contents : Text}
    (h : (writeFile host files path contents).2 = true) :
    (writeFile host files path contents).1 path = some contents := by
  unfold writeFile at h ⊢
  split at h
  case isTrue hwritable =>
    rw [if_pos hwritable]
    show (if path = path then some (host.stored path contents).1 else files path) = some contents
    rw [if_pos rfl, host.stored_good path contents h]
  case isFalse => cases h

/-- What was read is what is in the file. -/
theorem readFile_eq {host : Host σ κ} {files : Files} {path a : Text} (ha : files path = some a)
    (hread : host.readable path = true) : readFile host files path = a := by
  unfold readFile
  rw [if_pos hread, ha, Option.getD_some]

/-- Applying the fixes of what was found in the file. -/
theorem applyFixes_step {host : Host σ κ} {opts : LintOptions} (hfix : opts.applyFix = true)
    {format : OutputFormat} {path : Text} {result : PerFileResult} {w : World σ} {state : σ} {config : Option κ}
    (hconfig : resolveConfig host opts w.files path = .ok config) {diagnostics : List Diagnostic}
    (hlint : (host.lint state (effectiveConfig host opts config) (targetProfile opts) path
      (readFile host w.files path)).1 = diagnostics) :
    FileStep host opts path (applyFixes host format path diagnostics result w).1.fatal w.files
      (applyFixes host format path diagnostics result w).2.files := by
  unfold applyFixes
  dsimp only
  split
  case isTrue hnothing =>
    -- nothing to apply is a pass that changes nothing, over what could be read
    have hstep : ∀ fatal, FileStep host opts path fatal w.files w.files := by
      refine fun fatal => ⟨fun _ _ => rfl, fun _ a ha => ⟨a, ha, ?_⟩⟩
      cases hread : host.readable path with
      | false => exact .inl ⟨rfl, fun _ => rfl⟩
      | true =>
          rw [readFile_eq ha hread] at hlint
          refine .inr ⟨state, config, hconfig, ?_⟩
          rw [hlint, hnothing]
          rfl
    split
    · exact hstep _
    · exact hstep _
  case isFalse =>
    split
    case isTrue => exact FileStep.none _ nofun
    case isFalse hread =>
      split
      case isTrue hbad =>
        refine ⟨fun p hp => writeFile_other (hp.resolve_left (by rw [hfix]; exact Bool.noConfusion)), ?_⟩
        intro hfatal
        cases hfatal
      case isFalse hgood =>
        rw [Bool.not_eq_false] at hgood
        refine ⟨fun p hp => writeFile_other (hp.resolve_left (by rw [hfix]; exact Bool.noConfusion)), ?_⟩
        intro _ a ha
        -- what was read is what is in the file
        have hsame : readFile host w.files path = a := by
          cases hreadable : host.readable path with
          | true => exact readFile_eq ha hreadable
          | false =>
              have hnil : readFile host w.files path = [] := by
                unfold readFile
                rw [if_neg (by rw [hreadable]; exact Bool.false_ne_true)]
              by_contra hne
              rw [hnil] at hread hne
              exact hread ⟨rfl, fun h => hne (Option.some.inj (h.symm.trans ha))⟩
        rw [hsame] at hlint
        -- so the pass is over the text that was linted
        refine ⟨_, writeFile_good hgood, .inr ⟨state, config, hconfig, ?_⟩⟩
        rw [hlint, hsame]

/-- **One file.** -/
theorem runLintFile_step (host : Host σ κ) (opts : LintOptions) (format : OutputFormat) (path : Text)
    (firstSeen : Bool) (w : World σ) :
    FileStep host opts path (runLintFile host opts format path firstSeen w).1.fatal w.files
      (runLintFile host opts format path firstSeen w).2.2.files := by
  unfold runLintFile
  split
  case h_1 => exact FileStep.none _ nofun
  case h_2 bytes hbytes =>
    split
    case isTrue => exact FileStep.none _ nofun
    case isFalse =>
      split
      case h_1 => exact FileStep.none _ nofun
      case h_2 config hconfig =>
        dsimp only
        split
        case isTrue hfix =>
          refine applyFixes_step hfix ?_ rfl
          exact hconfig
        case isFalse hfix => exact FileStep.none _ fun _ h => absurd h hfix

/-- A file that is not on the list, or not to be fixed. -/
theorem runPaths_frame (host : Host σ κ) (opts : LintOptions) (format : OutputFormat) {p : Text} :
    ∀ {paths : List Text} {firstSeen : Bool} {w : World σ}, (opts.applyFix = false ∨ p ∉ paths) →
      (runPaths host opts format paths firstSeen w).2.files p = w.files p := by
  intro paths
  induction paths with
  | nil => exact fun _ => rfl
  | cons path paths ih =>
      intro firstSeen w h
      have hstep := runLintFile_step host opts format path firstSeen w
      rw [runPaths]
      dsimp only
      rw [ih (h.imp_right fun hp hmem => hp (List.mem_cons_of_mem _ hmem))]
      exact hstep.frame p (h.imp_right fun hp heq => hp (by rw [heq]; exact List.mem_cons_self))

/-- A pass of a run over some paths: the other files are as they were at its start. -/
def PassAmong (host : Host σ κ) (opts : LintOptions) (paths : List Text) (before : Files) (path a b : Text) :
    Prop :=
  ∃ files, SameOff paths before files ∧ PassFrom host opts files path a b

/-- **The passes of a run** in which every file is read, linted and written. -/
theorem runPaths_passes (host : Host σ κ) (opts : LintOptions) (format : OutputFormat) {p : Text} :
    ∀ {paths : List Text} {firstSeen : Bool} {w : World σ},
      (∀ r ∈ (runPaths host opts format paths firstSeen w).1, r.fatal = false) →
      ∀ a, w.files p = some a → ∃ b, (runPaths host opts format paths firstSeen w).2.files p = some b
        ∧ Relation.ReflTransGen (PassAmong host opts paths w.files p) a b := by
  intro paths
  induction paths with
  | nil => exact fun _ a ha => ⟨a, ha, .refl⟩
  | cons path paths ih =>
      intro firstSeen w hfatal a ha
      have hstep := runLintFile_step host opts format path firstSeen w
      rw [runPaths] at hfatal ⊢
      dsimp only at hfatal ⊢
      have hhead := hfatal _ List.mem_cons_self
      have htail := fun r hr => hfatal r (List.mem_cons_of_mem _ hr)
      -- a pass of the rest of the run is one of the run
      have hmore : ∀ c d, PassAmong host opts paths (runLintFile host opts format path firstSeen w).2.2.files p c d →
          PassAmong host opts (path :: paths) w.files p c d :=
        fun _ _ h => h.imp fun _ h => ⟨hstep.sameOff.trans h.1, h.2⟩
      by_cases hp : p = path
      · subst hp
        obtain ⟨b, hb, hpass⟩ := hstep.pass hhead a ha
        -- the path may be named again: the next pass is over what this one left
        obtain ⟨c, hc, hrest⟩ := ih htail b hb
        have hrest := Relation.ReflTransGen.mono hmore _ _ hrest
        refine ⟨c, hc, ?_⟩
        obtain ⟨rfl, _⟩ | hpass := hpass
        · exact hrest
        · exact .head ⟨w.files, fun _ _ => rfl, hpass⟩ hrest
      · rw [← hstep.frame p (.inr hp)] at ha
        obtain ⟨c, hc, hrest⟩ := ih htail a ha
        exact ⟨c, hc, Relation.ReflTransGen.mono hmore _ _ hrest⟩

/-- The results and the files of the command are those of the loop. -/
theorem runLintCommand_eq (host : Host σ κ) (opts : LintOptions) (w : World σ) :
    ∃ w₀ : World σ, w₀.files = w.files
      ∧ (runLintCommand host opts w).world.files
        = (runPaths host opts (formatOf host opts) opts.paths false w₀).2.files
      ∧ (runLintCommand host opts w).results
        = (runPaths host opts (formatOf host opts) opts.paths false w₀).1 := by
  unfold runLintCommand
  split
  case isTrue hnone => exact ⟨w, rfl, by rw [hnone]; rfl, by rw [hnone]; rfl⟩
  case isFalse =>
    refine ⟨_, ?_, rfl, rfl⟩
    split <;> rfl

/-- **The files after a run.**  Without `--fix`, and off the command line, nothing is
written. If no file was given up, every file holds what came out of passes over it,
the first over its old text and each other one over the text before. -/
theorem runLint_files (host : Host σ κ) (opts : LintOptions) (w : World σ) :
    (∀ p, opts.applyFix = false ∨ p ∉ opts.paths → (runLintCommand host opts w).world.files p = w.files p)
      ∧ ((∀ r ∈ (runLintCommand host opts w).results, r.fatal = false) → ∀ p a, w.files p = some a →
          ∃ b, (runLintCommand host opts w).world.files p = some b
            ∧ Relation.ReflTransGen (Pass host opts p) a b) := by
  obtain ⟨w₀, hw₀, hfiles, hresults⟩ := runLintCommand_eq host opts w
  rw [hfiles, hresults, ← hw₀]
  refine ⟨fun p hp => runPaths_frame host opts _ hp, fun hfatal p a ha => ?_⟩
  obtain ⟨b, hb, hpasses⟩ := runPaths_passes host opts _ hfatal a ha
  have hpass : ∀ c d, PassAmong host opts opts.paths w₀.files p c d → Pass host opts p c d :=
    fun _ _ h => h.elim fun _ h => h.2.pass
  exact ⟨b, hb, Relation.ReflTransGen.mono hpass _ _ hpasses⟩

end ShaderClippy.Cli
