/-
  ShaderClippy.Cli.FixRun

  **`shader-clippy lint --fix` KEEPS THE MEANING OF A SHADER.**

  A run whose linter has the four idiom rules among others that offer nothing to
  apply, or are switched off for the file. What can be applied of its diagnostics
  are fixes of the four, some dropped and some with another severity, as the
  configuration and the suppressions say. Whatever the rewriter takes of them, in
  however many passes, every file whose text reads as an expression still does, and
  the expression has the value it had (`lintFix_keepsValue`).

  Every pass that has something to apply takes a `sqrt`, a `length` or a `pow` away, so
  the passes come to an end: where none of the four is switched off, nothing is left to
  fix in a file that the run went through more often than it has these words
  (`lintFix_settles`). No comment keeps a formula: there is none in the text of an
  expression.
-/
import ShaderClippy.Cli.ExitCode
import ShaderClippy.Hlsl.TokenText
import ShaderClippy.Rules.Idioms

namespace ShaderClippy.Cli

open Config (LoadedConfig FileSystem Table Place)
open ControlFlow (buildWithTree_fixes)
open Hlsl
open Lint (LintEnv Rule RuleView dispatched ruleStages runRules malformedStage emitted)
open Rules (IdiomRule idioms idiomWords occurrences)

variable {σ κ : Type} {isType : Text → Bool}

/-! ## §1. Passes. -/

/-- What can be applied of the diagnostics of an expression is a fix of one of the four
rules, under whatever code and severity. -/
def LintsIdioms (isType : Text → Bool) (host : Host σ κ) (config : Option κ) (path : Text) : Prop :=
  ∀ state profile contents root, parseText isType contents = some root →
    ∀ d ∈ (host.lint state config profile path contents).1, ∀ f ∈ d.fixes, f.machineApplicable = true →
      ∃ source, ∃ rule ∈ idioms, ∃ d' ∈ rule.onTree isType source root, f ∈ d'.fixes

/-- The text reads as an expression of the same value. -/
def ReadsLike (isType : Text → Bool) (root : Expr) (text : Text) : Prop :=
  ∃ root', parseText isType text = some root'
    ∧ ∀ ρ, root'.value (intrinsics isType ρ) = root.value (intrinsics isType ρ)

/-- What is collected is a fix of a formula. -/
theorem mem_collectFixes {host : Host σ κ} {config : Option κ} {path : Text}
    (hlint : LintsIdioms isType host config path) {state : σ} {profile : Option Text} {contents : Text} {root : Expr}
    (hs : parseText isType contents = some root) {pf : Rewriter.PrioritisedFix Char}
    (hpf : pf ∈ collectFixes (host.lint state config profile path contents).1) :
    pf.fix.machineApplicable = true
      ∧ ∃ source, ∃ rule ∈ idioms, ∃ d ∈ rule.onTree isType source root, pf.fix ∈ d.fixes := by
  obtain ⟨d, hd, hpf⟩ := List.mem_flatMap.mp hpf
  obtain ⟨f, hf, rfl⟩ := List.mem_map.mp hpf
  obtain ⟨hmem, happlicable⟩ := List.mem_filter.mp hf
  exact ⟨happlicable, hlint state profile contents root hs d hd f hmem happlicable⟩

/-- The fixes that are collected are safe. -/
theorem collectFixes_safe {host : Host σ κ} {config : Option κ} {path : Text}
    (hlint : LintsIdioms isType host config path) {state : σ} {profile : Option Text} {contents : Text} {root : Expr}
    (hs : parseText isType contents = some root) :
    ∀ pf ∈ collectFixes (host.lint state config profile path contents).1,
      Rules.SafeFix isType (intrinsics isType) (Rules.Lighter Rules.idiomWords) root pf.fix := by
  intro pf hpf
  obtain ⟨_, source, rule, hrule, d, hd, hf⟩ := mem_collectFixes hlint hs hpf
  exact Rules.idiom_safe hs hrule source hd hf

/-- What a run lints a file with, whatever has become of the files on the command line. -/
def InRun (host : Host σ κ) (opts : LintOptions) (paths : List Text) (before : Files) (path : Text)
    (P : Option κ → Prop) : Prop :=
  ∀ files config, SameOff paths before files → resolveConfig host opts files path = .ok config →
    P (effectiveConfig host opts config)

/-- A pass over a text that reads as an expression. -/
theorem pass_readsLike {host : Host σ κ} {opts : LintOptions} {paths : List Text} {before : Files} {path a b : Text}
    (hlint : InRun host opts paths before path fun config => LintsIdioms isType host config path) {root : Expr}
    (ha : ReadsLike isType root a) (hpass : PassAmong host opts paths before path a b) : ReadsLike isType root b := by
  obtain ⟨root₁, hread, hvalue⟩ := ha
  obtain ⟨files, hfiles, state, config, hconfig, rfl⟩ := hpass
  have hlint := hlint files config hfiles hconfig
  obtain ⟨root₂, hread₂, hvalue₂⟩ := Rules.apply_keepsValue hread (collectFixes_safe hlint hread) host.sort
  exact ⟨root₂, hread₂, fun ρ => (hvalue₂ ρ).trans (hvalue ρ)⟩

/-- The passes of a run keep the value. -/
theorem runLint_readsLike {host : Host σ κ} {opts : LintOptions} {w : World σ} {p a : Text}
    (hlint : InRun host opts opts.paths w.files p fun config => LintsIdioms isType host config p)
    (hfatal : ∀ r ∈ (runLintCommand host opts w).results, r.fatal = false) (hfile : w.files p = some a)
    {root : Expr} (hs : parseText isType a = some root) :
    ∃ b, (runLintCommand host opts w).world.files p = some b ∧ ReadsLike isType root b := by
  obtain ⟨w₀, hw₀, hfiles, hresults⟩ := runLintCommand_eq host opts w
  rw [hresults] at hfatal
  rw [hfiles]
  rw [← hw₀] at hfile hlint
  obtain ⟨b, hb, hpasses⟩ := runPaths_passes host opts _ hfatal a hfile
  refine ⟨b, hb, ?_⟩
  -- the induction is on the passes; the first one is over the old text
  clear hb
  induction hpasses with
  | refl => exact ⟨root, hs, fun _ => rfl⟩
  | tail _ hpass ih => exact pass_readsLike hlint ih hpass

/-! ## §2. The end of the passes. -/

/-- There is nothing to fix in the tree. -/
def Settled (isType : Text → Bool) (root : Expr) : Prop :=
  ∀ rule ∈ idioms, ∀ source, ∀ d ∈ rule.onTree isType source root, ∀ f ∈ d.fixes, f.machineApplicable = false

/-- As long as a formula can be fixed, something is collected. -/
def LintsAllIdioms (isType : Text → Bool) (host : Host σ κ) (config : Option κ) (path : Text) : Prop :=
  ∀ state profile contents root, parseText isType contents = some root → ¬ Settled isType root →
    collectFixes (host.lint state config profile path contents).1 ≠ []

/-- A pass over a text that reads as an expression: either there is nothing to fix and
nothing happens, or there is and one of the words is taken away. -/
theorem pass_lighter {host : Host σ κ} {opts : LintOptions} {files : Files} {path a b : Text}
    (hlint : ∀ config, resolveConfig host opts files path = .ok config →
      LintsIdioms isType host (effectiveConfig host opts config) path
        ∧ LintsAllIdioms isType host (effectiveConfig host opts config) path)
    {root : Expr} (hs : parseText isType a = some root) (hpass : PassFrom host opts files path a b) :
    b = a ∧ Settled isType root
      ∨ ¬ Settled isType root ∧ ∃ root', parseText isType b = some root'
          ∧ occurrences idiomWords root' < occurrences idiomWords root
          ∧ ∀ ρ, root'.value (intrinsics isType ρ) = root.value (intrinsics isType ρ) := by
  obtain ⟨state, config, hconfig, rfl⟩ := hpass
  obtain ⟨hlint, hall⟩ := hlint config hconfig
  by_cases hnil : collectFixes
      (host.lint state (effectiveConfig host opts config) (targetProfile opts) path a).1 = []
  -- nothing was collected, so nothing could be fixed
  · refine .inl ⟨by rw [hnil]; rfl, ?_⟩
    by_contra hunsettled
    exact hall state (targetProfile opts) a root hs hunsettled hnil
  · have hsome := Rules.accept_ne_nil hnil fun pf hpf => by
      obtain ⟨_, _, rule, _, d, hd, hf⟩ := mem_collectFixes hlint hs hpf
      exact (rule.fix_spec hd hf).1
    obtain ⟨root', hread, hreplaces⟩ := Rules.apply_replaces hs (collectFixes_safe hlint hs) host.sort
    have hle := hreplaces.occurrences_le
    have hpos := List.length_pos_iff.mpr hsome
    refine .inr ⟨?_, root', hread, by omega, hreplaces.value⟩
    -- a collected fix is machine-applicable, which those of a settled tree are not
    intro hsettled
    obtain ⟨pf, hpf⟩ := List.exists_mem_of_ne_nil _ hnil
    obtain ⟨happlicable, source, rule, hrule, d, hd, hf⟩ := mem_collectFixes hlint hs hpf
    rw [hsettled rule hrule source d hd pf.fix hf] at happlicable
    cases happlicable

/-- The passes of a run over a file that is named more often than it has the words. -/
theorem runPaths_settles {host : Host σ κ} {opts : LintOptions} (hfix : opts.applyFix = true) (format : OutputFormat)
    {p : Text} (hreadable : host.readable p = true) :
    ∀ {paths : List Text} {firstSeen : Bool} {w : World σ} {a : Text} {root : Expr},
      (InRun host opts paths w.files p fun config =>
        LintsIdioms isType host config p ∧ LintsAllIdioms isType host config p) →
      (∀ r ∈ (runPaths host opts format paths firstSeen w).1, r.fatal = false) → w.files p = some a →
      parseText isType a = some root → (Settled isType root ∨ occurrences idiomWords root < paths.count p) →
      ∃ b root', (runPaths host opts format paths firstSeen w).2.files p = some b
        ∧ parseText isType b = some root' ∧ Settled isType root'
        ∧ ∀ ρ, root'.value (intrinsics isType ρ) = root.value (intrinsics isType ρ) := by
  -- every time the file is named pays for one of the words
  intro paths
  induction paths with
  | nil =>
      intro firstSeen w a root _ _ ha hs hmany
      exact ⟨a, root, ha, hs, hmany.resolve_right (Nat.not_lt_zero _), fun _ => rfl⟩
  | cons path paths ih =>
      intro firstSeen w a root hlint hfatal ha hs hmany
      have hstep := runLintFile_step host opts format path firstSeen w
      rw [runPaths] at hfatal ⊢
      dsimp only at hfatal ⊢
      have hhead := hfatal _ List.mem_cons_self
      have htail := fun r hr => hfatal r (List.mem_cons_of_mem _ hr)
      -- the rest of the run lints the file with no other configuration
      have hrest : InRun host opts paths (runLintFile host opts format path firstSeen w).2.2.files p fun config =>
          LintsIdioms isType host config p ∧ LintsAllIdioms isType host config p :=
        fun files config hfiles => hlint files config (hstep.sameOff.trans hfiles)
      by_cases hp : p = path
      · subst hp
        obtain ⟨b, hb, hpass⟩ := hstep.pass hhead a ha
        have hpass : PassFrom host opts w.files p a b := by
          obtain ⟨_, hunread⟩ | hpass := hpass
          · rw [hunread hfix] at hreadable
            cases hreadable
          · exact hpass
        have hhere := fun config => hlint w.files config fun _ _ => rfl
        obtain ⟨rfl, hsettled⟩ | ⟨hunsettled, root', hread, hlt, hvalue⟩ := pass_lighter hhere hs hpass
        · exact ih hrest htail hb hs (.inl hsettled)
        · have hcount := hmany.resolve_left hunsettled
          rw [List.count_cons_self] at hcount
          obtain ⟨c, root'', hc, hread', hsettled, hvalue'⟩ := ih hrest htail hb hread (.inr (by omega))
          exact ⟨c, root'', hc, hread', hsettled, fun ρ => (hvalue' ρ).trans (hvalue ρ)⟩
      -- another file is named
      · rw [← hstep.frame p (.inr hp)] at ha
        rw [List.count_cons_of_ne (Ne.symm hp)] at hmany
        exact ih hrest htail ha hs hmany

/-- The passes of a run come to an end. -/
theorem runLint_settles {host : Host σ κ} {opts : LintOptions} (hfix : opts.applyFix = true) {w : World σ} {p a : Text}
    (hlint : InRun host opts opts.paths w.files p fun config =>
      LintsIdioms isType host config p ∧ LintsAllIdioms isType host config p)
    (hfatal : ∀ r ∈ (runLintCommand host opts w).results, r.fatal = false) (hreadable : host.readable p = true)
    (hfile : w.files p = some a) {root : Expr} (hs : parseText isType a = some root)
    (hmany : occurrences idiomWords root < opts.paths.count p) :
    ∃ b root', (runLintCommand host opts w).world.files p = some b ∧ parseText isType b = some root'
      ∧ Settled isType root' ∧ ∀ ρ, root'.value (intrinsics isType ρ) = root.value (intrinsics isType ρ) := by
  obtain ⟨w₀, hw₀, hfiles, hresults⟩ := runLintCommand_eq host opts w
  rw [hresults] at hfatal
  rw [hfiles]
  rw [← hw₀] at hfile hlint
  exact runPaths_settles hfix _ hreadable hlint hfatal hfile hs (.inr hmany)

/-! ## §3. The linter. -/

section Linter

variable {R I : Type}

/-- Nothing of the diagnostic can be applied by machine. -/
def Inert (d : Diagnostic) : Prop := ∀ f ∈ d.fixes, f.machineApplicable = false

/-- A rule of the linter that is one of the four: where the text reads as an expression,
its hooks report the formulas. -/
structure RunsAs (isType : Text → Bool) (parser : Text → Option Node) (rule : IdiomRule) (r : Rule R I) : Prop where
  stage : r.stage = .ast
  target : r.experimentalTarget = .none
  reports : ∀ view tree, parser view.bytes = some view.root → parseText isType view.bytes = some tree →
    ∀ d, (d ∈ r.onTree view ∨ ∃ node ∈ Lint.shown view.root, d ∈ r.onNode view node)
      ↔ d ∈ rule.onTree isType view.source tree

/-- Another rule: what it reports cannot be applied, or has a name that is off. -/
structure Aside (off : Text → Prop) (r : Rule R I) : Prop where
  onTree : ∀ view, ∀ d ∈ r.onTree view, Inert d ∨ off d.code
  onNode : ∀ view node, ∀ d ∈ r.onNode view node, Inert d ∨ off d.code
  onReflection : ∀ view info, ∀ d ∈ r.onReflection view info, Inert d ∨ off d.code
  onCfg : ∀ view info, ∀ d ∈ r.onCfg view info, Inert d ∨ off d.code
  onIr : ∀ view info, ∀ d ∈ r.onIr view info, Inert d ∨ off d.code

/-- The notices of the engines offer nothing, those in the cache neither. -/
structure Noticed (env : LintEnv R I) : Prop where
  reflected : ∀ d, env.reflected = .error d → d.fixes = []
  cached : ∀ kv ∈ env.cfgCache, ∀ d ∈ kv.2.diagnostics, d.fixes = []
  ir : ∀ d, env.ir = .error d → d.fixes = []

/-- **A linter with the four rules**, or some of them. -/
structure Linter.RunsIdioms (isType : Text → Bool) (parser : Text → Option Node) (off : Text → Prop)
    (linter : Linter σ R I) : Prop where
  rules : ∀ r ∈ linter.rules, (∃ rule ∈ idioms, RunsAs isType parser rule r) ∨ Aside off r
  bytes : ∀ state config profile path contents,
    (linter.environment state config profile path contents).1.bytes = contents
  parsed : ∀ state config profile path contents,
    (linter.environment state config profile path contents).1.parsed = parser contents
  noticed : ∀ state config profile path contents, Noticed (linter.environment state config profile path contents).1

/-- A linter with all of them, whose parser gives a tree for every expression. -/
structure Linter.RunsAllIdioms (isType : Text → Bool) (parser : Text → Option Node) (off : Text → Prop)
    (linter : Linter σ R I) : Prop extends linter.RunsIdioms isType parser off where
  all : ∀ rule ∈ idioms, ∃ r ∈ linter.rules, RunsAs isType parser rule r
  total : ∀ contents tree, parseText isType contents = some tree → (parser contents).isSome = true

variable {parser : Text → Option Node} {off : Text → Prop} {linter : Linter σ R I}

/-- A rule is dispatched to by its stage. -/
theorem mem_dispatched {rules : List (Rule R I)} {stage : Lint.Stage} {active : Lint.ExperimentalTarget} {r : Rule R I}
    (h : r ∈ dispatched rules stage active) : r ∈ rules ∧ r.stage = stage := by
  obtain ⟨hr, hstage⟩ := List.mem_filter.mp h
  exact ⟨hr, of_decide_eq_true (Bool.and_eq_true_iff.mp hstage).1⟩

/-- What such a linter emits: formulas, and what cannot be applied or is off. -/
theorem Linter.RunsIdioms.emits (h : linter.RunsIdioms isType parser off) {state : σ} {config : Option LoadedConfig}
    {profile : Option Text} {path contents : Text} {tree : Expr} (hs : parseText isType contents = some tree)
    {d : Diagnostic} (hd : d ∈ linter.emits state config profile path contents) :
    (Inert d ∨ off d.code) ∨ ∃ source, ∃ rule ∈ idioms, d ∈ rule.onTree isType source tree := by
  have hbytes := h.bytes state config profile path contents
  have hparsed := h.parsed state config profile path contents
  have hnoticed := h.noticed state config profile path contents
  unfold Linter.emits runRules at hd
  revert hd hbytes hparsed hnoticed
  generalize (linter.environment state config profile path contents).1 = env
  intro hd hbytes hparsed hnoticed
  have hinert : ∀ {d : Diagnostic}, d.fixes = [] → Inert d ∨ off d.code := by
    intro d hnone
    refine .inl fun f hf => ?_
    rw [hnone] at hf
    cases hf
  -- the other stages dispatch to none of the four
  have haside : ∀ {stage active r}, stage ≠ Lint.Stage.ast → r ∈ dispatched linter.rules stage active → Aside off r := by
    intro stage active r hstage hr
    obtain ⟨hr, hof⟩ := mem_dispatched hr
    obtain ⟨rule, _, hruns⟩ | haside := h.rules r hr
    · exact absurd (hof.symm.trans hruns.stage) hstage
    · exact haside
  obtain hd | hd := List.mem_append.mp hd
  · obtain ⟨ds, hds, hd⟩ := List.mem_flatMap.mp hd
    have hd := List.mem_of_mem_filter hd
    unfold ruleStages at hds
    split at hds
    case h_1 => cases hds
    case h_2 root hroot =>
      rw [hparsed, ← hbytes] at hroot
      rw [← hbytes] at hs
      simp only [List.mem_cons, List.not_mem_nil, or_false] at hds
      obtain rfl | rfl | rfl | rfl | rfl := hds
      · obtain ⟨r, hr, hd⟩ := List.mem_flatMap.mp hd
        obtain ⟨rule, hrule, hruns⟩ | haside := h.rules r (mem_dispatched hr).1
        · exact .inr ⟨_, rule, hrule, (hruns.reports _ tree hroot hs d).mp (.inl hd)⟩
        · exact .inl (haside.onTree _ d hd)
      · obtain ⟨node, hnode, hd⟩ := List.mem_flatMap.mp hd
        obtain ⟨r, hr, hd⟩ := List.mem_flatMap.mp hd
        obtain ⟨rule, hrule, hruns⟩ | haside := h.rules r (mem_dispatched hr).1
        · exact .inr ⟨_, rule, hrule, (hruns.reports _ tree hroot hs d).mp (.inr ⟨node, hnode, hd⟩)⟩
        · exact .inl (haside.onNode _ node d hd)
      · refine .inl (Lint.reflectionStage_forall (P := fun d => Inert d ∨ off d.code) (fun _ r hr => ?_) d hd)
        exact ⟨fun d heq => hinert (hnoticed.reflected d heq), fun _ _ => (haside (by decide) hr).onReflection _ _⟩
      · refine .inl (Lint.controlFlowStage_forall (P := fun d => Inert d ∨ off d.code)
          (fun _ r hr info cache hbuild => ?_) d hd)
        have hbuilt := buildWithTree_fixes hnoticed.cached hbuild
        exact ⟨fun d heq => hinert (hbuilt.1 d heq),
          fun _ _ => ⟨(haside (by decide) hr).onCfg _ _, fun d hd => hinert (hbuilt.2 d hd)⟩⟩
      · refine .inl (Lint.irStage_forall (P := fun d => Inert d ∨ off d.code) (fun _ r hr => ?_) d hd)
        exact ⟨fun d heq => hinert (hnoticed.ir d heq), fun _ _ => (haside (by decide) hr).onIr _ _⟩
  · -- a malformed suppression offers nothing
    unfold malformedStage at hd
    split at hd
    case h_1 => cases hd
    case h_2 =>
      obtain ⟨sd, _, rfl⟩ := List.mem_map.mp hd
      exact .inl (hinert rfl)

/-- No comment begins in the text of an expression. -/
theorem scan_expression {contents : Text} {tree : Expr} (hs : parseText isType contents = some tree) (ruleId : Text)
    (byteLo byteHi : Nat) : (Suppress.scan contents).suppresses ruleId byteLo byteHi = false := by
  have hnone : Suppress.lineComments false contents = [] := by
    refine Suppress.lineComments_eq_nil false contents fun c cs hsuffix => ?_
    have hchain := (noComment_of_parse hs).suffix hsuffix
    obtain ⟨body, rfl, rfl⟩ | ⟨body, rfl, rfl⟩ | hstart := Suppress.startsComment_cases c cs
    · exact absurd rfl ((List.isChain_cons_cons.mp hchain).1 rfl).1
    · exact absurd rfl ((List.isChain_cons_cons.mp hchain).1 rfl).2
    · exact hstart
  exact Suppress.suppresses_plain (Suppress.scan_plain hnone).1 ruleId byteLo byteHi

/-- What the four find, a linter with all of them emits. -/
theorem Linter.RunsAllIdioms.emits (h : linter.RunsAllIdioms isType parser off) (state : σ)
    (config : Option LoadedConfig) (profile : Option Text) (path : Text) {contents : Text} {tree : Expr}
    (hs : parseText isType contents = some tree) {rule : IdiomRule} (hrule : rule ∈ idioms) :
    ∃ source, ∀ d ∈ rule.onTree isType source tree, d ∈ linter.emits state config profile path contents := by
  have hbytes := h.bytes state config profile path contents
  have hparsed := h.parsed state config profile path contents
  unfold Linter.emits
  revert hbytes hparsed
  generalize (linter.environment state config profile path contents).1 = env
  intro hbytes hparsed
  obtain ⟨root, hroot⟩ := Option.isSome_iff_exists.mp (h.total contents tree hs)
  obtain ⟨r, hr, hruns⟩ := h.all rule hrule
  refine ⟨env.source, fun d hd => ?_⟩
  have hdispatched : ∀ active, r ∈ dispatched linter.rules .ast active := by
    intro active
    refine List.mem_filter.mpr ⟨hr, Bool.and_eq_true_iff.mpr ⟨decide_eq_true hruns.stage, ?_⟩⟩
    exact decide_eq_true (.inl hruns.target)
  have hkept : ∀ ds, d ∈ ds → d ∈ emitted (Suppress.scan env.bytes) ds := by
    intro ds hds
    refine List.mem_filter.mpr ⟨hds, ?_⟩
    rw [hbytes, scan_expression hs]
    rfl
  rw [hroot] at hparsed
  unfold runRules ruleStages
  rw [hparsed]
  dsimp only
  refine List.mem_append_left _ (List.mem_flatMap.mpr ?_)
  -- the rule reports it from the one hook or from the other
  obtain hd | ⟨node, hnode, hd⟩ := (hruns.reports ⟨env.source, env.bytes, root, config.map LoadedConfig.toConfig⟩ tree
    (by rw [hbytes]; exact hroot) (by rw [hbytes]; exact hs) d).mpr hd
  · exact ⟨_, List.mem_cons_self, hkept _ (List.mem_flatMap.mpr ⟨r, hdispatched _, hd⟩)⟩
  · exact ⟨_, List.mem_cons_of_mem _ List.mem_cons_self,
      hkept _ (List.mem_flatMap.mpr ⟨node, hnode, List.mem_flatMap.mpr ⟨r, hdispatched _, hd⟩⟩)⟩

variable {host : Host σ LoadedConfig} {disk : Files → FileSystem} {parse : Text → Except (Text × Place) Table}
  {config : Option LoadedConfig} {path : Text}

theorem notAllowed_iff {d : Diagnostic} :
    Lint.NotAllowed (config.map fun c => (c.toConfig, path)) d
      ↔ (config.bind fun c => c.severityFor d.code path) ≠ some .allow := by
  cases config with
  | none => exact ⟨fun _ => nofun, fun _ => nofun⟩
  | some c =>
      refine ⟨fun h => h c.toConfig path rfl, fun h c' path' heq => ?_⟩
      cases heq
      exact h

/-- The linter with the four rules lints idioms. -/
theorem Linter.RunsIdioms.lintsIdioms (h : linter.RunsIdioms isType parser off)
    (hoff : ∀ id, off id → (config.bind fun c => c.severityFor id path) = some .allow) :
    LintsIdioms isType (host.onDisk disk parse linter) config path := by
  intro state profile contents root hs d hd f hf happlicable
  obtain ⟨e, he, hallowed, severity, rfl⟩ := Lint.mem_configured hd
  have he : e ∈ linter.emits state config profile path contents := by
    unfold Linter.emits
    rw [Option.map_map] at he
    exact he
  obtain (hinert | hname) | ⟨source, rule, hrule, hfound⟩ := h.emits hs he
  · rw [hinert f hf] at happlicable
    cases happlicable
  · exact absurd (hoff _ hname) (notAllowed_iff.mp hallowed)
  · exact ⟨source, rule, hrule, e, hfound, hf⟩

/-- A linter with all of them leaves no formula out. -/
theorem Linter.RunsAllIdioms.lintsAllIdioms (h : linter.RunsAllIdioms isType parser off)
    (hon : ∀ rule ∈ idioms, (config.bind fun c => c.severityFor rule.id path) ≠ some .allow) :
    LintsAllIdioms isType (host.onDisk disk parse linter) config path := by
  intro state profile contents root hs hunsettled hnil
  refine hunsettled fun rule hrule source d hd f hf => ?_
  obtain ⟨_, x, hx, hflag⟩ := rule.fix_spec hd hf
  -- the same formula is found for the source of the run
  obtain ⟨source', hemits⟩ := h.emits state config profile path hs hrule
  have hfound : rule.diagnostic source' x.1 x.2.1 x.2.2 ∈ linter.emits state config profile path contents := by
    refine hemits _ ?_
    rw [rule.onTree_eq]
    exact List.mem_map.mpr ⟨x, hx, rfl⟩
  unfold Linter.emits at hfound
  have hallowed : Lint.NotAllowed (config.map fun c => (c.toConfig, path))
      (rule.diagnostic source' x.1 x.2.1 x.2.2) := notAllowed_iff.mpr (hon rule hrule)
  obtain ⟨severity, hkept⟩ := Lint.exists_configured hfound hallowed
  rw [← Bool.not_eq_true]
  intro happlicable
  have hlinted : { rule.diagnostic source' x.1 x.2.1 x.2.2 with severity := severity }
      ∈ ((host.onDisk disk parse linter).lint state config profile path contents).1 := by
    show _ ∈ Lint.lint _ _ _ _
    unfold Lint.lint
    rw [Option.map_map]
    exact hkept
  have hnone := List.map_eq_nil_iff.mp (List.flatMap_eq_nil_iff.mp hnil _ hlinted)
  exact List.filter_eq_nil_iff.mp hnone _ (List.mem_singleton_self _) (hflag.symm.trans happlicable)

/-! ## §4. Runs. -/

variable (opts : LintOptions) (w : World σ) {p a : Text}

/-- **A run with the idiom rules keeps the meaning of every file**: if no file was
given up, what read as an expression reads as one of the same value, whatever the
variables, the other functions and the other operators mean. -/
theorem lintFix_keepsValue (hlinter : linter.RunsIdioms isType parser off)
    (hoff : ∀ files, SameOff opts.paths w.files files → ∀ id, off id → DeclaredFor disk parse opts files p id .allow)
    (hfatal : ∀ r ∈ (runLintCommand (host.onDisk disk parse linter) opts w).results, r.fatal = false)
    (hfile : w.files p = some a) {root : Expr} (hs : parseText isType a = some root) :
    ∃ b, (runLintCommand (host.onDisk disk parse linter) opts w).world.files p = some b
      ∧ ReadsLike isType root b :=
  runLint_readsLike (fun files _ hfiles hconfig =>
    hlinter.lintsIdioms fun id hid => (declared_iff hconfig id .allow).mpr (hoff files hfiles id hid)) hfatal hfile hs

/-- **The passes come to an end.**  If a file that reads as an expression is named more
often than it has `sqrt`, `length` and `pow`, and no file was given up, nothing is left
in it that could be fixed, and it reads as an expression of the same value. -/
theorem lintFix_settles (hlinter : linter.RunsAllIdioms isType parser off) (hfix : opts.applyFix = true)
    (hoff : ∀ files, SameOff opts.paths w.files files → ∀ id, off id → DeclaredFor disk parse opts files p id .allow)
    (hon : ∀ files, SameOff opts.paths w.files files → ∀ rule ∈ idioms,
      ¬ DeclaredFor disk parse opts files p rule.id .allow)
    (hfatal : ∀ r ∈ (runLintCommand (host.onDisk disk parse linter) opts w).results, r.fatal = false)
    (hreadable : host.readable p = true) (hfile : w.files p = some a) {root : Expr}
    (hs : parseText isType a = some root) (hmany : occurrences idiomWords root < opts.paths.count p) :
    ∃ b root', (runLintCommand (host.onDisk disk parse linter) opts w).world.files p = some b
      ∧ parseText isType b = some root' ∧ Settled isType root'
      ∧ ∀ ρ, root'.value (intrinsics isType ρ) = root.value (intrinsics isType ρ) := by
  refine runLint_settles hfix (fun files config hfiles hconfig => ?_) hfatal hreadable hfile hs hmany
  constructor
  · exact hlinter.lintsIdioms fun id hid => (declared_iff hconfig id .allow).mpr (hoff files hfiles id hid)
  · exact hlinter.lintsAllIdioms fun rule hrule => mt (declared_iff hconfig rule.id .allow).mp (hon files hfiles rule hrule)

end Linter

/-- No name is a type. -/
def noTypes (_ : Text) : Bool := false

/-- One of the four as a rule of the linter. -/
def idiomRule (rule : IdiomRule) : Rule Unit Unit where
  stage := .ast
  experimentalTarget := .none
  onTree view :=
    match parseText noTypes view.bytes with
    | none => []
    | some tree => rule.onTree noTypes view.source tree
  onNode _ _ := []
  onReflection _ _ := []
  onCfg _ _ := []
  onIr _ _ := []

/-- A tree without children. -/
def leafParser (contents : Text) : Option Node :=
  some (.mk ⟨.translationUnit, true, false, none, 0, contents.length⟩ [])

/-- The four rules, and one that offers nothing. -/
def idiomLinter : Linter Unit Unit Unit where
  rules := idioms.map idiomRule ++ [Lint.wholeTreeRule]
  options := ⟨true, true, true⟩
  environment _ _ _ _ contents := (⟨⟨1⟩, contents, leafParser contents, .ok (), [], .ok ()⟩, ())

/-- Every file can be read and written. -/
def idiomHost : Host Unit LoadedConfig := workspaceHost.onDisk workspaceDisk parseWorkspace idiomLinter

theorem idiomRule_runsAs (rule : IdiomRule) : RunsAs noTypes leafParser rule (idiomRule rule) where
  stage := rfl
  target := rfl
  reports view tree _ hs d := by
    have htree : (idiomRule rule).onTree view = rule.onTree noTypes view.source tree := by
      simp only [idiomRule, hs]
    rw [htree]
    exact or_iff_left nofun

theorem idiomLinter_runs : idiomLinter.RunsAllIdioms noTypes leafParser fun _ => False where
  rules r hr := by
    obtain hr | hr := List.mem_append.mp hr
    · obtain ⟨rule, hrule, rfl⟩ := List.mem_map.mp hr
      exact .inl ⟨rule, hrule, idiomRule_runsAs rule⟩
    · cases List.mem_singleton.mp hr
      refine .inr ⟨fun _ d hd => ?_, nofun, nofun, nofun, nofun⟩
      cases List.mem_singleton.mp hd
      exact .inl nofun
  bytes _ _ _ _ _ := rfl
  parsed _ _ _ _ _ := rfl
  noticed _ _ _ _ _ := ⟨nofun, nofun, nofun⟩
  all rule hrule := ⟨idiomRule rule, List.mem_append_left _ (List.mem_map.mpr ⟨rule, hrule, rfl⟩), idiomRule_runsAs rule⟩
  total _ _ _ := rfl

/-- `shader-clippy lint --fix a.hlsl a.hlsl`. -/
def fixTwice : LintOptions := ⟨["a.hlsl".toList, "a.hlsl".toList], true, [], [], none, .auto⟩

/-- One file, with one idiom inside of another. -/
def nestedWorld : World Unit :=
  ⟨fun p => if p = "a.hlsl".toList then some "1.0 / sqrt(length(v - w))".toList else none, (), [], []⟩

/-- `1.0 / sqrt(length(v - w))`. -/
def nestedTree : Expr :=
  .binary (.atom ⟨[], "1.0".toList⟩) ⟨[' '], ['/']⟩
    (.apply (.atom ⟨[' '], kSqrt⟩) ⟨[], ['(']⟩
      (.apply (.atom ⟨[], kLength⟩) ⟨[], ['(']⟩
        (.binary (.atom ⟨[], ['v']⟩) ⟨[' '], ['-']⟩ (.atom ⟨[' '], ['w']⟩)) ⟨[], [')']⟩) ⟨[], [')']⟩)

/-- The two fixes overlap; the second pass makes what the first one dropped. -/
example : (runLintCommand idiomHost fixTwice nestedWorld).world.files "a.hlsl".toList
    = some "rsqrt(distance(v, w))".toList := by decide +kernel

theorem lintFix_keepsValue_nested :
    ∃ b, (runLintCommand idiomHost fixTwice nestedWorld).world.files "a.hlsl".toList = some b
      ∧ ReadsLike noTypes nestedTree b :=
  lintFix_keepsValue fixTwice nestedWorld idiomLinter_runs.toRunsIdioms (fun _ _ _ h => h.elim) (by decide +kernel) rfl
    (by decide +kernel)

/-- `shader-clippy lint --fix a.hlsl a.hlsl a.hlsl`. -/
def fixThrice : LintOptions := ⟨["a.hlsl".toList, "a.hlsl".toList, "a.hlsl".toList], true, [], [], none, .auto⟩

/-- No document that the parser of the workspace reads switches one of the four off. -/
theorem not_allowed {files : Files} {opts : LintOptions} {path : Text} {rule : IdiomRule} (hrule : rule ∈ idioms) :
    ¬ DeclaredFor workspaceDisk parseWorkspace opts files path rule.id .allow := by
  have hdeclared : ∀ file, ¬ Config.DeclaredIn parseWorkspace files file path rule.id .allow := by
    rintro file ⟨contents, root, _, hparse, _, hdeclares⟩
    unfold parseWorkspace at hparse
    split at hparse
    case isFalse => cases hparse
    case isTrue =>
      cases hparse
      have hnone : ∀ rule ∈ idioms, Config.declaredIn (Config.tableUnder
          [("rules".toList, .table ⟨1, 1⟩ [("first-name".toList, .string ⟨2, 14⟩ "deny".toList)])] "rules".toList)
          rule.id = none := by decide
      cases hdeclares with
      | override split => cases (List.append_eq_nil_iff.mp split.symm).2
      | rules _ named =>
          rw [hnone rule hrule] at named
          cases named
  unfold DeclaredFor
  split
  · rintro ⟨above, _, hdeclares⟩
    exact hdeclared _ hdeclares
  · exact hdeclared _

theorem lintFix_settles_nested :
    ∃ b root', (runLintCommand idiomHost fixThrice nestedWorld).world.files "a.hlsl".toList = some b
      ∧ parseText noTypes b = some root' ∧ Settled noTypes root'
      ∧ ∀ ρ, root'.value (intrinsics noTypes ρ) = nestedTree.value (intrinsics noTypes ρ) :=
  lintFix_settles fixThrice nestedWorld idiomLinter_runs rfl (fun _ _ _ h => h.elim) (fun _ _ _ h => not_allowed h)
    (by decide +kernel) rfl rfl
    (by decide +kernel) (by decide +kernel)

end ShaderClippy.Cli
