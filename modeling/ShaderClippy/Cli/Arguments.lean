/-
  ShaderClippy.Cli.Arguments

  **THE COMMAND LINE** (`parse_lint_args`, `run_main`, `main.cpp`).

  Behind `lint` stand options and paths in any order. An option with a value takes
  it from the next argument, whatever that is, or behind an `=`; what is given twice
  counts as it is given last.

  A command line is a row of items (`Item`), and the parser accepts the rows of valid
  items with a path among them, as what they say one after another
  (`parseLintArgs_iff`). No file is written that is not such a path behind `lint`, and
  none without `--fix` (`runMain_writes`).
-/
import ShaderClippy.Cli.FixRun
import ShaderClippy.Version

namespace ShaderClippy.Cli

/-! ## §1. The values. -/

/-- `parse_format`. -/
def parseFormat (value : Text) : Option OutputFormat :=
  if value = "human".toList then some .human
  else if value = "json".toList then some .json
  else if value = "github-annotations".toList then some .githubAnnotations
  else none

/-- `parse_source_language`. -/
def parseSourceLanguage (value : Text) : Option SourceLanguage :=
  if value = "auto".toList then some .auto
  else if value = "hlsl".toList then some .hlsl
  else if value = "slang".toList then some .slang
  else none

def kFix : Text := "--fix".toList

def kConfig : Text := "--config".toList

def kTargetProfile : Text := "--target-profile".toList

def kSourceLanguage : Text := "--source-language".toList

def kFormat : Text := "--format".toList

def kDashes : Text := "--".toList

/-- The languages and the formats, as the messages list them. -/
def kLanguages : Text := "auto|hlsl|slang".toList

def kFormats : Text := "human|json|github-annotations".toList

/-- `LintOptions{}`. -/
def defaultOptions : LintOptions := ⟨[], false, [], [], none, .auto⟩

/-! ## §2. The loop. -/

/-- An option without its value. -/
def missingValue (option what : Text) : Text :=
  "shader-clippy: ".toList ++ option ++ " requires a ".toList ++ what ++ "\n".toList

/-- An option with a value it does not have. -/
def unknownValue (option value expected : Text) : Text :=
  "shader-clippy: unknown ".toList ++ option ++ " value: ".toList ++ value ++ " (expected ".toList ++ expected
    ++ ")\n".toList

/-- `opts.source_language = *parsed`, if it could be parsed. -/
def setLanguage (value : Text) (opts : LintOptions) : Except Text LintOptions :=
  match parseSourceLanguage value with
  | none => .error (unknownValue kSourceLanguage value kLanguages)
  | some language => .ok { opts with sourceLanguage := language }

/-- `opts.format = parsed`, if it could be parsed. -/
def setFormat (value : Text) (opts : LintOptions) : Except Text LintOptions :=
  match parseFormat value with
  | none => .error (unknownValue kFormat value kFormats)
  | some format => .ok { opts with format := some format }

/-- The value of an option is the next argument. -/
def withNext (option what : Text) (next : Option Text) (set : Text → Except Text LintOptions) :
    Except Text (LintOptions × Bool) :=
  match next with
  | none => .error (missingValue option what)
  | some value => (set value).map (·, true)

/-- One turn of the loop, for an argument and the one behind it; the flag is `++i`. -/
def turn (a : Text) (next : Option Text) (opts : LintOptions) : Except Text (LintOptions × Bool) :=
  if a = kFix then .ok ({ opts with applyFix := true }, false)
  else if a = kConfig then
    withNext kConfig "path argument".toList next fun value => .ok { opts with configPath := value }
  else if a = kTargetProfile then
    withNext kTargetProfile "profile argument".toList next fun value => .ok { opts with targetProfile := value }
  else if (kSourceLanguage ++ ['=']).isPrefixOf a then
    (setLanguage (a.drop (kSourceLanguage ++ ['=']).length) opts).map (·, false)
  else if a = kSourceLanguage then
    withNext kSourceLanguage ("value (".toList ++ kLanguages ++ ")".toList) next (setLanguage · opts)
  else if (kFormat ++ ['=']).isPrefixOf a then
    (setFormat (a.drop (kFormat ++ ['=']).length) opts).map (·, false)
  else if a = kFormat then
    withNext kFormat ("value (".toList ++ kFormats ++ ")".toList) next (setFormat · opts)
  else if kDashes.isPrefixOf a then .error ("shader-clippy: unknown lint option: ".toList ++ a ++ "\n".toList)
  else .ok ({ opts with paths := opts.paths ++ [a] }, false)

/-- The loop of `parse_lint_args`. -/
def parseLoop : List Text → LintOptions → Except Text LintOptions
  | [], opts => .ok opts
  | a :: rest, opts =>
      match turn a rest.head? opts with
      | .error message => .error message
      | .ok (opts, skip) =>
          match skip, rest with
          | true, _ :: rest => parseLoop rest opts
          | _, rest => parseLoop rest opts

/-- `parse_lint_args`: the options, or what is printed before the program exits
with 2. -/
def parseLintArgs (args : List Text) (opts : LintOptions) : Except Text LintOptions :=
  if args = [] then .error "shader-clippy: lint requires a file argument\n".toList
  else
    match parseLoop args opts with
    | .error message => .error message
    | .ok opts =>
        if opts.paths = [] then .error "shader-clippy: lint requires at least one file argument\n".toList
        else .ok opts

/-! ## §3. Items. -/

def OutputFormat.name : OutputFormat → Text
  | .human => "human".toList
  | .json => "json".toList
  | .githubAnnotations => "github-annotations".toList

/-- An option with its value, or a path. A `joined` option stands in one argument with
its value. -/
inductive Item where
  | fix
  | config (path : Text)
  | targetProfile (profile : Text)
  | sourceLanguage (joined : Bool) (language : SourceLanguage)
  | format (joined : Bool) (format : OutputFormat)
  | path (path : Text)
  deriving DecidableEq

namespace Item

/-- An option and its value in one argument or in two. -/
def withValue (joined : Bool) (option value : Text) : List Text :=
  if joined then [option ++ '=' :: value] else [option, value]

/-- The arguments of an item. -/
def tokens : Item → List Text
  | .fix => [kFix]
  | .config p => [kConfig, p]
  | .targetProfile profile => [kTargetProfile, profile]
  | .sourceLanguage joined language => withValue joined kSourceLanguage language.label
  | .format joined f => withValue joined kFormat f.name
  | .path p => [p]

/-- A path is not taken for an option. -/
def Valid : Item → Prop
  | .path p => ¬ kDashes <+: p
  | _ => True

/-- What an item says. -/
def apply (opts : LintOptions) : Item → LintOptions
  | .fix => { opts with applyFix := true }
  | .config p => { opts with configPath := p }
  | .targetProfile profile => { opts with targetProfile := profile }
  | .sourceLanguage _ language => { opts with sourceLanguage := language }
  | .format _ f => { opts with format := some f }
  | .path p => { opts with paths := opts.paths ++ [p] }

end Item

/-- What a row of items says: the last one of a kind counts, and all paths. -/
def meaningOf (items : List Item) : LintOptions := items.foldl Item.apply defaultOptions

theorem parseSourceLanguage_iff {value : Text} {language : SourceLanguage} :
    parseSourceLanguage value = some language ↔ value = language.label := by
  constructor
  · intro h
    unfold parseSourceLanguage at h
    split at h
    · cases h
      assumption
    · split at h
      · cases h
        assumption
      · split at h
        · cases h
          assumption
        · cases h
  · rintro rfl
    cases language <;> decide

theorem parseFormat_iff {value : Text} {format : OutputFormat} :
    parseFormat value = some format ↔ value = format.name := by
  constructor
  · intro h
    unfold parseFormat at h
    split at h
    · cases h
      assumption
    · split at h
      · cases h
        assumption
      · split at h
        · cases h
          assumption
        · cases h
  · rintro rfl
    cases format <;> decide

theorem setLanguage_iff {value : Text} {opts opts' : LintOptions} :
    setLanguage value opts = .ok opts' ↔
      ∃ language, value = language.label ∧ opts' = { opts with sourceLanguage := language } := by
  unfold setLanguage
  constructor
  · intro h
    split at h
    · cases h
    · cases h
      exact ⟨_, parseSourceLanguage_iff.mp (by assumption), rfl⟩
  · rintro ⟨language, hvalue, rfl⟩
    rw [parseSourceLanguage_iff.mpr hvalue]

theorem setFormat_iff {value : Text} {opts opts' : LintOptions} :
    setFormat value opts = .ok opts' ↔
      ∃ format, value = OutputFormat.name format ∧ opts' = { opts with format := some format } := by
  unfold setFormat
  constructor
  · intro h
    split at h
    · cases h
    · cases h
      exact ⟨_, parseFormat_iff.mp (by assumption), rfl⟩
  · rintro ⟨format, hvalue, rfl⟩
    rw [parseFormat_iff.mpr hvalue]

/-! ## §4. One turn. -/

/-- What an accepted turn has read: the arguments of an item, and what it says. -/
structure Reads (item : Item) (a : Text) (next : Option Text) (opts opts' : LintOptions) (skip : Bool) : Prop where
  valid : item.Valid
  tokens : item.tokens = a :: if skip then next.toList else []
  skips : skip = true → next ≠ none
  applied : opts' = item.apply opts

theorem withNext_ok {option what : Text} {next : Option Text} {set : Text → Except Text LintOptions}
    {opts' : LintOptions} {skip : Bool} (h : withNext option what next set = .ok (opts', skip)) :
    ∃ value, next = some value ∧ set value = .ok opts' ∧ skip = true := by
  unfold withNext at h
  split at h
  case h_1 => cases h
  case h_2 value =>
    cases hset : set value with
    | error message =>
        rw [hset] at h
        cases h
    | ok opts =>
        rw [hset] at h
        cases h
        exact ⟨value, rfl, hset, rfl⟩

theorem map_ok {r : Except Text LintOptions} {opts' : LintOptions} {skip : Bool}
    (h : r.map (·, false) = .ok (opts', skip)) : r = .ok opts' ∧ skip = false := by
  cases r with
  | error message => cases h
  | ok opts =>
      cases h
      exact ⟨rfl, rfl⟩

/-- What stands behind a prefix. -/
theorem eq_of_isPrefixOf {p a : Text} (h : p.isPrefixOf a = true) : a = p ++ a.drop p.length := by
  obtain ⟨t, rfl⟩ := List.isPrefixOf_iff_prefix.mp h
  rw [List.drop_left]

/-- **What a turn accepts is an item.** -/
theorem turn_reads {a : Text} {next : Option Text} {opts opts' : LintOptions} {skip : Bool}
    (h : turn a next opts = .ok (opts', skip)) : ∃ item, Reads item a next opts opts' skip := by
  unfold turn at h
  split at h
  case isTrue ha =>
    cases h
    exact ⟨.fix, trivial, by rw [ha]; rfl, nofun, rfl⟩
  case isFalse =>
  split at h
  case isTrue ha =>
    obtain ⟨value, rfl, hset, rfl⟩ := withNext_ok h
    cases hset
    exact ⟨.config value, trivial, by rw [ha]; rfl, fun _ => Option.some_ne_none _, rfl⟩
  case isFalse =>
  split at h
  case isTrue ha =>
    obtain ⟨value, rfl, hset, rfl⟩ := withNext_ok h
    cases hset
    exact ⟨.targetProfile value, trivial, by rw [ha]; rfl, fun _ => Option.some_ne_none _, rfl⟩
  case isFalse =>
  split at h
  case isTrue ha =>
    obtain ⟨hset, rfl⟩ := map_ok h
    obtain ⟨language, hvalue, rfl⟩ := setLanguage_iff.mp hset
    -- the value stands behind the `=`, and the next argument is left alone
    refine ⟨.sourceLanguage true language, trivial, ?_, nofun, rfl⟩
    rw [eq_of_isPrefixOf ha, hvalue]
    rfl
  case isFalse =>
  split at h
  case isTrue ha =>
    obtain ⟨value, rfl, hset, rfl⟩ := withNext_ok h
    obtain ⟨language, rfl, rfl⟩ := setLanguage_iff.mp hset
    -- the value is the next argument, which the loop then passes over
    exact ⟨.sourceLanguage false language, trivial, by rw [ha]; rfl, fun _ => Option.some_ne_none _, rfl⟩
  case isFalse =>
  split at h
  case isTrue ha =>
    obtain ⟨hset, rfl⟩ := map_ok h
    obtain ⟨format, hvalue, rfl⟩ := setFormat_iff.mp hset
    refine ⟨.format true format, trivial, ?_, nofun, rfl⟩
    rw [eq_of_isPrefixOf ha, hvalue]
    rfl
  case isFalse =>
  split at h
  case isTrue ha =>
    obtain ⟨value, rfl, hset, rfl⟩ := withNext_ok h
    obtain ⟨format, rfl, rfl⟩ := setFormat_iff.mp hset
    exact ⟨.format false format, trivial, by rw [ha]; rfl, fun _ => Option.some_ne_none _, rfl⟩
  case isFalse =>
  split at h
  case isTrue => cases h
  case isFalse ha =>
    cases h
    exact ⟨.path a, fun hp => ha (List.isPrefixOf_iff_prefix.mpr hp), rfl, nofun, rfl⟩

/-- **Every valid item is accepted.** -/
theorem turn_item {item : Item} (h : item.Valid) (next : Option Text) (opts : LintOptions) :
    (∃ a, item.tokens = [a] ∧ turn a next opts = .ok (item.apply opts, false))
      ∨ ∃ a value, item.tokens = [a, value] ∧ turn a (some value) opts = .ok (item.apply opts, true) := by
  cases item with
  | fix => exact .inl ⟨kFix, rfl, rfl⟩
  | config path => exact .inr ⟨kConfig, path, rfl, rfl⟩
  | targetProfile profile => exact .inr ⟨kTargetProfile, profile, rfl, rfl⟩
  | sourceLanguage joined language =>
      cases joined with
      | true => exact .inl ⟨_, rfl, by cases language <;> rfl⟩
      | false => exact .inr ⟨_, _, rfl, by cases language <;> rfl⟩
  | format joined format =>
      cases joined with
      | true => exact .inl ⟨_, rfl, by cases format <;> rfl⟩
      | false => exact .inr ⟨_, _, rfl, by cases format <;> rfl⟩
  | path path =>
      refine .inl ⟨path, rfl, ?_⟩
      -- every option begins with the dashes that the path does not begin with
      have hne : ∀ p : Text, kDashes <+: p → path ≠ p := fun p hp heq => h (by rw [heq]; exact hp)
      have hnot : ∀ p : Text, kDashes <+: p → p.isPrefixOf path = false := fun p hp =>
        Bool.eq_false_iff.mpr fun hpath => h (hp.trans (List.isPrefixOf_iff_prefix.mp hpath))
      unfold turn
      rw [if_neg (hne kFix ⟨_, rfl⟩), if_neg (hne kConfig ⟨_, rfl⟩), if_neg (hne kTargetProfile ⟨_, rfl⟩),
        hnot (kSourceLanguage ++ ['=']) ⟨_, rfl⟩, if_neg Bool.false_ne_true, if_neg (hne kSourceLanguage ⟨_, rfl⟩),
        hnot (kFormat ++ ['=']) ⟨_, rfl⟩, if_neg Bool.false_ne_true, if_neg (hne kFormat ⟨_, rfl⟩),
        hnot kDashes (List.prefix_refl _), if_neg Bool.false_ne_true]
      rfl

/-! ## §5. The whole line. -/

/-- The loop takes off the arguments of an item. -/
theorem parseLoop_item {item : Item} (h : item.Valid) (rest : List Text) (opts : LintOptions) :
    parseLoop (item.tokens ++ rest) opts = parseLoop rest (item.apply opts) := by
  obtain ⟨a, htokens, hturn⟩ | ⟨a, value, htokens, hturn⟩ := turn_item h rest.head? opts
  · rw [htokens]
    show parseLoop (a :: rest) opts = _
    rw [parseLoop, hturn]
  · rw [htokens]
    show parseLoop (a :: value :: rest) opts = _
    rw [parseLoop, List.head?_cons, hturn]

/-- What the loop accepts is a row of valid items. -/
theorem exists_items {args : List Text} {opts : LintOptions} :
    ∀ {opts' : LintOptions}, parseLoop args opts = .ok opts' →
      ∃ items : List Item, (∀ i ∈ items, i.Valid) ∧ args = items.flatMap Item.tokens
        ∧ opts' = items.foldl Item.apply opts := by
  fun_induction parseLoop args opts with
  | case1 opts =>
      intro opts' h
      cases h
      exact ⟨[], nofun, rfl, rfl⟩
  | case2 =>
      intro opts' h
      cases h
  | case3 a opts opts₁ value rest hturn ih =>
      intro opts' h
      obtain ⟨item, hvalid, htokens, _, rfl⟩ := turn_reads hturn
      obtain ⟨items, hall, rfl, rfl⟩ := ih h
      refine ⟨item :: items, List.forall_mem_cons.mpr ⟨hvalid, hall⟩, ?_, rfl⟩
      rw [List.flatMap_cons, htokens]
      rfl
  | case4 a opts opts₁ skip rest hrest hturn ih =>
      intro opts' h
      obtain ⟨item, hvalid, htokens, hnext, rfl⟩ := turn_reads hturn
      -- only the last argument has nothing behind it, and it takes no value
      have hskip : skip = false := by
        by_contra hne
        rw [Bool.not_eq_false] at hne
        cases rest with
        | nil => exact hnext hne rfl
        | cons value rest => exact hrest value rest hne rfl
      obtain ⟨items, hall, hargs, rfl⟩ := ih h
      refine ⟨item :: items, List.forall_mem_cons.mpr ⟨hvalid, hall⟩, ?_, rfl⟩
      rw [List.flatMap_cons, htokens, hskip, ← hargs]
      rfl

/-- **The loop reads rows of valid items.** -/
theorem parseLoop_iff {args : List Text} {opts opts' : LintOptions} :
    parseLoop args opts = .ok opts' ↔
      ∃ items : List Item, (∀ i ∈ items, i.Valid) ∧ args = items.flatMap Item.tokens
        ∧ opts' = items.foldl Item.apply opts := by
  refine ⟨exists_items, ?_⟩
  rintro ⟨items, hall, rfl, rfl⟩
  induction items generalizing opts with
  | nil => rfl
  | cons item items ih =>
      rw [List.flatMap_cons, parseLoop_item (hall item List.mem_cons_self)]
      exact ih fun i hi => hall i (List.mem_cons_of_mem _ hi)

/-- What a row leaves of the options before it. -/
theorem foldl_apply {items : List Item} {opts : LintOptions} :
    ((items.foldl Item.apply opts).applyFix = true ↔ opts.applyFix = true ∨ .fix ∈ items)
      ∧ ∀ p, p ∈ (items.foldl Item.apply opts).paths ↔ p ∈ opts.paths ∨ .path p ∈ items := by
  induction items generalizing opts with
  | nil => simp
  | cons item items ih =>
      obtain ⟨hfix, hpaths⟩ := @ih (item.apply opts)
      rw [List.foldl_cons, hfix]
      refine ⟨?_, fun p => (hpaths p).trans ?_⟩
      · cases item <;> simp [Item.apply]
      · cases item <;> simp [Item.apply, or_assoc, eq_comm]

theorem tokens_ne_nil (item : Item) : item.tokens ≠ [] := by
  cases item with
  | sourceLanguage joined => cases joined <;> exact List.cons_ne_nil _ _
  | format joined => cases joined <;> exact List.cons_ne_nil _ _
  | _ => exact List.cons_ne_nil _ _

/-- What is accepted has gone through the loop. -/
theorem parseLoop_of_accepted {args : List Text} {opts opts' : LintOptions}
    (h : parseLintArgs args opts = .ok opts') : parseLoop args opts = .ok opts' ∧ opts'.paths ≠ [] := by
  unfold parseLintArgs at h
  split at h
  case isTrue => cases h
  case isFalse =>
    cases hloop : parseLoop args opts with
    | error message =>
        rw [hloop] at h
        cases h
    | ok found =>
        rw [hloop] at h
        dsimp only at h
        split at h
        case isTrue => cases h
        case isFalse hne =>
          cases h
          exact ⟨rfl, hne⟩

/-- **The command lines that are accepted** are the rows of valid items with a path
among them, and mean what the items say one after another. -/
theorem parseLintArgs_iff {args : List Text} {opts : LintOptions} :
    parseLintArgs args defaultOptions = .ok opts ↔
      ∃ items : List Item, (∀ i ∈ items, i.Valid) ∧ args = items.flatMap Item.tokens ∧ opts = meaningOf items
        ∧ ∃ p, .path p ∈ items := by
  have hpaths : ∀ items : List Item, (meaningOf items).paths = [] ↔ ¬ ∃ p, .path p ∈ items := by
    intro items
    rw [List.eq_nil_iff_forall_not_mem, not_exists]
    exact forall_congr' fun p => not_congr ((foldl_apply.2 p).trans (or_iff_right List.not_mem_nil))
  constructor
  · intro h
    obtain ⟨hloop, hne⟩ := parseLoop_of_accepted h
    obtain ⟨items, hall, hargs, rfl⟩ := exists_items hloop
    exact ⟨items, hall, hargs, rfl, not_not.mp (mt (hpaths items).mpr hne)⟩
  · rintro ⟨items, hall, rfl, rfl, p, hp⟩
    have hne : items.flatMap Item.tokens ≠ [] := by
      intro hnil
      exact tokens_ne_nil _ (List.flatMap_eq_nil_iff.mp hnil _ hp)
    unfold parseLintArgs
    rw [if_neg hne, parseLoop_iff.mpr ⟨items, hall, rfl, rfl⟩]
    exact if_neg fun hnil => (hpaths items).mp hnil ⟨p, hp⟩

/-! ## §6. The program. -/

/-- What `print_usage` prints below the version. -/
def usageLines : List String :=
  ["Usage: shader-clippy <command> [args]",
   "",
   "Commands:",
   "  lint <file>...  [--fix] [--config <path>] [--target-profile <p>]",
   "                  [--format=<human|json|github-annotations>]",
   "                  [--source-language=<auto|hlsl|slang>]",
   "                Lint one or more HLSL or Slang source files.",
   "                Multi-file",
   "                invocation amortizes Slang init / rule registry",
   "                / reflection cache across all files in one process",
   "                (3-10x speedup vs N separate invocations on a",
   "                shader tree). With --fix, apply",
   "                machine-applicable rewrites in place. With",
   "                --config, use the given .shader-clippy.toml",
   "                instead of walking up from the file's parent.",
   "                With --target-profile, override the Slang",
   "                reflection profile (default: per-stage sm_6_6).",
   "                With --format, control output rendering:",
   "                  human (default)        rustc-style with carets",
   "                  json                   flat array, stable schema",
   "                  github-annotations     ::warning file=...:: lines",
   "                When $GITHUB_ACTIONS=true and --format is unset,",
   "                github-annotations is selected automatically.",
   "                With --source-language, force a frontend",
   "                (default: auto, infers from extension).",
   "                On `.slang` sources only Reflection-stage rules",
   "                fire; tree-sitter-hlsl cannot parse Slang's",
   "                language extensions (ADR 0020 sub-phase A).",
   "  --help        Print this help",
   "  --version     Print version"]

/-- `print_usage`. -/
def usage : Text :=
  "shader-clippy ".toList ++ version ++ "\n".toList ++ usageLines.flatMap fun line => line.toList ++ "\n".toList

variable {σ κ : Type}

/-- `run_main`: the exit code, and the files and the output streams after the run. The
first argument is the name of the program. -/
def runMain (host : Host σ κ) (args : List Text) (w : World σ) : Nat × World σ :=
  match args with
  | _ :: cmd :: tail =>
      if cmd = "--help".toList ∨ cmd = "-h".toList then (0, { w with out := w.out ++ usage })
      else if cmd = "--version".toList ∨ cmd = "-v".toList then
        (0, { w with out := w.out ++ version ++ "\n".toList })
      else if cmd = "lint".toList then
        match parseLintArgs tail defaultOptions with
        | .error message => (2, { w with err := w.err ++ message })
        | .ok opts =>
            let finished := runLintCommand host opts w
            (finished.exitCode, finished.world)
      else (1, { w with out := w.out ++ usage })
  | _ => (1, { w with out := w.out ++ usage })

/-- Every run but a linting one leaves the files as they are. -/
theorem runMain_cases (host : Host σ κ) (args : List Text) (w : World σ) :
    (runMain host args w).2.files = w.files
      ∨ ∃ program tail opts, args = program :: "lint".toList :: tail ∧ parseLintArgs tail defaultOptions = .ok opts
        ∧ runMain host args w = ((runLintCommand host opts w).exitCode, (runLintCommand host opts w).world) := by
  unfold runMain
  split
  case h_2 => exact .inl rfl
  case h_1 program cmd tail =>
    split
    case isTrue => exact .inl rfl
    case isFalse =>
      split
      case isTrue => exact .inl rfl
      case isFalse =>
        split
        case isFalse => exact .inl rfl
        case isTrue hcmd =>
          split
          case h_1 => exact .inl rfl
          case h_2 opts hopts => exact .inr ⟨program, tail, opts, by rw [hcmd], hopts, rfl⟩

/-- A run that gave up a file exits with 2. -/
theorem not_fatal (host : Host σ κ) (opts : LintOptions) (w : World σ)
    (h : (runLintCommand host opts w).exitCode ≠ 2) :
    ∀ r ∈ (runLintCommand host opts w).results, r.fatal = false := by
  unfold runLintCommand at h ⊢
  split at h
  case isTrue => exact absurd rfl h
  case isFalse hpaths =>
    rw [if_neg hpaths]
    intro r hr
    by_contra hfatal
    rw [Bool.not_eq_false] at hfatal
    refine h (if_pos (List.any_eq_true.mpr ⟨r, hr, ?_⟩))
    rw [hfatal, Bool.or_true]

/-- `shader-clippy lint a.hlsl --format json --fix`. -/
def fixArguments : List Text :=
  ["shader-clippy".toList, "lint".toList, "a.hlsl".toList, "--format".toList, "json".toList, "--fix".toList]

/-- What is given twice counts as it is given last, and an option takes any value. -/
example : parseLintArgs ["--format=json".toList, "--config".toList, "--fix".toList, "a".toList, "--format".toList,
    "human".toList] defaultOptions = .ok ⟨["a".toList], false, "--fix".toList, [], some .human, .auto⟩ := by rfl

end ShaderClippy.Cli
