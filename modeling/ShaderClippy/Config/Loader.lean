/-
  ShaderClippy.Config.Loader

  **`.shader-clippy.toml`** (`config.cpp`, `parse_root`).

  The TOML parser is outside: a document is the table it returns. `parse_root` goes
  through the known keys of it and stops at the first value of a wrong type; a wrong
  number, language or target is no error but a warning. A document is accepted
  exactly if it `Conforms` (`parseRoot_accepts`), unknown keys and all.
-/
import ShaderClippy.Lib.Checked
import ShaderClippy.Lib.LexicalPath
import ShaderClippy.Lint.Orchestrator
import Mathlib.Algebra.Order.Ring.Rat

namespace ShaderClippy

/-- `SourceLanguage`. -/
inductive SourceLanguage where
  | auto
  | hlsl
  | slang
  deriving Repr, DecidableEq

/-- `language_label`. -/
def SourceLanguage.label : SourceLanguage → Text
  | .auto => "auto".toList
  | .hlsl => "hlsl".toList
  | .slang => "slang".toList

end ShaderClippy

namespace ShaderClippy.Config

open Checked (Succeeds)
open LexicalPath (Path)
open Lint (ExperimentalTarget RuleSeverity RuleOverride)

/-! ## §1. Documents. -/

/-- Where a value begins in the file. -/
structure Place where
  line : Nat
  column : Nat
  deriving Repr, DecidableEq

/-- A floating-point number of the file. -/
inductive Double where
  | finite (q : ℚ)
  | infinite (negative : Bool)
  | nan

/-- A value of a TOML document. -/
inductive Toml where
  | string (place : Place) (text : Text)
  | integer (place : Place) (value : Int)
  | floating (place : Place) (value : Double)
  | boolean (place : Place) (value : Bool)
  | dateOrTime (place : Place)
  | array (place : Place) (elements : List Toml)
  | table (place : Place) (entries : List (Text × Toml))

/-- `source().begin`. -/
def Toml.place : Toml → Place
  | .string p _ | .integer p _ | .floating p _ | .boolean p _ | .dateOrTime p | .array p _ | .table p _ => p

/-- The entries of a table, by their keys. -/
abbrev Table := List (Text × Toml)

/-- `get`. -/
def getKey (table : Table) (key : Text) : Option Toml := table.lookup key

/-- `ConfigError`. -/
structure ConfigError where
  message : Text
  line : Nat
  column : Nat
  source : Text
  deriving Repr, DecidableEq

/-- `make_error`. -/
def makeError (message source : Text) (place : Place) : ConfigError := ⟨message, place.line, place.column, source⟩

/-- The place of an error about a whole section. -/
def unknownPlace : Place := ⟨0, 0⟩

/-- `Config`: what the orchestrator reads of it, and the rest. -/
structure LoadedConfig extends Lint.Config where
  includes : List Text
  excludes : List Text
  shaderIncludeDirectories : List Path
  compareEpsilonValue : ℚ
  divEpsilonValue : ℚ
  sourceLanguageValue : SourceLanguage
  warnings : List Text
  deriving DecidableEq

/-! ## §2. Values. -/

def backquoted (t : Text) : Text := '`' :: (t ++ ['`'])

def quoted (t : Text) : Text := '"' :: (t ++ ['"'])

/-- `parse_rule_severity`. -/
def parseRuleSeverity (text : Text) : Option RuleSeverity :=
  if text = "allow".toList then some .allow
  else if text = "warn".toList then some .warn
  else if text = "deny".toList then some .deny
  else none

/-- `parse_source_language`: the language, and whether the text is unknown. -/
def parseSourceLanguage (text : Text) : SourceLanguage × Bool :=
  if text.isEmpty || text = "auto".toList then (.auto, false)
  else if text = "hlsl".toList then (.hlsl, false)
  else if text = "slang".toList then (.slang, false)
  else (.auto, true)

/-- `parse_experimental_target`. -/
def parseExperimentalTarget (text : Text) : ExperimentalTarget × Bool :=
  if text.isEmpty then (.none, false)
  else if text = "rdna4".toList then (.rdna4, false)
  else if text = "blackwell".toList then (.blackwell, false)
  else if text = "xe2".toList then (.xe2, false)
  else (.none, true)

/-- `resolve_config_relative_path`. -/
def resolveConfigRelativePath (text : Text) (source : Path) : Path :=
  let path := Path.ofText text
  if path.rooted || source.isEmpty then path.normal
  else
    let base := source.parent
    if base.isEmpty then path.normal
    -- `base / path`, where an empty path adds a separator
    else (⟨base.rooted, base.names ++ path.names, path.trailing || path.names.isEmpty⟩ : Path).normal

/-- How often a number is doubled before it is one at least, `n` times at most. -/
def doublings : Nat → ℚ → Nat
  | 0, _ => 0
  | n + 1, q => if 1 ≤ q then 0 else doublings n (2 * q) + 1

/-- The nearest integer, the even one of two. -/
def roundEven (q : ℚ) : Int :=
  let below := q.floor
  if q - below < 1 / 2 then below
  else if q - below = 1 / 2 then (if below % 2 = 0 then below else below + 1)
  else below + 1

/-- The `float` of a number between 0 and 1. -/
def toFloat (q : ℚ) : ℚ :=
  let unit := 2 ^ (doublings 126 q + 23)
  roundEven (q * unit) / unit

/-- The number, if it is one between 0 and 1. The `double` of an integer is on the
same side of 0 and 1 as the integer. -/
def unitNumber : Toml → Option ℚ
  | .floating _ (.finite q) => if 0 < q ∧ q < 1 then some q else none
  | .integer _ i => if 0 < (i : ℚ) ∧ (i : ℚ) < 1 then some i else none
  | _ => none

/-! ## §3. Sections. -/

section Sections

variable (source : Text)

/-- A section of the root, if it is there: a table. -/
def sectionTable (root : Table) (name : Text) : Except ConfigError (Option Table) :=
  match getKey root name with
  | none => .ok none
  | some (.table _ entries) => .ok (some entries)
  | some _ => .error (makeError (backquoted name ++ " must be a table".toList) source unknownPlace)

/-- A list of strings under a key of a section. -/
def stringList (root : Table) (name key : Text) : Except ConfigError (List Text) := do
  match ← sectionTable source root name with
  | none => return []
  | some table =>
      let field := backquoted (name ++ '.' :: key)
      match getKey table key with
      | none => return []
      | some (.array _ elements) =>
          elements.mapM fun
            | .string _ text => .ok text
            -- unlike an error about one value, this one has no place
            | _ => .error (makeError (field ++ " entries must be strings".toList) source unknownPlace)
      | some _ => .error (makeError (field ++ " must be an array of strings".toList) source unknownPlace)

/-- The severity of one rule. -/
def severityEntry (notString : Text → Text) (invalid : Text → Text → Text) (entry : Text × Toml) :
    Except ConfigError (Text × RuleSeverity) :=
  match entry.2 with
  | .string place text =>
      match parseRuleSeverity text with
      | some sev => .ok (entry.1, sev)
      -- a string, but none of the three severities
      | none => .error (makeError (invalid entry.1 text) source place)
  | value => .error (makeError (notString entry.1) source value.place)

/-- `[rules]`. -/
def rulesSection (root : Table) : Except ConfigError (List (Text × RuleSeverity)) := do
  match ← sectionTable source root "rules".toList with
  | none => return []
  | some table =>
      table.mapM (severityEntry source
        (fun key => backquoted ("rules.".toList ++ key)
          ++ " must be a string (\"allow\", \"warn\", or \"deny\")".toList)
        (fun key text => "invalid severity ".toList ++ quoted text ++ " for rule ".toList ++ backquoted key
          ++ ": expected \"allow\", \"warn\", or \"deny\"".toList))

/-- `parse_epsilon`: the number, and the warnings. -/
def parseEpsilon (table : Table) (key : Text) (default : ℚ) : ℚ × List Text :=
  match getKey table key with
  | none => (default, [])
  | some value =>
      match unitNumber value with
      | some q => (toFloat q, [])
      | none =>
          (default, [backquoted ("float.".toList ++ key)
            ++ " must be a positive numeric value strictly less than 1.0; ".toList
            ++ "falling back to the default".toList])

/-- `k_default_compare_epsilon`. -/
def kDefaultCompareEpsilon : ℚ := toFloat (1 / 10000)

/-- `k_default_div_epsilon`. -/
def kDefaultDivEpsilon : ℚ := toFloat (1 / 1000000)

/-- `[float]`: both numbers, and the warnings. -/
def floatSection (root : Table) : Except ConfigError (ℚ × ℚ × List Text) := do
  match ← sectionTable source root "float".toList with
  | none => return (kDefaultCompareEpsilon, kDefaultDivEpsilon, [])
  | some table =>
      let compare := parseEpsilon table "compare-epsilon".toList kDefaultCompareEpsilon
      let div := parseEpsilon table "div-epsilon".toList kDefaultDivEpsilon
      return (compare.1, div.1, compare.2 ++ div.2)

/-- A choice by name under a key of a section, and the warnings. -/
def choice {α : Type} (root : Table) (name key expected : Text) (parse : Text → α × Bool)
    (fallback : Text) (default : α) : Except ConfigError (α × List Text) := do
  match ← sectionTable source root name with
  | none => return (default, [])
  | some table =>
      match getKey table key with
      | none => return (default, [])
      | some (.string _ text) =>
          return ((parse text).1, if (parse text).2 then
            ["unrecognised ".toList ++ backquoted (name ++ '.' :: key ++ " = ".toList ++ quoted text) ++ fallback] else [])
      | some value =>
          .error (makeError (backquoted (name ++ '.' :: key) ++ " must be a string ".toList ++ expected) source value.place)

/-- `[lint] source-language`. -/
def sourceLanguageSection (root : Table) : Except ConfigError (SourceLanguage × List Text) :=
  choice source root "lint".toList "source-language".toList "(\"auto\", \"hlsl\", or \"slang\")".toList
    parseSourceLanguage ": expected \"auto\", \"hlsl\", or \"slang\"; falling back to \"auto\"".toList .auto

/-- `[experimental] target`. -/
def experimentalSection (root : Table) : Except ConfigError (ExperimentalTarget × List Text) :=
  choice source root "experimental".toList "target".toList
    "(\"rdna4\", \"blackwell\", \"xe2\", or empty)".toList parseExperimentalTarget
    (": expected \"rdna4\", \"blackwell\", \"xe2\", or empty; ".toList
      ++ "falling back to no experimental target".toList) .none

/-- The path glob of an override. -/
def overridePath (table : Table) : Except ConfigError Text :=
  match getKey table "path".toList with
  | none => .error (makeError "`overrides[]` requires a `path` field".toList source unknownPlace)
  | some (.string _ text) => .ok text
  | some _ => .error (makeError "`overrides[].path` must be a string".toList source unknownPlace)

/-- The severities of an override. -/
def overrideRules (table : Table) : Except ConfigError (List (Text × RuleSeverity)) :=
  match getKey table "rules".toList with
  | none => .ok []
  | some (.table _ entries) =>
      entries.mapM (severityEntry source
        (fun key => backquoted ("overrides[].rules.".toList ++ key) ++ " must be a string".toList)
        (fun key _ => "invalid severity for ".toList ++ backquoted ("overrides[].rules.".toList ++ key)))
  | some _ => .error (makeError "`overrides[].rules` must be a table".toList source unknownPlace)

/-- One entry of `[[overrides]]`. -/
def overrideEntry (value : Toml) : Except ConfigError RuleOverride :=
  match value with
  | .table _ table => do return ⟨← overridePath source table, ← overrideRules source table⟩
  | _ => .error (makeError "`overrides` entries must be tables".toList source unknownPlace)

/-- `[[overrides]]`. -/
def overridesSection (root : Table) : Except ConfigError (List RuleOverride) :=
  match getKey root "overrides".toList with
  | none => .ok []
  -- the first entry that is refused ends the reading
  | some (.array _ elements) => elements.mapM (overrideEntry source)
  | some _ => .error (makeError "`overrides` must be an array of tables".toList source unknownPlace)

/-- **`parse_root`.** -/
def parseRoot (root : Table) : Except ConfigError LoadedConfig := do
  let rules ← rulesSection source root
  let includes ← stringList source root "includes".toList "patterns".toList
  let excludes ← stringList source root "excludes".toList "patterns".toList
  let directories ← stringList source root "shader".toList "include-directories".toList
  let (compareEpsilon, divEpsilon, floatWarnings) ← floatSection source root
  let (language, languageWarnings) ← sourceLanguageSection source root
  let (target, targetWarnings) ← experimentalSection source root
  let overrides ← overridesSection source root
  return {
    ruleSeverity := rules
    overrides := overrides
    experimentalTarget := target
    includes := includes
    excludes := excludes
    shaderIncludeDirectories := directories.map fun text => resolveConfigRelativePath text (Path.ofText source)
    compareEpsilonValue := compareEpsilon
    divEpsilonValue := divEpsilon
    sourceLanguageValue := language
    warnings := floatWarnings ++ languageWarnings ++ targetWarnings }

end Sections

/-! ## §4. Files. -/

/-- `load_config_string`; `parse` is the TOML parser, whose errors come with a place. -/
def loadConfigString (parse : Text → Except (Text × Place) Table) (contents origin : Text) :
    Except ConfigError LoadedConfig :=
  match parse contents with
  | .error (description, place) => .error (makeError description origin place)
  | .ok root => parseRoot origin root

/-- `load_config`. -/
def loadConfig (parse : Text → Except (Text × Place) Table) (files : Text → Option Text) (path : Text) :
    Except ConfigError LoadedConfig :=
  match files path with
  | none => .error (makeError "could not open config file".toList path unknownPlace)
  | some contents => loadConfigString parse contents path

/-! ## §5. What is accepted. -/

/-- All values are severities. -/
def SeverityTable (table : Table) : Prop :=
  ∀ entry ∈ table, ∃ place text, entry.2 = .string place text ∧ (parseRuleSeverity text).isSome = true

/-- The value under a key of a section, if it is there, is as it should be. -/
def Holds (root : Table) (name key : Text) (ok : Toml → Prop) : Prop :=
  ∀ place table value, getKey root name = some (.table place table) → getKey table key = some value → ok value

def IsString (value : Toml) : Prop := ∃ place text, value = .string place text

def IsStringArray (value : Toml) : Prop := ∃ place elements, value = .array place elements ∧ ∀ e ∈ elements, IsString e

/-- A table with a path, and with severities if it has rules. -/
def IsOverride (value : Toml) : Prop :=
  ∃ place table, value = .table place table
    ∧ (∃ path, getKey table "path".toList = some path ∧ IsString path)
    ∧ ∀ rules, getKey table "rules".toList = some rules → ∃ place' entries, rules = .table place' entries ∧ SeverityTable entries

/-- The sections that are tables. -/
def kSections : List Text :=
  ["rules".toList, "includes".toList, "excludes".toList, "shader".toList, "float".toList, "lint".toList,
    "experimental".toList]

/-- **The schema**: what the known keys hold. Nothing is asked of the numbers below
`float`. -/
structure Conforms (root : Table) : Prop where
  sections : ∀ name ∈ kSections, ∀ value, getKey root name = some value → ∃ place table, value = .table place table
  rules : ∀ place table, getKey root "rules".toList = some (.table place table) → SeverityTable table
  includes : Holds root "includes".toList "patterns".toList IsStringArray
  excludes : Holds root "excludes".toList "patterns".toList IsStringArray
  directories : Holds root "shader".toList "include-directories".toList IsStringArray
  language : Holds root "lint".toList "source-language".toList IsString
  target : Holds root "experimental".toList "target".toList IsString
  overrides : ∀ value, getKey root "overrides".toList = some value →
    ∃ place elements, value = .array place elements ∧ ∀ e ∈ elements, IsOverride e

section Accepted

variable {source : Text} {root : Table}

/-- The section is absent or a table. -/
def IsSection (root : Table) (name : Text) : Prop :=
  ∀ value, getKey root name = some value → ∃ place table, value = .table place table

theorem succeeds_sectionTable {name : Text} : Succeeds (sectionTable source root name) ↔ IsSection root name := by
  unfold sectionTable IsSection
  split
  case h_1 hget => exact ⟨fun _ => by rw [hget]; exact nofun, fun _ => .ok none⟩
  case h_2 place entries hget =>
    refine ⟨fun _ value h => ?_, fun _ => .ok _⟩
    rw [hget] at h
    exact ⟨place, entries, (Option.some.inj h).symm⟩
  case h_3 value hother hget =>
    refine ⟨fun h => absurd h (Checked.not_succeeds_error _), fun h => ?_⟩
    obtain ⟨place, table, rfl⟩ := h value hget
    exact absurd rfl (hother place table)

theorem sectionTable_eq {name : Text} {found : Option Table} (h : sectionTable source root name = .ok found) :
    (found = none ∧ getKey root name = none)
      ∨ ∃ place table, found = some table ∧ getKey root name = some (.table place table) := by
  unfold sectionTable at h
  split at h
  case h_1 hget =>
    cases h
    exact .inl ⟨rfl, hget⟩
  case h_2 place entries hget =>
    cases h
    exact .inr ⟨place, entries, rfl, hget⟩
  case h_3 => cases h

/-- What is read of a section succeeds if the section is one and the value holds. -/
theorem succeeds_section {α : Type} {name : Text} {k : Option Table → Except ConfigError α} (P : Table → Prop)
    (hnone : Succeeds (k none)) (hsome : ∀ table, Succeeds (k (some table)) ↔ P table) :
    Succeeds (sectionTable source root name >>= k)
      ↔ IsSection root name ∧ ∀ place table, getKey root name = some (.table place table) → P table := by
  rw [← @succeeds_sectionTable source]
  refine Checked.succeeds_bind fun found hfound => ?_
  -- the section is absent, or the table that is read further
  obtain ⟨rfl, hget⟩ | ⟨place, table, rfl, hget⟩ := sectionTable_eq hfound
  · exact ⟨fun _ place table h => (by rw [hget] at h; cases h), fun _ => hnone⟩
  · rw [hsome]
    constructor
    · intro hP place' table' h
      rw [hget] at h
      cases h
      exact hP
    · exact fun h => h place table hget

theorem succeeds_stringList {name key : Text} :
    Succeeds (stringList source root name key) ↔ IsSection root name ∧ Holds root name key IsStringArray := by
  unfold stringList
  refine Iff.trans (succeeds_section (fun table => ∀ value, getKey table key = some value → IsStringArray value)
    (.ok []) fun table => ?_) (and_congr_right fun _ =>
      ⟨fun h place table value hs => h place table hs value, fun h place table hs value => h place table value hs⟩)
  · dsimp only
    split
    case h_1 hget => exact ⟨fun _ value h => (by rw [hget] at h; cases h), fun _ => .ok []⟩
    case h_2 place elements hget =>
      rw [Checked.succeeds_mapM, hget]
      have helement : ∀ e : Toml, Succeeds (match e with
          | .string _ text => (.ok text : Except ConfigError Text)
          | _ => .error (makeError (backquoted (name ++ '.' :: key) ++ " entries must be strings".toList) source
              unknownPlace)) ↔ IsString e := by
        intro e
        cases e with
        | string place text => exact ⟨fun _ => ⟨place, text, rfl⟩, fun _ => .ok text⟩
        | _ => exact ⟨fun h => absurd h (Checked.not_succeeds_error _), fun ⟨_, _, h⟩ => nomatch h⟩
      simp only [helement]
      constructor
      · rintro h value ⟨⟩
        exact ⟨place, elements, rfl, h⟩
      · intro h
        obtain ⟨_, _, heq, helements⟩ := h _ rfl
        cases heq
        exact helements
    case h_3 value hother hget =>
      refine ⟨fun h => absurd h (Checked.not_succeeds_error _), fun h => ?_⟩
      obtain ⟨place, elements, rfl, _⟩ := h value hget
      exact absurd rfl (hother place elements)

theorem succeeds_severityEntry {notString : Text → Text} {invalid : Text → Text → Text} {entry : Text × Toml} :
    Succeeds (severityEntry source notString invalid entry)
      ↔ ∃ place text, entry.2 = .string place text ∧ (parseRuleSeverity text).isSome = true := by
  unfold severityEntry
  split
  case h_1 place text hstring =>
    split
    case h_1 sev hsev => exact ⟨fun _ => ⟨place, text, hstring, by rw [hsev]; rfl⟩, fun _ => .ok _⟩
    case h_2 hsev =>
      refine ⟨fun h => absurd h (Checked.not_succeeds_error _), fun ⟨_, _, h, hsome⟩ => ?_⟩
      rw [hstring] at h
      cases h
      rw [hsev] at hsome
      cases hsome
  case h_2 hother =>
    exact ⟨fun h => absurd h (Checked.not_succeeds_error _), fun ⟨place, text, h, _⟩ => absurd h (hother place text)⟩

theorem succeeds_rulesSection :
    Succeeds (rulesSection source root) ↔ IsSection root "rules".toList
      ∧ ∀ place table, getKey root "rules".toList = some (.table place table) → SeverityTable table := by
  unfold rulesSection
  refine succeeds_section SeverityTable (.ok []) fun table => ?_
  rw [Checked.succeeds_mapM]
  exact forall₂_congr fun _ _ => succeeds_severityEntry

theorem succeeds_floatSection : Succeeds (floatSection source root) ↔ IsSection root "float".toList := by
  unfold floatSection
  exact Iff.trans (succeeds_section (fun _ => True) (.ok _) fun table => ⟨fun _ => trivial, fun _ => .ok _⟩)
    (and_iff_left fun _ _ _ => trivial)

theorem succeeds_choice {α : Type} {name key expected fallback : Text} {parse : Text → α × Bool} {default : α} :
    Succeeds (choice source root name key expected parse fallback default)
      ↔ IsSection root name ∧ Holds root name key IsString := by
  unfold choice
  refine Iff.trans (succeeds_section (fun table => ∀ value, getKey table key = some value → IsString value)
    (.ok _) fun table => ?_) (and_congr_right fun _ =>
      ⟨fun h place table value hs => h place table hs value, fun h place table hs value => h place table value hs⟩)
  · dsimp only
    split
    case h_1 hget => exact ⟨fun _ value h => (by rw [hget] at h; cases h), fun _ => .ok _⟩
    case h_2 place text hget =>
      refine ⟨fun _ value h => ?_, fun _ => .ok _⟩
      rw [hget] at h
      cases h
      exact ⟨place, text, rfl⟩
    case h_3 value hother hget =>
      refine ⟨fun h => absurd h (Checked.not_succeeds_error _), fun h => ?_⟩
      obtain ⟨place, text, rfl⟩ := h value hget
      exact absurd rfl (hother place text)

theorem succeeds_overridePath {table : Table} :
    Succeeds (overridePath source table) ↔ ∃ path, getKey table "path".toList = some path ∧ IsString path := by
  unfold overridePath
  split
  case h_1 hget =>
    refine ⟨fun h => absurd h (Checked.not_succeeds_error _), fun ⟨_, h, _⟩ => ?_⟩
    rw [hget] at h
    cases h
  case h_2 place text hget => exact ⟨fun _ => ⟨_, hget, place, text, rfl⟩, fun _ => .ok text⟩
  case h_3 value hother hget =>
    refine ⟨fun h => absurd h (Checked.not_succeeds_error _), fun ⟨path, h, place, text, hpath⟩ => ?_⟩
    rw [hget, hpath] at h
    exact absurd (Option.some.inj h) (hother place text)

theorem succeeds_overrideRules {table : Table} :
    Succeeds (overrideRules source table) ↔ ∀ rules, getKey table "rules".toList = some rules →
      ∃ place entries, rules = .table place entries ∧ SeverityTable entries := by
  unfold overrideRules
  split
  case h_1 hget => exact ⟨fun _ rules h => (by rw [hget] at h; cases h), fun _ => .ok []⟩
  case h_2 place entries hget =>
    rw [Checked.succeeds_mapM, hget]
    constructor
    · rintro h rules ⟨⟩
      exact ⟨place, entries, rfl, fun entry he => succeeds_severityEntry.mp (h entry he)⟩
    · intro h entry he
      obtain ⟨_, _, heq, htable⟩ := h _ rfl
      cases heq
      exact succeeds_severityEntry.mpr (htable entry he)
  case h_3 value hother hget =>
    refine ⟨fun h => absurd h (Checked.not_succeeds_error _), fun h => ?_⟩
    obtain ⟨place, entries, rfl, _⟩ := h value hget
    exact absurd rfl (hother place entries)

theorem succeeds_overrideEntry {value : Toml} : Succeeds (overrideEntry source value) ↔ IsOverride value := by
  unfold overrideEntry
  split
  case h_1 place table =>
    have hboth : Succeeds (do return (⟨← overridePath source table, ← overrideRules source table⟩ : RuleOverride))
        ↔ Succeeds (overridePath source table) ∧ Succeeds (overrideRules source table) :=
      Checked.succeeds_bind fun path _ => Checked.succeeds_map
    rw [hboth, succeeds_overridePath, succeeds_overrideRules]
    constructor
    · exact fun h => ⟨place, table, rfl, h⟩
    · rintro ⟨_, _, heq, h⟩
      cases heq
      exact h
  case h_2 hother =>
    exact ⟨fun h => absurd h (Checked.not_succeeds_error _), fun ⟨place, table, h, _⟩ => absurd h (hother place table)⟩

theorem succeeds_overridesSection :
    Succeeds (overridesSection source root) ↔ ∀ value, getKey root "overrides".toList = some value →
      ∃ place elements, value = .array place elements ∧ ∀ e ∈ elements, IsOverride e := by
  unfold overridesSection
  split
  case h_1 hget => exact ⟨fun _ value h => (by rw [hget] at h; cases h), fun _ => .ok []⟩
  case h_2 place elements hget =>
    rw [Checked.succeeds_mapM, hget]
    constructor
    · rintro h value ⟨⟩
      exact ⟨place, elements, rfl, fun e he => succeeds_overrideEntry.mp (h e he)⟩
    · intro h e he
      obtain ⟨_, _, heq, helements⟩ := h _ rfl
      cases heq
      exact succeeds_overrideEntry.mpr (helements e he)
  case h_3 value hother hget =>
    refine ⟨fun h => absurd h (Checked.not_succeeds_error _), fun h => ?_⟩
    obtain ⟨place, elements, rfl, _⟩ := h value hget
    exact absurd rfl (hother place elements)

theorem succeeds_parseRoot : Succeeds (parseRoot source root) ↔ Conforms root := by
  have hall : Succeeds (parseRoot source root) ↔
      Succeeds (rulesSection source root) ∧ Succeeds (stringList source root "includes".toList "patterns".toList)
        ∧ Succeeds (stringList source root "excludes".toList "patterns".toList)
        ∧ Succeeds (stringList source root "shader".toList "include-directories".toList)
        ∧ Succeeds (floatSection source root) ∧ Succeeds (sourceLanguageSection source root)
        ∧ Succeeds (experimentalSection source root) ∧ Succeeds (overridesSection source root) := by
    unfold parseRoot
    refine Checked.succeeds_bind fun _ _ => Checked.succeeds_bind fun _ _ => Checked.succeeds_bind fun _ _ =>
      Checked.succeeds_bind fun _ _ => Checked.succeeds_bind fun _ _ => Checked.succeeds_bind fun _ _ =>
      Checked.succeeds_bind fun _ _ => Checked.succeeds_map
  rw [hall, succeeds_rulesSection, succeeds_stringList, succeeds_stringList, succeeds_stringList,
    succeeds_floatSection, sourceLanguageSection, succeeds_choice, experimentalSection, succeeds_choice,
    succeeds_overridesSection]
  constructor
  · rintro ⟨⟨h1, hrules⟩, ⟨h2, hincludes⟩, ⟨h3, hexcludes⟩, ⟨h4, hdirectories⟩, h5, ⟨h6, hlanguage⟩, ⟨h7, htarget⟩,
      hoverrides⟩
    refine ⟨fun name hname => ?_, hrules, hincludes, hexcludes, hdirectories, hlanguage, htarget, hoverrides⟩
    simp only [kSections, List.mem_cons, List.not_mem_nil, or_false] at hname
    obtain rfl | rfl | rfl | rfl | rfl | rfl | rfl := hname
    · exact h1
    · exact h2
    · exact h3
    · exact h4
    · exact h5
    · exact h6
    · exact h7
  · intro h
    have hsection : ∀ name ∈ kSections, IsSection root name := h.sections
    exact ⟨⟨hsection _ (by simp [kSections]), h.rules⟩, ⟨hsection _ (by simp [kSections]), h.includes⟩,
      ⟨hsection _ (by simp [kSections]), h.excludes⟩, ⟨hsection _ (by simp [kSections]), h.directories⟩,
      hsection _ (by simp [kSections]), ⟨hsection _ (by simp [kSections]), h.language⟩,
      ⟨hsection _ (by simp [kSections]), h.target⟩, h.overrides⟩

end Accepted

/-- **What is accepted**: the documents that conform, whatever else is in them. -/
theorem parseRoot_accepts (source : Text) (root : Table) :
    (∃ config, parseRoot source root = .ok config) ↔ Conforms root :=
  succeeds_parseRoot

end ShaderClippy.Config
