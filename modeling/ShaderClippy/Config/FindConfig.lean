/-
  ShaderClippy.Config.FindConfig

  **WHICH CONFIGURATION A FILE HAS** (`find_config`, `config.cpp`;
  `resolve_config_for`, `config_resolver.cpp`).

  From the directory of a file `find_config` walks up, name by name, to the first
  directory with a `.shader-clippy.toml`. A `.git` is the boundary of a workspace: the
  walk does not go on above it, but the directory it is in was looked into before.
  So a configuration is found exactly if a directory `Governs` the file
  (`findConfig_iff`).
-/
import ShaderClippy.Config.Declared
import Mathlib.Data.List.Infix

namespace ShaderClippy.Config

open LexicalPath (Path Name)
open Lint (RuleSeverity)

/-! ## §1. The file system. -/

/-- What there is under a path. -/
inductive FileType where
  | regular
  | directory
  | other
  deriving Repr, DecidableEq

/-- What the program asks the file system. Where it fails there is nothing. -/
structure FileSystem where
  status : Path → Option FileType
  absolute : Path → Option Path

/-- `exists`. -/
def FileSystem.isThere (fs : FileSystem) (path : Path) : Bool := (fs.status path).isSome

/-- `is_regular_file`. -/
def FileSystem.isRegularFile (fs : FileSystem) (path : Path) : Bool := decide (fs.status path = some .regular)

theorem FileSystem.isThere_of_regular {fs : FileSystem} {path : Path} (h : fs.isRegularFile path = true) :
    fs.isThere path = true := by
  unfold FileSystem.isThere
  rw [of_decide_eq_true h]
  rfl

/-- The path of a name in a directory. -/
def child (directory : Path) (name : Name) : Path := ⟨directory.rooted, directory.names ++ [name], false⟩

/-! ## §2. The walk. -/

def kConfigName : Name := ".shader-clippy.toml".toList

def kGitName : Name := ".git".toList

theorem parent_shorter {cur : Path} (h : cur.parent ≠ cur) :
    cur.parent.names.length + cur.parent.trailing.toNat < cur.names.length + cur.trailing.toNat := by
  -- the parent of `a/` is `a`, one separator shorter
  obtain ⟨rooted, names, trailing⟩ := cur
  cases trailing with
  | true => exact Nat.lt_succ_self _
  | false =>
      cases names with
      | nil => exact absurd rfl h
      | cons n names =>
          show (n :: names).dropLast.length + 0 < (n :: names).length + 0
          rw [List.length_dropLast]
          exact Nat.lt_succ_self _

/-- Where the walk ends. -/
theorem names_of_end {cur : Path} (h : cur.parent = cur ∨ cur.parent.isEmpty = true) :
    cur.names = [] ∨ ∃ name, cur.rooted = false ∧ cur.names = [name] := by
  obtain ⟨rooted, names, trailing⟩ := cur
  cases trailing with
  | true =>
      obtain heq | hempty := h
      · cases congrArg Path.trailing heq
      · exact .inl (List.isEmpty_iff.mp (Bool.and_eq_true_iff.mp hempty).2)
  | false =>
      obtain rfl | ⟨names, name, rfl⟩ := names.eq_nil_or_concat'
      · exact .inl rfl
      · obtain heq | hempty := h
        · have hsame : (names ++ [name]).dropLast = names ++ [name] := congrArg Path.names heq
          rw [List.dropLast_concat] at hsame
          exact absurd (congrArg List.length hsame) (by simp)
        · obtain ⟨hroot, hnil⟩ := Bool.and_eq_true_iff.mp hempty
          have hnil' : (names ++ [name]).dropLast = [] := List.isEmpty_iff.mp hnil
          rw [List.dropLast_concat] at hnil'
          exact .inr ⟨name, Bool.not_inj hroot, by rw [hnil']; rfl⟩

/-- The loop of `find_config`. -/
def walkUp (fs : FileSystem) (cur : Path) : Option Path :=
  let candidate := child cur kConfigName
  if fs.isThere candidate && fs.isRegularFile candidate then some candidate
  else if fs.isThere (child cur kGitName) then none
  else if _h : cur.parent = cur ∨ cur.parent.isEmpty = true then none
  else walkUp fs cur.parent
termination_by cur.names.length + cur.trailing.toNat
decreasing_by exact parent_shorter fun heq => _h (.inl heq)

/-- Where the walk begins: at the file's directory, or at the path itself if it is no
file. -/
def searchStart (fs : FileSystem) (start : Path) : Path :=
  let cur := (fs.absolute start).getD start
  if fs.isRegularFile cur then cur.parent else cur

/-- **`find_config`.** -/
def findConfig (fs : FileSystem) (start : Path) : Option Path := walkUp fs (searchStart fs start)

/-! ## §3. What is found. -/

section Found

variable {fs : FileSystem}

/-- The directory of the names. -/
def directory (rooted : Bool) (names : List Name) : Path := ⟨rooted, names, false⟩

/-- **A directory governs** what is at or below another one: it lies at or above it,
it has a configuration, and no directory nearer by has one or a `.git`. A relative path
is not followed above its first name. -/
structure Governs (fs : FileSystem) (rooted : Bool) (names above : List Name) : Prop where
  reaches : above <+: names
  named : rooted = true ∨ above ≠ [] ∨ names = []
  config : fs.isRegularFile (child (directory rooted above) kConfigName) = true
  nearest : ∀ nearer, above <+: nearer → nearer <+: names → nearer ≠ above →
    fs.isRegularFile (child (directory rooted nearer) kConfigName) = false
      ∧ fs.isThere (child (directory rooted nearer) kGitName) = false

variable {rooted : Bool} {names above : List Name} {name : Name}

/-- Where a configuration is, no other directory governs. -/
theorem governs_here (hconfig : fs.isRegularFile (child (directory rooted names) kConfigName) = true) :
    Governs fs rooted names above ↔ above = names := by
  constructor
  · intro h
    by_contra hne
    rw [(h.nearest names h.reaches List.prefix_rfl (Ne.symm hne)).1] at hconfig
    cases hconfig
  · rintro rfl
    refine ⟨List.prefix_rfl, ?_, hconfig, fun nearer h₁ h₂ hne => absurd (h₂.eq_of_length_le h₁.length_le) hne⟩
    by_cases hnil : above = []
    · exact .inr (.inr hnil)
    · exact .inr (.inl hnil)

/-- Where there is none, another directory governs. -/
theorem Governs.ne_here (h : Governs fs rooted names above)
    (hconfig : fs.isRegularFile (child (directory rooted names) kConfigName) = false) : above ≠ names := by
  rintro rfl
  rw [h.config] at hconfig
  cases hconfig

/-- Nothing governs a directory that has no configuration but a `.git`. -/
theorem not_governs_git (hconfig : fs.isRegularFile (child (directory rooted names) kConfigName) = false)
    (hgit : fs.isThere (child (directory rooted names) kGitName) = true) : ¬ Governs fs rooted names above := by
  intro h
  rw [(h.nearest names h.reaches List.prefix_rfl (Ne.symm (h.ne_here hconfig))).2] at hgit
  cases hgit

/-- Nothing governs the last directory of the walk if it has no configuration. -/
theorem not_governs_last (hconfig : fs.isRegularFile (child (directory rooted names) kConfigName) = false)
    (hlast : names = [] ∨ rooted = false ∧ names = [name]) : ¬ Governs fs rooted names above := by
  intro h
  have hne := h.ne_here hconfig
  obtain rfl | ⟨rfl, rfl⟩ := hlast
  · exact hne (List.prefix_nil.mp h.reaches)
  · obtain heq | hnil := List.prefix_concat_iff.mp (show above <+: [] ++ [name] from h.reaches)
    · exact hne heq
    · obtain hroot | habove | hnames := h.named
      · cases hroot
      · exact habove (List.prefix_nil.mp hnil)
      · cases hnames

/-- Without a configuration and a `.git`, what governs the directory above governs. -/
theorem governs_above (hconfig : fs.isRegularFile (child (directory rooted (names ++ [name])) kConfigName) = false)
    (hgit : fs.isThere (child (directory rooted (names ++ [name])) kGitName) = false)
    (hgoes : rooted = true ∨ names ≠ []) :
    Governs fs rooted (names ++ [name]) above ↔ Governs fs rooted names above := by
  constructor
  · intro h
    refine ⟨(List.prefix_concat_iff.mp h.reaches).resolve_left (h.ne_here hconfig), ?_, h.config,
      fun nearer h₁ h₂ => h.nearest nearer h₁ (h₂.trans (List.prefix_append _ _))⟩
    exact h.named.imp_right fun hnamed => .inl (hnamed.resolve_right (List.concat_ne_nil _ _))
  · intro h
    refine ⟨h.reaches.trans (List.prefix_append _ _), ?_, h.config, fun nearer h₁ h₂ hne => ?_⟩
    · obtain hroot | habove | hnil := h.named
      · exact .inl hroot
      · exact .inr (.inl habove)
      · exact .inl (hgoes.resolve_right fun hnot => hnot hnil)
    · obtain rfl | hbelow := List.prefix_concat_iff.mp h₂
      · exact ⟨hconfig, hgit⟩
      · exact h.nearest nearer h₁ hbelow hne

/-- The directory governs the file. -/
def GovernsFile (fs : FileSystem) (start : Path) (above : List Name) : Prop :=
  Governs fs (searchStart fs start).rooted (searchStart fs start).names above

/-- The configuration in a directory above the file. -/
def configIn (fs : FileSystem) (start : Path) (above : List Name) : Path :=
  child (directory (searchStart fs start).rooted above) kConfigName

/-- What the walk finds from a directory on. -/
theorem walkUp_iff {cur file : Path} :
    walkUp fs cur = some file ↔
      ∃ above, Governs fs cur.rooted cur.names above ∧ file = child (directory cur.rooted above) kConfigName := by
  -- `exists` is implied: only `is_regular_file` decides
  have hregular : ∀ {p : Path}, ¬ (fs.isThere p && fs.isRegularFile p) = true → fs.isRegularFile p = false := by
    intro p hp
    by_contra hreg
    rw [Bool.not_eq_false] at hreg
    exact hp (Bool.and_eq_true_iff.mpr ⟨FileSystem.isThere_of_regular hreg, hreg⟩)
  fun_induction walkUp fs cur with
  | case1 cur candidate hfound =>
      have hconfig := (Bool.and_eq_true_iff.mp hfound).2
      constructor
      · intro h
        exact ⟨cur.names, (governs_here hconfig).mpr rfl, (Option.some.inj h).symm⟩
      · rintro ⟨above, h, rfl⟩
        rw [(governs_here hconfig).mp h]
        rfl
  | case2 cur candidate hfound hgit =>
      exact ⟨nofun, fun ⟨_, h, _⟩ => absurd h (not_governs_git (hregular hfound) hgit)⟩
  | case3 cur candidate hfound hgit hend =>
      refine ⟨nofun, fun ⟨above, h, _⟩ => ?_⟩
      -- the walk is at the root, or at the first name of a relative path
      obtain hnil | ⟨name, hone⟩ := names_of_end hend
      · exact absurd h (@not_governs_last fs _ _ _ [] (hregular hfound) (.inl hnil))
      · exact absurd h (not_governs_last (hregular hfound) (.inr hone))
  | case4 cur candidate hfound hgit hgoes ih =>
      refine ih.trans ?_
      obtain ⟨rooted, names, trailing⟩ := cur
      cases trailing with
      -- a separator at the end is taken off first; the directory is the same
      | true => exact Iff.rfl
      | false =>
          obtain rfl | ⟨names, name, rfl⟩ := names.eq_nil_or_concat'
          · exact absurd (.inl rfl) hgoes
          · have hgoes' : rooted = true ∨ names ≠ [] := by
              by_contra hnot
              obtain ⟨hroot, hnil⟩ := not_or.mp hnot
              rw [Bool.not_eq_true] at hroot
              rw [hroot, not_not.mp hnil] at hgoes
              exact hgoes (.inr rfl)
            rw [Bool.not_eq_true] at hgit
            show (∃ above, Governs fs rooted (names ++ [name]).dropLast above ∧ _) ↔ _
            rw [List.dropLast_concat]
            exact exists_congr fun above => and_congr_left fun _ => (governs_above (hregular hfound) hgit hgoes').symm

/-- **What `find_config` finds**: the configuration in the directory that governs. -/
theorem findConfig_iff {start file : Path} :
    findConfig fs start = some file ↔ ∃ above, GovernsFile fs start above ∧ file = configIn fs start above :=
  walkUp_iff

end Found

/-! ## §4. Documents. -/

/-- `resolve_config_for`. -/
def resolveConfigFor (parse : Text → Except (Text × Place) Table) (files : Text → Option Text) (fs : FileSystem)
    (documentPath : Text) : Option LoadedConfig :=
  match findConfig fs (Path.ofText documentPath) with
  | none => none
  | some configPath => (loadConfig parse files configPath.text).toOption

section Documents

variable {parse : Text → Except (Text × Place) Table} {files : Text → Option Text}

/-- The file is a document that conforms, and declares the severity. -/
def DeclaredIn (parse : Text → Except (Text × Place) Table) (files : Text → Option Text)
    (file path ruleId : Text) (sev : RuleSeverity) : Prop :=
  ∃ contents root, files file = some contents ∧ parse contents = .ok root ∧ Conforms root
    ∧ Declares root ruleId path sev

/-- What the configuration of a file answers. -/
theorem loadConfig_severity {file path ruleId : Text} {sev : RuleSeverity} :
    (∃ config, loadConfig parse files file = .ok config ∧ config.severityFor ruleId path = some sev)
      ↔ DeclaredIn parse files file path ruleId sev := by
  constructor
  · rintro ⟨config, hload, hsev⟩
    unfold loadConfig at hload
    split at hload
    case h_1 => cases hload
    case h_2 contents hcontents =>
      unfold loadConfigString at hload
      split at hload
      case h_1 => cases hload
      case h_2 root hparse =>
        exact ⟨contents, root, hcontents, hparse, succeeds_parseRoot.mp ⟨config, hload⟩,
          (severityFor_iff hload ruleId path sev).mp hsev⟩
  · rintro ⟨contents, root, hcontents, hparse, hconforms, hdeclares⟩
    obtain ⟨config, hconfig⟩ := succeeds_parseRoot.mpr hconforms
    refine ⟨config, ?_, (severityFor_iff hconfig ruleId path sev).mpr hdeclares⟩
    unfold loadConfig
    rw [hcontents]
    dsimp only
    unfold loadConfigString
    rw [hparse]
    exact hconfig

end Documents

end ShaderClippy.Config
