/-
  ShaderClippy.Lsp.Settings

  **WHAT `initialize` SETS**, and the include directories of a document
  (`handlers.cpp`, `on_initialize` and `lint_and_publish`).

  The client names its workspace folders and further directories once. A document is
  linted with the directory it is in, the folders it lies in (all folders, if it lies in
  none), the directories of the client and those of its configuration.

  Whatever the client has sent, every directory stands there once and in normal form
  (`includeDirectories_spec`).
-/
import ShaderClippy.Lib.LexicalPath
import ShaderClippy.Lsp.ChangeRanges
import ShaderClippy.Lsp.Uri

namespace ShaderClippy.Lsp

open LexicalPath (Path inside)

/-! ## §1. Paths of the client. -/

/-- The bytes of a text. -/
def toBytes (s : Text) : Uri.Bytes := s.map fun c => UInt8.ofNat c.toNat

def ofBytes (s : Uri.Bytes) : Text := s.map fun b => Char.ofNat b.toNat

/-- `uri_to_path`. -/
def uriToPath (uri : Text) : Option Text := (Uri.uriToPath (toBytes uri)).map ofBytes

/-- `append_unique_path`. -/
def appendUniquePath (paths : List Path) (path : Path) : List Path :=
  if path.isEmpty then paths
  else if path.normal ∈ paths then paths
  else paths ++ [path.normal]

/-- The folders the document is inside of; all folders, if there is none. -/
def workspaceRoots (workspaces : List Path) (document : Path) : List Path :=
  let matched := workspaces.filter fun workspace => inside document workspace
  if matched = [] then workspaces else matched

/-- `append_workspace_roots_for_document`. -/
def appendWorkspaceRootsForDocument (paths workspaces : List Path) (document : Path) : List Path :=
  (workspaceRoots workspaces document).foldl appendUniquePath paths

/-- The texts of an array. -/
def Json.texts : Json → List Text
  | .array items => items.filterMap fun item => match item with | .string s => some s | _ => none
  | _ => []

/-- `parse_path_array`. -/
def parsePathArray (obj : Json) (key : Text) : List Path :=
  match obj.find key with
  | some items => items.texts.foldl (fun paths s => appendUniquePath paths (Path.ofText s)) []
  | none => []

/-- The path of a folder's URI. -/
def folderPath (folder : Json) : Option Path :=
  match folder.find kUri with
  | some (.string uri) => (uriToPath uri).map Path.ofText
  | _ => none

/-- The paths of `workspaceFolders`. -/
def workspaceFolderPaths (params : Json) : List Path :=
  match params.find "workspaceFolders".toList with
  | some (.array folders) => folders.filterMap folderPath
  | _ => []

/-- The path of `rootUri`. -/
def rootPaths (params : Json) : List Path :=
  match params.find "rootUri".toList with
  | some (.string uri) => ((uriToPath uri).map Path.ofText).toList
  | _ => []

/-- `parse_workspace_folders`: `rootUri` counts only if no folder has a path. -/
def parseWorkspaceFolders (params : Json) : List Path :=
  let folders := (workspaceFolderPaths params).foldl appendUniquePath []
  if folders ≠ [] then folders else (rootPaths params).foldl appendUniquePath []

/-! ## §2. The settings. -/

/-- What the server keeps of `initialize`. -/
structure Settings where
  targetProfile : Text
  initializationIncludeDirectories : List Path
  workspaceFolders : List Path
  enableReflection : Bool
  enableControlFlow : Bool
  deriving DecidableEq

/-- The settings before `initialize`. -/
def Settings.default : Settings := ⟨[], [], [], true, true⟩

/-- `initialization_options`. -/
def initializationOptions (params : Json) : Option Json :=
  match params.find "initializationOptions".toList with
  | some (.object members) => some (.object members)
  | _ => none

/-- A text, or what was there before. -/
def textOption (options : Json) (key : Text) (old : Text) : Text :=
  match options.find key with
  | some (.string s) => s
  | _ => old

/-- A boolean, or what was there before. -/
def boolOption (options : Json) (key : Text) (old : Bool) : Bool :=
  match options.find key with
  | some (.boolean b) => b
  | _ => old

/-- What `on_initialize` does to the settings. -/
def Settings.onInitialize (s : Settings) (params : Json) : Settings :=
  let s := { s with workspaceFolders := parseWorkspaceFolders params }
  match initializationOptions params with
  | none => s
  | some options =>
      { s with
        targetProfile := textOption options "targetProfile".toList s.targetProfile
        enableReflection := boolOption options "enableReflection".toList s.enableReflection
        enableControlFlow := boolOption options "enableControlFlow".toList s.enableControlFlow
        initializationIncludeDirectories := parsePathArray options "includeDirectories".toList }

/-- `options.include_directories`, as `lint_and_publish` fills it. -/
def includeDirectories (s : Settings) (document : Path) (shaderIncludeDirectories : List Path) : List Path :=
  let own := appendUniquePath [] document.parent
  let roots := appendWorkspaceRootsForDocument own s.workspaceFolders document
  let client := s.initializationIncludeDirectories.foldl appendUniquePath roots
  shaderIncludeDirectories.foldl appendUniquePath client

/-! ## §3. Directories stand once. -/

/-- A list of directories: none twice, and all of them in normal form. -/
structure Directories (paths : List Path) : Prop where
  nodup : paths.Nodup
  normal : ∀ p ∈ paths, p.Proper ∧ p.normal = p ∧ p.isEmpty = false

theorem Directories.nil : Directories [] := ⟨List.nodup_nil, nofun⟩

/-- The normal form of a path that is not empty is not empty. -/
theorem isEmpty_normal {p : Path} (h : p.isEmpty = false) : p.normal.isEmpty = false := by
  by_cases hnil : LexicalPath.normalNames p.rooted p.names = []
  · rw [LexicalPath.normal_nil hnil]
    split
    case isTrue hroot =>
      unfold Path.isEmpty at h ⊢
      cases hr : p.rooted with
      | true => rfl
      | false => simp_all
    case isFalse => rfl
  · rw [LexicalPath.normal_names hnil]
    unfold Path.isEmpty
    simp [hnil]

theorem directories_appendUniquePath {paths : List Path} {p : Path} (h : Directories paths) (hp : p.Proper) :
    Directories (appendUniquePath paths p) := by
  unfold appendUniquePath
  split
  case isTrue => exact h
  case isFalse hempty =>
    split
    case isTrue => exact h
    case isFalse hnew =>
      rw [Bool.not_eq_true] at hempty
      refine ⟨List.nodup_append.mpr ⟨h.nodup, List.nodup_singleton _, ?_⟩, ?_⟩
      · intro a ha b hb heq
        rw [List.mem_singleton] at hb
        exact hnew (by rw [← hb, ← heq]; exact ha)
      · intro q hq
        obtain hq | hq := List.mem_append.mp hq
        · exact h.normal q hq
        · rw [List.mem_singleton.mp hq]
          exact ⟨LexicalPath.normal_proper hp, LexicalPath.normal_normal hp, isEmpty_normal hempty⟩

/-- What one call adds. -/
theorem mem_appendUniquePath {paths : List Path} {p d : Path} :
    d ∈ appendUniquePath paths p ↔ d ∈ paths ∨ p.isEmpty = false ∧ p.normal = d := by
  unfold appendUniquePath
  split
  case isTrue hempty => simp [hempty]
  case isFalse hempty =>
    rw [Bool.not_eq_true] at hempty
    split
    case isTrue hmem =>
      refine (or_iff_left_of_imp ?_).symm
      rintro ⟨_, rfl⟩
      exact hmem
    case isFalse => simp [hempty, eq_comm]

theorem directories_foldl {sources paths : List Path} (h : Directories paths) (hall : ∀ p ∈ sources, p.Proper) :
    Directories (sources.foldl appendUniquePath paths) := by
  induction sources generalizing paths with
  | nil => exact h
  | cons p sources ih =>
      obtain ⟨hp, hrest⟩ := List.forall_mem_cons.mp hall
      exact ih (directories_appendUniquePath h hp) hrest

theorem mem_foldl_appendUniquePath {sources paths : List Path} {d : Path} :
    d ∈ sources.foldl appendUniquePath paths ↔ d ∈ paths ∨ ∃ p ∈ sources, p.isEmpty = false ∧ p.normal = d := by
  induction sources generalizing paths with
  | nil => simp
  | cons p sources ih => simp [ih, mem_appendUniquePath, or_assoc]

/-- Directories are added as they are. -/
theorem mem_foldl_directories {sources paths : List Path} (h : Directories sources) {d : Path} :
    d ∈ sources.foldl appendUniquePath paths ↔ d ∈ paths ∨ d ∈ sources := by
  rw [mem_foldl_appendUniquePath]
  refine or_congr_right ⟨?_, fun hd => ⟨d, hd, (h.normal d hd).2.2, (h.normal d hd).2.1⟩⟩
  rintro ⟨p, hp, _, rfl⟩
  rw [(h.normal p hp).2.1]
  exact hp

theorem directories_parseWorkspaceFolders (params : Json) : Directories (parseWorkspaceFolders params) := by
  have hof : ∀ uri p, (uriToPath uri).map Path.ofText = some p → p.Proper := by
    intro uri p hp
    obtain ⟨s, _, rfl⟩ := Option.map_eq_some_iff.mp hp
    exact LexicalPath.ofText_proper s
  unfold parseWorkspaceFolders
  dsimp only
  split
  · refine directories_foldl .nil fun p hp => ?_
    unfold workspaceFolderPaths at hp
    split at hp
    · obtain ⟨folder, _, hfolder⟩ := List.mem_filterMap.mp hp
      unfold folderPath at hfolder
      split at hfolder
      · exact hof _ p hfolder
      · cases hfolder
    · cases hp
  · refine directories_foldl .nil fun p hp => ?_
    unfold rootPaths at hp
    split at hp
    · exact hof _ p (Option.mem_toList.mp hp)
    · cases hp

theorem directories_parsePathArray (obj : Json) (key : Text) : Directories (parsePathArray obj key) := by
  unfold parsePathArray
  split
  · rw [← List.foldl_map]
    refine directories_foldl .nil fun p hp => ?_
    obtain ⟨s, _, rfl⟩ := List.mem_map.mp hp
    exact LexicalPath.ofText_proper s
  · exact .nil

/-! ## §4. Any settings. -/

/-- The settings keep lists of directories. -/
structure Settings.WellFormed (s : Settings) : Prop where
  folders : Directories s.workspaceFolders
  includes : Directories s.initializationIncludeDirectories

theorem wellFormed_default : Settings.default.WellFormed := ⟨.nil, .nil⟩

theorem wellFormed_onInitialize {s : Settings} (h : s.WellFormed) (params : Json) :
    (s.onInitialize params).WellFormed := by
  unfold Settings.onInitialize
  dsimp only
  split
  · exact ⟨directories_parseWorkspaceFolders params, h.includes⟩
  · exact ⟨directories_parseWorkspaceFolders params, directories_parsePathArray _ _⟩

/-- The settings after some calls of `initialize`. -/
def settingsAfter (inits : List Json) : Settings := inits.foldl Settings.onInitialize Settings.default

theorem wellFormed_settingsAfter (inits : List Json) : (settingsAfter inits).WellFormed := by
  have hrun : ∀ {s : Settings}, s.WellFormed → (inits.foldl Settings.onInitialize s).WellFormed := by
    induction inits with
    | nil => exact id
    | cons params inits ih => exact fun h => ih (wellFormed_onInitialize h params)
  exact hrun wellFormed_default

/-- The document lies in the folder: its path goes on from that of the folder. -/
def LiesIn (document folder : Path) : Prop :=
  LexicalPath.normalNames true folder.names <+: LexicalPath.normalNames true document.names

/-- The folders that are taken. -/
theorem mem_workspaceRoots {workspaces : List Path} (hs : Directories workspaces) {document : Path}
    (hdoc : document.Proper) (hroot : document.rooted = true) (hroots : ∀ w ∈ workspaces, w.rooted = true) {d : Path} :
    d ∈ workspaceRoots workspaces document ↔
      d ∈ workspaces ∧ (LiesIn document d ∨ ∀ w ∈ workspaces, ¬ LiesIn document w) := by
  have hmatched : ∀ w, w ∈ workspaces.filter (fun w => inside document w) ↔ w ∈ workspaces ∧ LiesIn document w := by
    intro w
    rw [List.mem_filter]
    exact and_congr_right fun hw => LexicalPath.inside_iff hdoc (hs.normal w hw).1 hroot (hroots w hw)
  unfold workspaceRoots
  dsimp only
  split
  case isTrue hnone =>
    -- no workspace folder has the document, so all of them are taken
    have hnot : ∀ w ∈ workspaces, ¬ LiesIn document w := by
      intro w hw hlies
      have hmem := (hmatched w).mpr ⟨hw, hlies⟩
      rw [hnone] at hmem
      cases hmem
    exact ⟨fun hd => ⟨hd, .inr hnot⟩, fun hd => hd.1⟩
  case isFalse hsome =>
    obtain ⟨w, hw⟩ := List.exists_mem_of_ne_nil _ hsome
    have hlies := (hmatched w).mp hw
    rw [hmatched]
    exact and_congr_right fun _ => (or_iff_left fun hnot => hnot w hlies.1 hlies.2).symm

theorem directories_workspaceRoots {workspaces : List Path} (hs : Directories workspaces) (document : Path) :
    Directories (workspaceRoots workspaces document) := by
  unfold workspaceRoots
  dsimp only
  split
  · exact hs
  · exact ⟨hs.nodup.filter _, fun p hp => hs.normal p (List.mem_filter.mp hp).1⟩

/-- **The include directories of a document**, whatever the client has sent, for paths
under the root: every one stands once and in normal form, and they are the directory of
the document, the folders it lies in or else all of them, the client's, and those of the
configuration. -/
theorem includeDirectories_spec (inits : List Json) {document : Path} (hdoc : document.Proper)
    (hroot : document.rooted = true) (hroots : ∀ w ∈ (settingsAfter inits).workspaceFolders, w.rooted = true)
    {config : List Path} (hconfig : ∀ p ∈ config, p.Proper) :
    Directories (includeDirectories (settingsAfter inits) document config)
      ∧ ∀ d, d ∈ includeDirectories (settingsAfter inits) document config ↔
        d = document.parent.normal
          ∨ (d ∈ (settingsAfter inits).workspaceFolders
            ∧ (LiesIn document d ∨ ∀ w ∈ (settingsAfter inits).workspaceFolders, ¬ LiesIn document w))
          ∨ d ∈ (settingsAfter inits).initializationIncludeDirectories
          ∨ ∃ p ∈ config, p.isEmpty = false ∧ p.normal = d := by
  have hs := wellFormed_settingsAfter inits
  have hown : Directories (appendUniquePath [] document.parent) :=
    directories_appendUniquePath .nil (LexicalPath.parent_proper hdoc)
  have htaken := directories_workspaceRoots hs.folders document
  have hparent : document.parent.isEmpty = false := by
    rw [Path.isEmpty, LexicalPath.parent_rooted, hroot]
    rfl
  refine ⟨directories_foldl (directories_foldl (directories_foldl hown fun p hp => (htaken.normal p hp).1)
    fun p hp => (hs.includes.normal p hp).1) hconfig, fun d => ?_⟩
  have hfirst : d ∈ appendUniquePath [] document.parent ↔ d = document.parent.normal := by
    rw [mem_appendUniquePath, or_iff_right List.not_mem_nil, and_iff_right hparent, eq_comm]
  unfold includeDirectories appendWorkspaceRootsForDocument
  dsimp only
  rw [mem_foldl_appendUniquePath, mem_foldl_directories hs.includes, mem_foldl_directories htaken, hfirst,
    mem_workspaceRoots hs.folders hdoc hroot hroots]
  simp only [or_assoc]

/-- `/w` and `/v/../u`. -/
def twoFolders : Json :=
  .object [("workspaceFolders".toList, .array [.object [(kUri, .string "file:///w".toList)],
    .object [(kUri, .string "file:///v/../u".toList)]])]

theorem includeDirectories_spec_twoFolders :
    Directories (includeDirectories (settingsAfter [twoFolders]) (Path.ofText "/w/a/x.hlsl".toList) [])
      ∧ ∀ d, d ∈ includeDirectories (settingsAfter [twoFolders]) (Path.ofText "/w/a/x.hlsl".toList) [] ↔
        d = (Path.ofText "/w/a/x.hlsl".toList).parent.normal
          ∨ (d ∈ (settingsAfter [twoFolders]).workspaceFolders
            ∧ (LiesIn (Path.ofText "/w/a/x.hlsl".toList) d
              ∨ ∀ w ∈ (settingsAfter [twoFolders]).workspaceFolders, ¬ LiesIn (Path.ofText "/w/a/x.hlsl".toList) w))
          ∨ d ∈ (settingsAfter [twoFolders]).initializationIncludeDirectories
          ∨ ∃ p ∈ ([] : List Path), p.isEmpty = false ∧ p.normal = d :=
  includeDirectories_spec [twoFolders] (LexicalPath.ofText_proper _) rfl (by decide +kernel)
    fun _ hp => absurd hp List.not_mem_nil

example : includeDirectories (settingsAfter [twoFolders]) (Path.ofText "/w/a/x.hlsl".toList) []
    = ["/w/a", "/w"].map fun s : String => Path.ofText s.toList := by decide +kernel

end ShaderClippy.Lsp
