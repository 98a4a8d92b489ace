/-
  ShaderClippy.Reflection.Engine

  **THE REFLECTION ENGINE AND ITS CACHE** (`reflection/engine.cpp`).

  The engine is one per process. It asks the bridge, which compiles the source,
  and keeps what the bridge returned under the key (source id, profile, FNV-1a
  hash of the contents, joined include directories). The bridge itself is the
  compiler's and a parameter: a function of everything it reads (`Inputs`).

  The key leaves out the path of the source and the files it includes, and it
  blurs the include directories: `reflect_transparent_iff`.
-/
import ShaderClippy.ControlFlow.Engine
import ShaderClippy.Lib.LexicalPath
import ShaderClippy.Lib.Lines
import ShaderClippy.Lib.Memo

namespace ShaderClippy.Reflection

open ControlFlow (fingerprint)
open LexicalPath (Path)

/-! ## §1. The key. -/

/-- What `sources.get` finds. -/
structure SourceFile where
  path : Text
  contents : Text
  deriving DecidableEq

/-- One call, and all that the compiler reads in it. -/
structure Inputs where
  source : SourceId
  file : Option SourceFile
  targetProfile : Text
  includeDirectories : List Text
  /-- The files it includes, with their contents. -/
  includedFiles : List (Text × Text)
  deriving DecidableEq

/-- `lexically_normal`, as a generic string. -/
def lexicallyNormal (path : Text) : Text := (Path.ofText path).normal.text

/-- `include_key`. -/
def includeKey (includeDirectories : List Text) : Text :=
  includeDirectories.foldl
    (fun out dir => (if out = [] then out else out ++ ['\n']) ++ lexicallyNormal dir) []

/-- `CacheKey`. -/
abbrev CacheKey := Nat × Text × UInt64 × Text

/-- The key of a call. -/
def cacheKey (i : Inputs) : CacheKey :=
  (i.source.value, i.targetProfile,
    match i.file with
    | some file => fingerprint file.contents
    | none => 0,
    includeKey i.includeDirectories)

/-! ## §2. The engine. -/

variable {ReflectionInfo : Type} (bridge : Inputs → Except Diagnostic ReflectionInfo)

/-- `ReflectionEngine::reflect`. -/
def reflect (cache : Memo.Store CacheKey ReflectionInfo) (i : Inputs) :
    Except Diagnostic ReflectionInfo × Memo.Store CacheKey ReflectionInfo :=
  let key := cacheKey i
  match cache.find key with
  | some info => (.ok info, cache)
  | none =>
      match bridge i with
      | .error diagnostic => (.error diagnostic, cache)
      | .ok computed =>
          let (info, cache) := cache.tryEmplace key computed
          (.ok info, cache)

/-- The cache after a history of calls. -/
def cacheAfter (history : List Inputs) : Memo.Store CacheKey ReflectionInfo :=
  history.foldl (fun cache i => (reflect bridge cache i).2) []

/-- Every call of the history returns what the bridge does. -/
def Transparent (history : List Inputs) : Prop :=
  ∀ earlier i later, history = earlier ++ i :: later →
    (reflect bridge (cacheAfter bridge earlier) i).1 = bridge i

/-- The engine is a cache in front of the bridge. -/
theorem reflect_eq_call : reflect bridge = Memo.call cacheKey bridge := by
  funext cache i
  rw [reflect, Memo.call]
  cases cache.find (cacheKey i) with
  | some info => rfl
  | none => cases bridge i <;> rfl

/-- The cache of the engine is the memo of the library, keyed by `cache_key`. -/
theorem cacheAfter_eq (history : List Inputs) :
    cacheAfter bridge history = Memo.after cacheKey bridge history := by
  rw [cacheAfter, Memo.after, reflect_eq_call]

/-- Transparency of the engine is transparency of that memo. -/
theorem transparent_iff_memo (history : List Inputs) :
    Transparent bridge history ↔ Memo.Transparent cacheKey bridge history := by
  simp only [Transparent, Memo.Transparent, cacheAfter_eq, reflect_eq_call]

/-! ## §3. What the key separates. -/

/-- The bridge's result for the first call with the key, if it had one, is what a
call returns. -/
theorem reflect_after (earlier : List Inputs) (i : Inputs) :
    (reflect bridge (cacheAfter bridge earlier) i).1 =
      match earlier.findSome? (Memo.valueAt cacheKey bridge (cacheKey i)) with
      | some info => .ok info
      | none => bridge i := by
  rw [reflect_eq_call, cacheAfter_eq]
  exact Memo.call_after cacheKey bridge earlier i

/-- **The cache is transparent, whatever the bridge, exactly** in the histories
where calls with the same key read the same. -/
theorem reflect_transparent_iff (history : List Inputs) :
    (∀ (ReflectionInfo : Type) (bridge : Inputs → Except Diagnostic ReflectionInfo),
        Transparent bridge history) ↔
      ∀ i ∈ history, ∀ j ∈ history, cacheKey i = cacheKey j → i = j := by
  constructor
  · intro h
    apply Memo.separated_of_transparent
    intro bridge
    exact (transparent_iff_memo bridge history).mp (h Bool bridge)
  · intro h ReflectionInfo bridge
    exact (transparent_iff_memo bridge history).mpr (Memo.transparent_of_separated bridge h)

/-- A file that includes `common.hlsli`, when that holds `contents`. -/
def includesCommon (contents : Text) : Inputs :=
  ⟨⟨1⟩, some ⟨"a.hlsl".toList, "#include \"common.hlsli\"".toList⟩, "sm_6_6".toList,
    ["include".toList], [("include/common.hlsli".toList, contents)]⟩

/-- After an included file changed, the call still returns what it was. -/
theorem changed_include_stale :
    ¬ ∀ (history : List Inputs) (ReflectionInfo : Type)
        (bridge : Inputs → Except Diagnostic ReflectionInfo), Transparent bridge history := by
  intro h
  have hstale := h [includesCommon "float x;".toList, includesCommon "int x;".toList] _
    (fun i => .ok i.includedFiles) [includesCommon "float x;".toList] _ [] rfl
  rw [reflect_after] at hstale
  have hkey : cacheKey (includesCommon "float x;".toList)
      = cacheKey (includesCommon "int x;".toList) := rfl
  rw [List.findSome?_cons, Memo.valueAt, if_pos hkey] at hstale
  have hfiles : (includesCommon "float x;".toList).includedFiles
      ≠ (includesCommon "int x;".toList).includedFiles := by decide
  exact hfiles (Except.ok.inj hstale)

end ShaderClippy.Reflection
