/-
  ShaderClippy.ControlFlow.Engine

  **THE PROCESS-WIDE CFG ENGINE AND ITS CACHE** (`engine.{hpp,cpp}`).

  The engine keeps what it built under the key (source id, FNV-1a hash of
  the bytes). The cache is an ordered map: a list kept ascending in its
  keys, which is also the order `take_diagnostics` walks it in.

  Every lint run of the command line tool and of the language server makes
  its own `SourceManager`, whose first file is source `1` (`lintRun`). The
  tree of a text is the external parser's, a parameter.
-/
import ShaderClippy.ControlFlow.CfgBuilder
import ShaderClippy.ControlFlow.UniformityAnalyzer

namespace ShaderClippy.ControlFlow

/-! ## §1. What one build computes. -/

/-- `fingerprint`: FNV-1a, 64 bits. -/
def fingerprint (contents : Text) : UInt64 :=
  contents.foldl (fun hash c => (hash ^^^ c.toNat.toUInt64) * 1099511628211)
    14695981039346656037

/-- `ControlFlowInfo`. -/
structure ControlFlowInfo where
  cfg : CfgInfo
  uniformity : UniformityInfo
  deriving Repr, DecidableEq

/-- A cache entry. -/
structure Entry where
  info : ControlFlowInfo
  diagnostics : List Diagnostic
  deriving Repr, DecidableEq

/-- The part of `build_with_tree` below the cache: everything is computed
from the tree, the source id and the bytes. -/
def buildEntry (source : SourceId) (root : Node) (bytes : Text) : Entry :=
  let (storage, diagnostics) := buildCfg root source bytes
  let storage := computeAllDominators storage
  let blocks := (List.range storage.blockToFunction.length).map (· + 1)
  let entrySpan := match storage.functions[1]? with
    | some fn => fn.declarationSpan
    | none => ⟨source, ⟨0, 0⟩⟩
  ⟨⟨⟨blocks, entrySpan, some storage⟩, analyseUniformity root bytes⟩, diagnostics⟩

/-! ## §2. The cache. -/

/-- `CacheKey`. -/
abbrev CacheKey := Nat × UInt64

/-- The order of `std::pair`. -/
def CacheKey.lt (a b : CacheKey) : Bool :=
  decide (a.1 < b.1) || (a.1 == b.1 && decide (a.2 < b.2))

/-- The map, ascending in its keys. -/
abbrev CfgCacheMap := List (CacheKey × Entry)

/-- `find`. -/
def CfgCacheMap.find (cache : CfgCacheMap) (key : CacheKey) : Option Entry :=
  match List.find? (fun kv => decide (kv.1 = key)) cache with
  | some kv => some kv.2
  | none => none

/-- Insert a key that is not there yet. -/
def CfgCacheMap.insert (key : CacheKey) (entry : Entry) : CfgCacheMap → CfgCacheMap
  | [] => [(key, entry)]
  | kv :: rest =>
      if key.lt kv.1 then (key, entry) :: kv :: rest
      else kv :: CfgCacheMap.insert key entry rest

/-- `try_emplace`: the entry that is in the map afterwards, and the map. -/
def CfgCacheMap.tryEmplace (cache : CfgCacheMap) (key : CacheKey) (entry : Entry) :
    Entry × CfgCacheMap :=
  match cache.find key with
  | some old => (old, cache)
  | none => (entry, cache.insert key entry)

/-! ## §3. The engine. -/

/-- The diagnostic for a null root. -/
def nullRootDiagnostic (source : SourceId) : Diagnostic :=
  ⟨"clippy::cfg".toList, .error, ⟨source, ⟨0, 0⟩⟩,
    "null tree-sitter root passed to CFG engine".toList, []⟩

/-- **`build_with_tree`.** -/
def buildWithTree (cache : CfgCacheMap) (source : SourceId) (root : Option Node) (bytes : Text) :
    Except Diagnostic ControlFlowInfo × CfgCacheMap :=
  let key : CacheKey := (source.value, fingerprint bytes)
  match cache.find key with
  | some entry => (.ok entry.info, cache)
  | none =>
      match root with
      | none => (.error (nullRootDiagnostic source), cache)
      | some root =>
          let (entry, cache) := cache.tryEmplace key (buildEntry source root bytes)
          (.ok entry.info, cache)

/-- **`take_diagnostics`**: those of the first entry with this source id. -/
def takeDiagnostics (cache : CfgCacheMap) (source : SourceId) : List Diagnostic :=
  match List.find? (fun kv => decide (kv.1.1 = source.value)) cache with
  | some kv => kv.2.diagnostics
  | none => []

/-- The control-flow stage of one lint run over `contents`: what
`build_with_tree` returns, what `take_diagnostics` returns, and the cache
left behind. -/
def lintRun (parse : Text → Node) (cache : CfgCacheMap) (contents : Text) :
    (Except Diagnostic ControlFlowInfo × List Diagnostic) × CfgCacheMap :=
  let (info, cache) := buildWithTree cache ⟨1⟩ (some (parse contents)) contents
  ((info, takeDiagnostics cache ⟨1⟩), cache)

/-- The cache after a history of lint runs. -/
def cacheAfter (parse : Text → Node) (history : List Text) : CfgCacheMap :=
  history.foldl (fun cache contents => (lintRun parse cache contents).2) []

/-! ## §4. Notices. -/

/-- The one notice of the builder is that a function was skipped; it offers no fix. -/
theorem buildFunction_fixes (st : CfgStorage) (functionId : Nat) (fnNode : Node) (source : SourceId) (bytes : Text) :
    ∀ d ∈ (buildFunction st functionId fnNode source bytes).2.2, d.fixes = [] := by
  intro d hd
  unfold buildFunction at hd
  dsimp only at hd
  split at hd
  · cases List.mem_singleton.mp hd
    rfl
  · cases hd

theorem buildFunctions_fixes (source : SourceId) (bytes : Text) (fnNodes : List Node) :
    ∀ {result : CfgStorage × List Diagnostic}, (∀ d ∈ result.2, d.fixes = []) →
      ∀ d ∈ (buildFunctions source bytes fnNodes result).2, d.fixes = [] := by
  induction fnNodes with
  | nil => exact fun h => h
  | cons fnNode fnNodes ih =>
      rintro ⟨st, diagnostics⟩ h
      rw [buildFunctions]
      refine ih fun d hd => ?_
      have hd : d ∈ diagnostics ++ (buildFunction st st.functions.length fnNode source bytes).2.2 := hd
      obtain hd | hd := List.mem_append.mp hd
      · exact h d hd
      · exact buildFunction_fixes st _ fnNode source bytes d hd

theorem buildEntry_fixes (source : SourceId) (root : Node) (bytes : Text) :
    ∀ d ∈ (buildEntry source root bytes).diagnostics, d.fixes = [] :=
  buildFunctions_fixes source bytes (collectFunctions root) nofun

/-- What is in the cache afterwards was in it, or was inserted. -/
theorem CfgCacheMap.mem_insert {key : CacheKey} {entry : Entry} {cache : CfgCacheMap} {kv : CacheKey × Entry}
    (h : kv ∈ cache.insert key entry) : kv = (key, entry) ∨ kv ∈ cache := by
  induction cache with
  | nil => exact .inl (List.mem_singleton.mp h)
  | cons first rest ih =>
      rw [CfgCacheMap.insert] at h
      split at h
      · exact List.mem_cons.mp h
      · obtain rfl | h := List.mem_cons.mp h
        · exact .inr List.mem_cons_self
        · exact (ih h).imp_right (List.mem_cons_of_mem _)

/-- A cache without fixes has none after a build, and neither has the notice for a null
root. -/
theorem buildWithTree_fixes {cache cache' : CfgCacheMap} {source : SourceId} {root : Option Node} {bytes : Text}
    {info : Except Diagnostic ControlFlowInfo} (hcache : ∀ kv ∈ cache, ∀ d ∈ kv.2.diagnostics, d.fixes = [])
    (h : buildWithTree cache source root bytes = (info, cache')) :
    (∀ d, info = .error d → d.fixes = []) ∧ ∀ d ∈ takeDiagnostics cache' source, d.fixes = [] := by
  have htake : ∀ {cache : CfgCacheMap}, (∀ kv ∈ cache, ∀ d ∈ kv.2.diagnostics, d.fixes = []) →
      ∀ d ∈ takeDiagnostics cache source, d.fixes = [] := by
    intro cache hcache d hd
    unfold takeDiagnostics at hd
    split at hd
    case h_1 kv hfound => exact hcache kv (List.mem_of_find?_eq_some hfound) d hd
    case h_2 => cases hd
  unfold buildWithTree at h
  dsimp only at h
  split at h
  case h_1 => cases h; exact ⟨nofun, htake hcache⟩
  case h_2 hmissing =>
    split at h
    case h_1 =>
      cases h
      exact ⟨fun d hd => by cases hd; rfl, htake hcache⟩
    case h_2 root =>
      rw [CfgCacheMap.tryEmplace, hmissing] at h
      cases h
      refine ⟨nofun, htake fun kv hkv => ?_⟩
      obtain rfl | hkv := CfgCacheMap.mem_insert hkv
      · exact buildEntry_fixes source root bytes
      · exact hcache kv hkv

end ShaderClippy.ControlFlow
