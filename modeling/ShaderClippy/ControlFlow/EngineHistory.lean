/-
  ShaderClippy.ControlFlow.EngineHistory

  **WHAT A LINT RUN SEES OF THE RUNS BEFORE IT.**

  All runs use source id `1`, so the cache is indexed by fingerprints alone.
  Its invariant (`Represents`): for every fingerprint seen so far it holds
  the entry of the FIRST contents with it. Two answers follow:

    • `build_with_tree` returns the info of the first contents with the
      fingerprint of the current ones;
    • `take_diagnostics` returns the diagnostics of the contents with the
      LEAST fingerprint of all runs — not of the current ones.

  A run is independent of its history exactly when both happen to be what
  the current contents yield (`lintRun_independent_iff`).
-/
import ShaderClippy.ControlFlow.Engine

namespace ShaderClippy.ControlFlow

variable {parse : Text → Node}

/-! ## §1. The cache represents the runs. -/

/-- What a fresh build of `contents` puts into the cache. -/
def freshEntry (parse : Text → Node) (contents : Text) : Entry :=
  buildEntry ⟨1⟩ (parse contents) contents

/-- The first run whose contents have this fingerprint. -/
def earliest (runs : List Text) (fp : UInt64) : Option Text :=
  runs.find? fun c => decide (fingerprint c = fp)

/-- The cache after `runs`. -/
structure Represents (parse : Text → Node) (runs : List Text) (cache : CfgCacheMap) : Prop where
  ids : ∀ kv ∈ cache, kv.1.1 = 1
  sorted : cache.Pairwise fun a b => a.1.2 < b.1.2
  entries : ∀ fp e, ((1, fp), e) ∈ cache ↔
    ∃ c, earliest runs fp = some c ∧ e = freshEntry parse c

theorem Represents.nil : Represents parse [] [] :=
  ⟨fun _ h => absurd h List.not_mem_nil, List.Pairwise.nil, fun fp e => by simp [earliest]⟩

theorem mem_insert {key : CacheKey} {entry : Entry} {kv : CacheKey × Entry} :
    ∀ cache : CfgCacheMap,
      kv ∈ CfgCacheMap.insert key entry cache ↔ kv = (key, entry) ∨ kv ∈ cache := by
  intro cache
  induction cache with
  | nil => simp [CfgCacheMap.insert]
  | cons kv' rest ih =>
      unfold CfgCacheMap.insert
      split
      · exact List.mem_cons
      · rw [List.mem_cons, ih, List.mem_cons]
        tauto

/-- Inserting a new fingerprint keeps the map ascending. -/
theorem sorted_insert {fp : UInt64} {entry : Entry} :
    ∀ cache : CfgCacheMap, (∀ kv ∈ cache, kv.1.1 = 1) → (∀ kv ∈ cache, kv.1.2 ≠ fp) →
      cache.Pairwise (fun a b => a.1.2 < b.1.2) →
      (CfgCacheMap.insert (1, fp) entry cache).Pairwise fun a b => a.1.2 < b.1.2 := by
  intro cache
  induction cache with
  | nil => intro _ _ _; exact List.pairwise_singleton _ _
  | cons kv rest ih =>
      intro hids hnew hsorted
      obtain ⟨hhead, htail⟩ := List.pairwise_cons.mp hsorted
      have hid : kv.1.1 = 1 := hids kv (List.mem_cons_self ..)
      have hne : kv.1.2 ≠ fp := hnew kv (List.mem_cons_self ..)
      unfold CfgCacheMap.insert
      split
      next hlt =>
        have hfp : fp < kv.1.2 := by
          simpa [CacheKey.lt, hid] using hlt
        refine List.pairwise_cons.mpr ⟨fun kv' hkv' => ?_, hsorted⟩
        rcases List.mem_cons.mp hkv' with rfl | hkv'
        · exact hfp
        · exact UInt64.lt_trans hfp (hhead kv' hkv')
      next hge =>
        have hfp : ¬ fp < kv.1.2 := by
          simpa [CacheKey.lt, hid] using hge
        have hgt : kv.1.2 < fp := by
          have hne' : kv.1.2.toNat ≠ fp.toNat := fun h => hne (UInt64.toNat_inj.mp h)
          rw [UInt64.lt_iff_toNat_lt] at hfp ⊢
          omega
        refine List.pairwise_cons.mpr ⟨fun kv' hkv' => ?_,
          ih (fun kv' h => hids kv' (List.mem_cons_of_mem _ h))
            (fun kv' h => hnew kv' (List.mem_cons_of_mem _ h)) htail⟩
        rcases (mem_insert rest).mp hkv' with rfl | hkv'
        · exact hgt
        · exact hhead kv' hkv'

/-- Looking up a fingerprint finds the first contents with it. -/
theorem Represents.find_eq {runs : List Text} {cache : CfgCacheMap}
    (h : Represents parse runs cache) (fp : UInt64) :
    cache.find (1, fp) = (earliest runs fp).map (freshEntry parse) := by
  unfold CfgCacheMap.find
  cases hfind : List.find? (fun kv => decide (kv.1 = ((1, fp) : CacheKey))) cache with
  | none =>
      cases hrun : earliest runs fp with
      | none => rfl
      | some c =>
          have hmem := (h.entries fp (freshEntry parse c)).mpr ⟨c, hrun, rfl⟩
          have := List.find?_eq_none.mp hfind _ hmem
          exact absurd (decide_eq_true rfl) this
  | some kv =>
      have hkey : kv.1 = (1, fp) := by
        simpa using List.find?_some hfind
      have hmem : ((1, fp), kv.2) ∈ cache := by
        rw [← hkey]
        exact List.mem_of_find?_eq_some hfind
      obtain ⟨c, hc, he⟩ := (h.entries fp kv.2).mp hmem
      rw [hc]
      exact congrArg some he

/-! ## §2. One run. -/

theorem earliest_append {runs : List Text} {contents : Text} {fp : UInt64} :
    earliest (runs ++ [contents]) fp =
      match earliest runs fp with
      | some c => some c
      | none => if fingerprint contents = fp then some contents else none := by
  unfold earliest
  rw [List.find?_append]
  cases hr : runs.find? fun c => decide (fingerprint c = fp) with
  | some c => rfl
  | none =>
      by_cases hf : fingerprint contents = fp
      · simp [hf]
      · simp [hf]

/-- **Step lemma**: what a run answers, and that it keeps the invariant. -/
theorem Represents.lintRun {runs : List Text} {cache : CfgCacheMap} (contents : Text)
    (h : Represents parse runs cache) :
    ∃ c, earliest (runs ++ [contents]) (fingerprint contents) = some c
      ∧ (lintRun parse cache contents).1.1 = .ok (freshEntry parse c).info
      ∧ Represents parse (runs ++ [contents]) (lintRun parse cache contents).2 := by
  have hfind := h.find_eq (fingerprint contents)
  unfold ControlFlow.lintRun buildWithTree
  simp only
  cases hrun : earliest runs (fingerprint contents) with
  | some c =>
      rw [hrun, Option.map_some] at hfind
      rw [hfind]
      refine ⟨c, by rw [earliest_append, hrun], rfl, h.ids, h.sorted, fun fp e => ?_⟩
      rw [h.entries fp e, earliest_append]
      cases hfp : earliest runs fp with
      | some d => rfl
      | none =>
          have hne : fingerprint contents ≠ fp := by
            intro heq
            rw [heq, hfp] at hrun
            exact absurd hrun (by simp)
          simp [hne]
  | none =>
      rw [hrun, Option.map_none] at hfind
      rw [hfind]
      simp only [CfgCacheMap.tryEmplace, hfind]
      have hnew : ∀ kv ∈ cache, kv.1.2 ≠ fingerprint contents := by
        intro kv hkv heq
        have hkey : kv.1 = (1, fingerprint contents) := Prod.ext (h.ids kv hkv) heq
        obtain ⟨c, hc, -⟩ := (h.entries (fingerprint contents) kv.2).mp (by rw [← hkey]; exact hkv)
        rw [hrun] at hc
        exact absurd hc (by simp)
      refine ⟨contents, by rw [earliest_append, hrun]; simp, rfl, ?_, ?_, fun fp e => ?_⟩
      · intro kv hkv
        rcases (mem_insert cache).mp hkv with rfl | hkv
        · rfl
        · exact h.ids kv hkv
      · exact sorted_insert cache h.ids hnew h.sorted
      · rw [mem_insert, h.entries fp e, earliest_append]
        by_cases hfp : fingerprint contents = fp
        · subst hfp
          rw [hrun]
          simp [freshEntry]
        · have hfp' : fp ≠ fingerprint contents := fun heq => hfp heq.symm
          cases hr : earliest runs fp with
          | some d => simp [hfp']
          | none => simp [hfp, hfp']

/-- **Run lemma.** -/
theorem represents_cacheAfter (parse : Text → Node) (history : List Text) :
    Represents parse history (cacheAfter parse history) := by
  have hrun : ∀ (rest done : List Text) (cache : CfgCacheMap), Represents parse done cache →
      Represents parse (done ++ rest)
        (rest.foldl (fun cache contents => (ControlFlow.lintRun parse cache contents).2) cache) := by
    intro rest
    induction rest with
    | nil => intro done cache h; rw [List.append_nil]; exact h
    | cons c rest ih =>
        intro done cache h
        obtain ⟨-, -, -, h'⟩ := h.lintRun c
        have := ih (done ++ [c]) _ h'
        rw [List.append_assoc] at this
        exact this
  exact hrun history [] [] Represents.nil

/-- `take_diagnostics` answers for the least fingerprint of all runs. -/
theorem Represents.takeDiagnostics {runs : List Text} {cache : CfgCacheMap}
    (h : Represents parse runs cache) (hne : runs ≠ []) :
    ∃ c, c ∈ runs ∧ (∀ d ∈ runs, fingerprint c ≤ fingerprint d)
      ∧ earliest runs (fingerprint c) = some c
      ∧ takeDiagnostics cache ⟨1⟩ = (freshEntry parse c).diagnostics := by
  have hexists : ∀ d ∈ runs, ∃ kv ∈ cache, kv.1.2 = fingerprint d := by
    intro d hd
    obtain ⟨c, hc⟩ : ∃ c, earliest runs (fingerprint d) = some c := by
      refine Option.isSome_iff_exists.mp ?_
      rw [earliest, List.find?_isSome]
      exact ⟨d, hd, by simp⟩
    exact ⟨_, (h.entries (fingerprint d) _).mpr ⟨c, hc, rfl⟩, rfl⟩
  cases hcache : cache with
  | nil =>
      obtain ⟨d, hd⟩ := List.exists_mem_of_ne_nil runs hne
      obtain ⟨kv, hkv, -⟩ := hexists d hd
      rw [hcache] at hkv
      exact absurd hkv List.not_mem_nil
  | cons kv rest =>
      have hmem : kv ∈ cache := by
        rw [hcache]
        exact List.mem_cons_self ..
      have hid : kv.1.1 = 1 := h.ids kv hmem
      have hkey : kv.1 = (1, kv.1.2) := Prod.ext hid rfl
      obtain ⟨c, hc, he⟩ := (h.entries kv.1.2 kv.2).mp (by rw [← hkey]; exact hmem)
      have hfp : fingerprint c = kv.1.2 := by
        simpa using List.find?_some hc
      refine ⟨c, List.mem_of_find?_eq_some hc, ?_, by rw [hfp]; exact hc, ?_⟩
      · intro d hd
        obtain ⟨kv', hkv', hd'⟩ := hexists d hd
        rw [hfp, ← hd']
        have hsorted := h.sorted
        rw [hcache] at hkv' hsorted
        rcases List.mem_cons.mp hkv' with rfl | hkv'
        · exact UInt64.le_refl _
        · exact UInt64.le_of_lt ((List.pairwise_cons.mp hsorted).1 kv' hkv')
      · simp [ControlFlow.takeDiagnostics, hid, he]

/-! ## §3. Independence of the history. -/

/-- `c` is the first of all contents with the least fingerprint. -/
def IsLeast (runs : List Text) (c : Text) : Prop :=
  c ∈ runs ∧ (∀ d ∈ runs, fingerprint c ≤ fingerprint d)
    ∧ earliest runs (fingerprint c) = some c

theorem IsLeast.unique {runs : List Text} {c d : Text} (hc : IsLeast runs c)
    (hd : IsLeast runs d) : c = d := by
  have hfp : fingerprint c = fingerprint d :=
    UInt64.le_antisymm (hc.2.1 d hd.1) (hd.2.1 c hc.1)
  have hc' := hc.2.2
  rw [hfp, hd.2.2] at hc'
  exact (Option.some.inj hc').symm

/-- A fresh engine answers with the fresh entry. -/
theorem lintRun_fresh (parse : Text → Node) (contents : Text) :
    (lintRun parse [] contents).1
      = (.ok (freshEntry parse contents).info, (freshEntry parse contents).diagnostics) := by
  simp [lintRun, buildWithTree, CfgCacheMap.find, CfgCacheMap.tryEmplace, CfgCacheMap.insert,
    takeDiagnostics, freshEntry]

/-- **A lint run is independent of its history IF AND ONLY IF** the first
contents with the same fingerprint have the same control-flow info, and the
first contents with the least fingerprint of all runs have the same
diagnostics. -/
theorem lintRun_independent_iff (parse : Text → Node) (history : List Text) (contents : Text) :
    (lintRun parse (cacheAfter parse history) contents).1 = (lintRun parse [] contents).1 ↔
      (∀ c, earliest (history ++ [contents]) (fingerprint contents) = some c →
          (freshEntry parse c).info = (freshEntry parse contents).info)
        ∧ ∀ c, IsLeast (history ++ [contents]) c →
          (freshEntry parse c).diagnostics = (freshEntry parse contents).diagnostics := by
  obtain ⟨c, hc, hinfo, hrep⟩ := (represents_cacheAfter parse history).lintRun contents
  obtain ⟨d, hd1, hd2, hd3, hdiag⟩ := hrep.takeDiagnostics (by simp)
  have htake : (lintRun parse (cacheAfter parse history) contents).1.2
      = (freshEntry parse d).diagnostics := by
    rw [← hdiag]
    rfl
  rw [lintRun_fresh, Prod.ext_iff, hinfo, htake]
  simp only [Except.ok.injEq]
  constructor
  · rintro ⟨h1, h2⟩
    refine ⟨fun c' hc' => ?_, fun d' hd' => ?_⟩
    · rw [hc] at hc'
      rw [← Option.some.inj hc']
      exact h1
    · rw [hd'.unique ⟨hd1, hd2, hd3⟩]
      exact h2
  · rintro ⟨h1, h2⟩
    exact ⟨h1 c hc, h2 d ⟨hd1, hd2, hd3⟩⟩

/-! ## §4. The failing input. -/

/-- A function the parser cannot make sense of. -/
def brokenSource : Text := "void f(){@}".toList

/-- A node of `brokenSource`. -/
def brokenNode (kind : NodeKind) (field : Option Field) (lo hi : Nat) (children : List Node) :
    Node :=
  .mk ⟨kind, true, false, field, lo, hi⟩ children

/-- The trees of `brokenSource` and of the empty file. -/
def parseBroken (contents : Text) : Node :=
  if contents = brokenSource then
    brokenNode .translationUnit none 0 11
      [brokenNode .functionDefinition none 0 11
        [brokenNode (.other "primitive_type".toList) (some (.other "type".toList)) 0 4 [],
         brokenNode .functionDeclarator (some .declarator) 5 8
          [brokenNode .identifier (some .declarator) 5 6 [],
           brokenNode (.other "parameter_list".toList) (some (.other "parameters".toList)) 6 8 []],
         brokenNode .compoundStatement (some .body) 8 11 [brokenNode .error none 9 10 []]]]
  else brokenNode .translationUnit none 0 0 []

/-- **Linting the empty file after `brokenSource` reports the other file's
skipped function**: the broken bytes have the smaller fingerprint. -/
theorem emptyFile_inherits_cfgSkip :
    (lintRun parseBroken (cacheAfter parseBroken [brokenSource]) []).1.2
        = [cfgSkipDiagnostic ⟨⟨1⟩, ⟨0, 11⟩⟩]
      ∧ (lintRun parseBroken [] []).1.2 = []
      ∧ (lintRun parseBroken (cacheAfter parseBroken [brokenSource]) []).1
          ≠ (lintRun parseBroken [] []).1 := by
  have h1 : (lintRun parseBroken (cacheAfter parseBroken [brokenSource]) []).1.2
      = [cfgSkipDiagnostic ⟨⟨1⟩, ⟨0, 11⟩⟩] := by rfl
  have h2 : (lintRun parseBroken [] []).1.2 = [] := by rfl
  refine ⟨h1, h2, fun heq => ?_⟩
  rw [heq, h2] at h1
  exact absurd h1 (by simp)

end ShaderClippy.ControlFlow
