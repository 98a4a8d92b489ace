/-
  ShaderClippy.Lint.DocumentOrder

  **ARE THE DIAGNOSTICS IN DOCUMENT ORDER?**

  `lint.hpp` says that `lint` returns the diagnostics in document order.
  What is returned is the concatenation of the stages, and no stage knows
  where the one before it has been.

  One stage is in order by itself, the last: the scan meets the comments from
  left to right (`malformedStage_inOrder`; offsets are 32-bit). The walk is,
  when every rule reports at the start of the node it is shown
  (`reported_walk_inOrder`). So the whole is, when nothing else has anything to
  report and no malformed suppression stands in front (`lint_inOrder`).
-/
import Mathlib
import ShaderClippy.Lint.Orchestrator
import ShaderClippy.Suppress.EndToEnd
import ShaderClippy.Syntax.Spans

namespace ShaderClippy.Lint

open ControlFlow (buildWithTree takeDiagnostics)
open Suppress (scan lineComments)

variable {R I : Type}

/-! ## §1. Document order. -/

/-- The start byte of the primary span. -/
def startByte (d : Diagnostic) : Nat := d.primarySpan.bytes.lo

/-- Sorted by the start byte. -/
def InOrder (ds : List Diagnostic) : Prop := ds.Pairwise fun a b => startByte a ≤ startByte b

instance (ds : List Diagnostic) : Decidable (InOrder ds) :=
  inferInstanceAs (Decidable (ds.Pairwise fun a b => startByte a ≤ startByte b))

/-- Retagging moves nothing. -/
theorem startByte_retag {config : Config} {filePath : Text} {d d' : Diagnostic}
    (h : retag config filePath d = some d') : startByte d' = startByte d := by
  unfold retag at h
  split at h <;> cases h <;> rfl

/-- The configuration changes severities and leaves out: the order stays. -/
theorem InOrder.configured {ds : List Diagnostic} (h : InOrder ds)
    (config : Option (Config × Text)) : InOrder (configured config ds) := by
  cases config with
  | none => exact h
  | some c =>
      refine List.Pairwise.filterMap _ ?_ h
      intro a b hab a' ha b' hb
      rw [startByte_retag ha, startByte_retag hb]
      exact hab

theorem configured_append (config : Option (Config × Text)) (ds es : List Diagnostic) :
    configured config (ds ++ es) = configured config ds ++ configured config es := by
  cases config with
  | none => rfl
  | some c => exact List.filterMap_append

theorem configured_flatMap {α : Type} (config : Option (Config × Text)) (l : List α)
    (f : α → List Diagnostic) :
    configured config (l.flatMap f) = l.flatMap fun x => configured config (f x) := by
  induction l with
  | nil => cases config <;> rfl
  | cons x l ih => rw [List.flatMap_cons, List.flatMap_cons, configured_append, ih]

/-! ## §2. The malformed suppressions. -/

/-- A malformed comment is reported from its `//`. -/
theorem commentDiagnostic_lo {source body : Text} {d : Suppress.ScanDiagnostic}
    (hsize : source.length < 2 ^ 32) (h : Suppress.commentDiagnostic source body = some d) :
    d.byteLo = source.length - body.length - 2 := by
  unfold Suppress.commentDiagnostic at h
  dsimp only at h
  split at h
  · exact absurd h (by simp)
  · unfold Suppress.buildMalformed at h
    split at h
    · exact absurd h (by simp)
    · cases h
      show SourceFile.u32 (Suppress.offset source body - 2) = _
      unfold Suppress.offset
      exact Nat.mod_eq_of_lt (by omega)

/-- **The malformed suppressions are reported in document order.** -/
theorem malformedStage_inOrder {env : LintEnv R I} (hsize : env.bytes.length < 2 ^ 32) :
    InOrder (malformedStage env) := by
  unfold malformedStage
  split
  · exact List.Pairwise.nil
  · have hspec := (Suppress.scanFrom_spec env.bytes ⟨[], [], false⟩ env.bytes).2
    have hscan : (scan env.bytes).scanDiagnostics
        = (lineComments false env.bytes).filterMap
            fun p => Suppress.commentDiagnostic env.bytes p.1 := hspec
    unfold InOrder
    rw [hscan, List.pairwise_map]
    refine List.Pairwise.filterMap _ ?_ (Suppress.lineComments_shrink false env.bytes).1
    intro p q hpq d hd e he
    show d.byteLo ≤ e.byteLo
    rw [commentDiagnostic_lo hsize hd, commentDiagnostic_lo hsize he]
    omega

/-! ## §3. What is reported in the end. -/

/-- What a run reports of what hooks emit: what is neither suppressed nor dropped
by the configuration. -/
def reported (env : LintEnv R I) (config : Option (Config × Text)) (ds : List Diagnostic) :
    List Diagnostic :=
  configured config (emitted (scan env.bytes) ds)

/-- The configuration does not set the diagnostic to `allow`. -/
def NotAllowed (config : Option (Config × Text)) (d : Diagnostic) : Prop :=
  ∀ c path, config = some (c, path) → c.severityFor d.code path ≠ some .allow

/-- Neither does a comment suppress it. -/
def Kept (env : LintEnv R I) (config : Option (Config × Text)) (d : Diagnostic) : Prop :=
  (scan env.bytes).suppresses d.code d.primarySpan.bytes.lo d.primarySpan.bytes.hi = false
    ∧ NotAllowed config d

/-- The configuration changes nothing of a diagnostic but its severity. -/
theorem mem_configured {config : Option (Config × Text)} {ds : List Diagnostic} {d : Diagnostic}
    (h : d ∈ configured config ds) :
    ∃ d₀ ∈ ds, NotAllowed config d₀ ∧ ∃ severity, d = { d₀ with severity := severity } := by
  cases config with
  | none => exact ⟨d, h, fun _ _ hc => (Option.some_ne_none _ hc.symm).elim, d.severity, rfl⟩
  | some c =>
      obtain ⟨d₀, hd₀, hretag⟩ := List.mem_filterMap.mp h
      unfold retag at hretag
      refine ⟨d₀, hd₀, ?_, ?_⟩
      · rintro c' path hc hallow
        cases hc
        rw [hallow] at hretag
        cases hretag
      · split at hretag
        · cases hretag
        · exact ⟨_, (Option.some.inj hretag).symm⟩
        · exact ⟨_, (Option.some.inj hretag).symm⟩
        · exact ⟨d₀.severity, (Option.some.inj hretag).symm⟩

/-- It drops none but those that it allows. -/
theorem exists_configured {config : Option (Config × Text)} {ds : List Diagnostic} {d₀ : Diagnostic}
    (hd₀ : d₀ ∈ ds) (h : NotAllowed config d₀) : ∃ severity, { d₀ with severity := severity } ∈ configured config ds := by
  cases config with
  | none => exact ⟨d₀.severity, hd₀⟩
  | some c =>
      have hallow := h c.1 c.2 rfl
      have hkept : ∃ severity, retag c.1 c.2 d₀ = some { d₀ with severity := severity } := by
        unfold retag
        split
        case h_1 heq => exact absurd heq hallow
        case h_2 => exact ⟨_, rfl⟩
        case h_3 => exact ⟨_, rfl⟩
        case h_4 => exact ⟨d₀.severity, rfl⟩
      obtain ⟨severity, hretag⟩ := hkept
      exact ⟨severity, List.mem_filterMap.mpr ⟨d₀, hd₀, hretag⟩⟩

/-- What is reported comes from a kept diagnostic that starts at the same byte. -/
theorem mem_reported {env : LintEnv R I} {config : Option (Config × Text)} {ds : List Diagnostic}
    {d : Diagnostic} (h : d ∈ reported env config ds) :
    ∃ d₀ ∈ ds, Kept env config d₀ ∧ startByte d = startByte d₀ := by
  obtain ⟨d₀, hd₀, hallowed, _, rfl⟩ := mem_configured h
  obtain ⟨hmem, hkept⟩ := List.mem_filter.mp hd₀
  exact ⟨d₀, hmem, ⟨by simpa using hkept, hallowed⟩, rfl⟩

/-- Where nothing is kept nothing is reported. -/
theorem reported_eq_nil {env : LintEnv R I} {config : Option (Config × Text)}
    {ds : List Diagnostic} (h : ∀ d ∈ ds, ¬ Kept env config d) : reported env config ds = [] := by
  refine List.eq_nil_iff_forall_not_mem.mpr fun d hd => ?_
  obtain ⟨d₀, hd₀, hkept, -⟩ := mem_reported hd
  exact h d₀ hd₀ hkept

theorem reported_flatMap {α : Type} (env : LintEnv R I) (config : Option (Config × Text))
    (l : List α) (f : α → List Diagnostic) :
    reported env config (l.flatMap f) = l.flatMap fun x => reported env config (f x) := by
  unfold reported emitted
  rw [List.filter_flatMap, configured_flatMap]

/-- The result is what the stages report, one after the other. -/
theorem lint_eq (env : LintEnv R I) (rules : List (Rule R I)) (options : LintOptions)
    (config : Option (Config × Text)) :
    lint env rules options config
      = (ruleStages env rules options (config.map Prod.fst)).flatMap (reported env config)
        ++ configured config (malformedStage env) := by
  rw [lint, runRules, configured_append, configured_flatMap]
  rfl

/-! ## §4. Rules that report at their node. -/

mutual
/-- In a parser's tree the nodes begin in the order of the walk, none before
the root. -/
theorem walkOrder_sorted : ∀ (n : Node), n.wellSpanned = true →
    (walkOrder n).Pairwise (fun a b => a.info.lo ≤ b.info.lo)
      ∧ ∀ m ∈ walkOrder n, m.Inside n
  | .mk i cs, h => by
      have hcs : orderedIn i.lo i.hi cs = true := by
        simp only [Node.wellSpanned, Bool.and_eq_true] at h
        exact h.2
      obtain ⟨hpair, hin⟩ := walkOrderAll_sorted i.lo i.hi cs hcs
      rw [walkOrder]
      refine ⟨List.pairwise_cons.mpr ⟨fun m hm => (hin m hm).1, hpair⟩, fun m hm => ?_⟩
      rcases List.mem_cons.mp hm with rfl | hm
      · exact Node.Inside.refl _
      · exact hin m hm

/-- The preorder of ordered trees is sorted by where the nodes begin. -/
theorem walkOrderAll_sorted (lo hi : Nat) : ∀ (ns : List Node), orderedIn lo hi ns = true →
    (walkOrderAll ns).Pairwise (fun a b => a.info.lo ≤ b.info.lo)
      ∧ ∀ m ∈ walkOrderAll ns, lo ≤ m.info.lo ∧ m.info.hi ≤ hi
  | [], _ => by
      rw [walkOrderAll]
      exact ⟨List.Pairwise.nil, fun _ hm => absurd hm List.not_mem_nil⟩
  | n :: ns, h => by
      obtain ⟨hlo, hhi, hw, hrest⟩ := orderedIn_cons.mp h
      obtain ⟨hpair, hin⟩ := walkOrder_sorted n hw
      obtain ⟨hpairs, hins⟩ := walkOrderAll_sorted n.info.hi hi ns hrest
      have hn := Node.lo_le_hi hw
      rw [walkOrderAll]
      refine ⟨List.pairwise_append.mpr ⟨hpair, hpairs, fun a ha b hb => ?_⟩, fun m hm => ?_⟩
      · -- `a` ends where `n` does, or before, and `b` begins after it
        obtain ⟨-, ha2⟩ := hin a ha
        obtain ⟨hb1, -⟩ := hins b hb
        have ha1 := Node.lo_le_hi (walkOrder_wellSpanned n hw a ha)
        omega
      · rcases List.mem_append.mp hm with hm | hm
        · obtain ⟨h1, h2⟩ := hin m hm
          omega
        · obtain ⟨h1, h2⟩ := hins m hm
          omega

/-- Every node of a well-spanned tree is well spanned. -/
theorem walkOrder_wellSpanned : ∀ (n : Node), n.wellSpanned = true →
    ∀ m ∈ walkOrder n, m.wellSpanned = true
  | .mk i cs, h, m, hm => by
      rw [walkOrder] at hm
      rcases List.mem_cons.mp hm with rfl | hm
      · exact h
      · simp only [Node.wellSpanned, Bool.and_eq_true] at h
        exact walkOrderAll_wellSpanned i.lo i.hi cs h.2 m hm

theorem walkOrderAll_wellSpanned (lo hi : Nat) : ∀ (ns : List Node),
    orderedIn lo hi ns = true → ∀ m ∈ walkOrderAll ns, m.wellSpanned = true
  | [], _, m, hm => by
      rw [walkOrderAll] at hm
      exact absurd hm List.not_mem_nil
  | n :: ns, h, m, hm => by
      obtain ⟨-, -, hw, hrest⟩ := orderedIn_cons.mp h
      rw [walkOrderAll] at hm
      rcases List.mem_append.mp hm with hm | hm
      · exact walkOrder_wellSpanned n hw m hm
      · exact walkOrderAll_wellSpanned n.info.hi hi ns hrest m hm
end

/-- The nodes that `on_node` is shown. -/
def shown (root : Node) : List Node := (walkOrder root).filter fun n => n.info.named

/-- **Rules that report at the start of the node they are shown are in
document order**, however many of them there are. -/
theorem reported_walk_inOrder {env : LintEnv R I} {config : Option (Config × Text)}
    {view : RuleView} {rules : List (Rule R I)} {active : ExperimentalTarget}
    (hroot : view.root.wellSpanned = true)
    (hrules : ∀ rule ∈ dispatched rules .ast active, ∀ node ∈ shown view.root,
      ∀ d ∈ rule.onNode view node, Kept env config d → startByte d = node.info.lo) :
    InOrder (reported env config (walk view rules active)) := by
  have hat : ∀ node ∈ shown view.root,
      ∀ d ∈ reported env config ((dispatched rules .ast active).flatMap fun rule => rule.onNode view node),
        startByte d = node.info.lo := by
    intro node hnode d hd
    obtain ⟨d₀, hd₀, hkept, hstart⟩ := mem_reported hd
    obtain ⟨rule, hrule, hd₀⟩ := List.mem_flatMap.mp hd₀
    exact hstart.trans (hrules rule hrule node hnode d₀ hd₀ hkept)
  unfold InOrder walk
  rw [reported_flatMap, List.pairwise_flatMap]
  constructor
  · intro node hnode
    refine List.pairwise_iff_forall_sublist.mpr fun {a b} hsub => ?_
    rw [hat node hnode a (hsub.subset (by simp)), hat node hnode b (hsub.subset (by simp))]
  · refine ((walkOrder_sorted view.root hroot).1.sublist List.filter_sublist).imp_of_mem ?_
    intro n m hn hm hnm a ha b hb
    rw [hat n hn a ha, hat m hm b hb]
    exact hnm

/-! ## §5. What the engines and their rules emit. -/

section Stages

variable {P : Diagnostic → Prop} {env : LintEnv R I} {view : RuleView} {rules : List (Rule R I)}
  {options : LintOptions} {active : ExperimentalTarget}

/-- What holds of the notice of the engine and of what the rules report holds of
all that the stage emits. -/
theorem reflectionStage_forall
    (h : options.enableReflection = true → ∀ rule ∈ dispatched rules .reflection active,
      (∀ d, env.reflected = .error d → P d) ∧
      ∀ info, env.reflected = .ok info → ∀ d ∈ rule.onReflection view info, P d) :
    ∀ d ∈ reflectionStage env view rules options active, P d := by
  intro d hd
  unfold reflectionStage at hd
  split at hd
  · next hrun =>
      simp only [Bool.and_eq_true, Bool.not_eq_true', List.isEmpty_eq_false_iff_exists_mem] at hrun
      obtain ⟨hon, first, hfirst⟩ := hrun
      split at hd
      · next diag heq =>
          cases List.mem_singleton.mp hd
          exact (h hon first hfirst).1 _ heq
      · next info heq =>
          obtain ⟨rule, hrule, hd⟩ := List.mem_flatMap.mp hd
          exact (h hon rule hrule).2 info heq d hd
  · exact absurd hd List.not_mem_nil

/-- What holds of every diagnostic of a rule, of the build and of the cache holds of the stage. -/
theorem controlFlowStage_forall
    (h : options.enableControlFlow = true → ∀ rule ∈ dispatched rules .controlFlow active, ∀ info cache,
      buildWithTree env.cfgCache env.source (some view.root) view.bytes = (info, cache) →
      (∀ d, info = .error d → P d) ∧
      ∀ i, info = .ok i → (∀ d ∈ rule.onCfg view i, P d) ∧ ∀ d ∈ takeDiagnostics cache env.source, P d) :
    ∀ d ∈ controlFlowStage env view rules options active, P d := by
  intro d hd
  unfold controlFlowStage at hd
  split at hd
  · next hrun =>
      simp only [Bool.and_eq_true, Bool.not_eq_true', List.isEmpty_eq_false_iff_exists_mem] at hrun
      obtain ⟨hon, first, hfirst⟩ := hrun
      have hbuilt := h hon
      cases hbuild : buildWithTree env.cfgCache env.source (some view.root) view.bytes with
      | mk info cache =>
          rw [hbuild] at hd
          cases info with
          | error diag =>
              cases List.mem_singleton.mp hd
              exact (hbuilt first hfirst _ _ hbuild).1 _ rfl
          | ok i =>
              rcases List.mem_append.mp hd with hd | hd
              · obtain ⟨rule, hrule, hd⟩ := List.mem_flatMap.mp hd
                exact ((hbuilt rule hrule _ _ hbuild).2 i rfl).1 d hd
              · exact ((hbuilt first hfirst _ _ hbuild).2 i rfl).2 d hd
  · exact absurd hd List.not_mem_nil

/-- The same for the IR stage. -/
theorem irStage_forall
    (h : options.enableIr = true → ∀ rule ∈ dispatched rules .ir active,
      (∀ d, env.ir = .error d → P d) ∧ ∀ info, env.ir = .ok info → ∀ d ∈ rule.onIr view info, P d) :
    ∀ d ∈ irStage env view rules options active, P d := by
  intro d hd
  unfold irStage at hd
  split at hd
  · next hrun =>
      simp only [Bool.and_eq_true, Bool.not_eq_true', List.isEmpty_eq_false_iff_exists_mem] at hrun
      obtain ⟨hon, first, hfirst⟩ := hrun
      split at hd
      · next diag heq =>
          cases List.mem_singleton.mp hd
          exact (h hon first hfirst).1 _ heq
      · next info heq =>
          obtain ⟨rule, hrule, hd⟩ := List.mem_flatMap.mp hd
          exact (h hon rule hrule).2 info heq d hd
  · exact absurd hd List.not_mem_nil

end Stages

/-! ## §6. When the order is the document's. -/

/-- The experimental target of a run. -/
def activeTarget (config : Option (Config × Text)) : ExperimentalTarget :=
  (config.map Prod.fst).elim .none Config.experimentalTarget

/-- What the hooks of a run are shown. -/
def viewOf (env : LintEnv R I) (config : Option (Config × Text)) (root : Node) : RuleView :=
  ⟨env.source, env.bytes, root, config.map Prod.fst⟩

/-- The rules report at the nodes they are shown and nowhere else, the engines
have nothing to say, and no malformed suppression stands in front of a report.
What a comment or the configuration drops does not count. -/
structure AtNodes (env : LintEnv R I) (rules : List (Rule R I)) (options : LintOptions)
    (config : Option (Config × Text)) (root : Node) : Prop where
  size : env.bytes.length < 2 ^ 32
  spans : root.wellSpanned = true
  onNode : ∀ rule ∈ dispatched rules .ast (activeTarget config), ∀ node ∈ shown root,
    ∀ d ∈ rule.onNode (viewOf env config root) node, Kept env config d → startByte d = node.info.lo
  onTree : ∀ rule ∈ dispatched rules .ast (activeTarget config),
    ∀ d ∈ rule.onTree (viewOf env config root), ¬ Kept env config d
  reflection : options.enableReflection = true →
    ∀ rule ∈ dispatched rules .reflection (activeTarget config),
      (∀ d, env.reflected = .error d → ¬ Kept env config d) ∧
      ∀ info, env.reflected = .ok info →
        ∀ d ∈ rule.onReflection (viewOf env config root) info, ¬ Kept env config d
  controlFlow : options.enableControlFlow = true →
    ∀ rule ∈ dispatched rules .controlFlow (activeTarget config), ∀ info cache,
      buildWithTree env.cfgCache env.source (some root) env.bytes = (info, cache) →
      (∀ d, info = .error d → ¬ Kept env config d) ∧
      ∀ i, info = .ok i → (∀ d ∈ rule.onCfg (viewOf env config root) i, ¬ Kept env config d) ∧
        ∀ d ∈ takeDiagnostics cache env.source, ¬ Kept env config d
  ir : options.enableIr = true → ∀ rule ∈ dispatched rules .ir (activeTarget config),
    (∀ d, env.ir = .error d → ¬ Kept env config d) ∧
    ∀ info, env.ir = .ok info →
      ∀ d ∈ rule.onIr (viewOf env config root) info, ¬ Kept env config d
  malformed : ∀ sd ∈ (scan env.bytes).scanDiagnostics,
    NotAllowed config (malformedSuppression env.source sd) →
    ∀ rule ∈ dispatched rules .ast (activeTarget config), ∀ node ∈ shown root,
      ∀ d ∈ rule.onNode (viewOf env config root) node, Kept env config d → startByte d ≤ sd.byteLo

section AtNodes

variable {env : LintEnv R I} {rules : List (Rule R I)} {options : LintOptions}
  {config : Option (Config × Text)} {root : Node}

/-- A stage whose rules and engine have nothing to say reports nothing. -/
theorem AtNodes.reported_tree (h : AtNodes env rules options config root) :
    reported env config (treePass (viewOf env config root) rules (activeTarget config)) = [] := by
  refine reported_eq_nil fun d hd => ?_
  obtain ⟨rule, hrule, hd⟩ := List.mem_flatMap.mp hd
  exact h.onTree rule hrule d hd

theorem AtNodes.reported_reflection (h : AtNodes env rules options config root) :
    reported env config (reflectionStage env (viewOf env config root) rules options
      (activeTarget config)) = [] :=
  reported_eq_nil (reflectionStage_forall h.reflection)

theorem AtNodes.reported_controlFlow (h : AtNodes env rules options config root) :
    reported env config (controlFlowStage env (viewOf env config root) rules options
      (activeTarget config)) = [] :=
  reported_eq_nil (controlFlowStage_forall h.controlFlow)

theorem AtNodes.reported_ir (h : AtNodes env rules options config root) :
    reported env config (irStage env (viewOf env config root) rules options
      (activeTarget config)) = [] :=
  reported_eq_nil (irStage_forall h.ir)

end AtNodes

/-- **The diagnostics are in document order when the rules report at the nodes
they are shown and nowhere else.**  A source that does not parse has none. -/
theorem lint_inOrder (env : LintEnv R I) (rules : List (Rule R I)) (options : LintOptions)
    (config : Option (Config × Text))
    (h : ∀ root, env.parsed = some root → AtNodes env rules options config root) :
    InOrder (lint env rules options config) := by
  rw [lint_eq]
  cases hparsed : env.parsed with
  | none =>
      have hmalformed : malformedStage env = [] := by simp only [malformedStage, hparsed]
      rw [hmalformed, ruleStages, hparsed]
      cases config <;> exact List.Pairwise.nil
  | some root =>
      have hnodes := h root hparsed
      -- only the walk reports anything
      have hstages : (ruleStages env rules options (config.map Prod.fst)).flatMap (reported env config)
          = reported env config (walk (viewOf env config root) rules (activeTarget config)) := by
        rw [ruleStages, hparsed]
        show reported env config (treePass (viewOf env config root) rules (activeTarget config))
          ++ (_ ++ (reported env config (reflectionStage env (viewOf env config root) rules options
                (activeTarget config))
            ++ (reported env config (controlFlowStage env (viewOf env config root) rules options
                (activeTarget config))
              ++ (reported env config (irStage env (viewOf env config root) rules options
                (activeTarget config)) ++ [])))) = _
        rw [hnodes.reported_tree, hnodes.reported_reflection, hnodes.reported_controlFlow,
          hnodes.reported_ir]
        simp only [List.nil_append, List.append_nil]
        rfl
      rw [hstages]
      refine List.pairwise_append.mpr ⟨reported_walk_inOrder hnodes.spans hnodes.onNode,
        (malformedStage_inOrder hnodes.size).configured config, fun a ha b hb => ?_⟩
      -- a malformed suppression does not stand in front of a report
      obtain ⟨a₀, ha₀, hkept, hastart⟩ := mem_reported ha
      obtain ⟨node, hnode, ha₀⟩ := List.mem_flatMap.mp ha₀
      obtain ⟨rule, hrule, ha₀⟩ := List.mem_flatMap.mp ha₀
      obtain ⟨b₀, hb₀, hallowed, _, rfl⟩ := mem_configured hb
      simp only [malformedStage, hparsed] at hb₀
      obtain ⟨sd, hsd, rfl⟩ := List.mem_map.mp hb₀
      rw [hastart]
      exact hnodes.malformed sd hsd hallowed rule hrule node hnode a₀ ha₀ hkept

/-! ## §7. The failing input. -/

/-- A diagnostic over one byte of the first source. -/
def reportAt (code : Text) (lo : Nat) : Diagnostic := ⟨code, .warning, ⟨⟨1⟩, ⟨lo, lo + 1⟩⟩, [], []⟩

/-- A rule that looks at the whole tree, and reports the second name. -/
def wholeTreeRule : Rule Unit Unit where
  stage := .ast
  experimentalTarget := .none
  onTree _ := [reportAt "whole-tree".toList 2]
  onNode _ _ := []
  onReflection _ _ := []
  onCfg _ _ := []
  onIr _ _ := []

/-- A rule that reports every name at byte 0. -/
def firstNameRule : Rule Unit Unit where
  stage := .ast
  experimentalTarget := .none
  onTree _ := []
  onNode _ node :=
    if node.kind = .identifier ∧ node.info.lo = 0 then [reportAt "first-name".toList 0] else []
  onReflection _ _ := []
  onCfg _ _ := []
  onIr _ _ := []

/-- The run over `a b`. -/
def twoNames : LintEnv Unit Unit where
  source := ⟨1⟩
  bytes := ['a', ' ', 'b']
  parsed := some (.mk ⟨.translationUnit, true, false, none, 0, 3⟩
    [.mk ⟨.identifier, true, false, none, 0, 1⟩ [],
     .mk ⟨.identifier, true, false, none, 2, 3⟩ []])
  reflected := .ok ()
  cfgCache := []
  ir := .ok ()

theorem segmented_twoNames :
    Suppress.Segmented ['a', ' ', 'b'] [.plain 'a', .plain ' ', .plain 'b'] :=
  .plain rfl rfl (.plain rfl rfl (.plain rfl rfl .nil))

/-- The rule that reports every name at byte 0 keeps the order, on its own. -/
theorem lint_inOrder_firstName :
    InOrder (lint twoNames [firstNameRule] ⟨true, true, true⟩ none) := by
  refine lint_inOrder _ _ _ _ fun root hroot => ?_
  cases hroot
  have hat : ∀ (view : RuleView) (node : Node), ∀ d ∈ firstNameRule.onNode view node,
      startByte d = node.info.lo ∧ startByte d = 0 := by
    intro view node d hd
    have hite : d ∈ (if node.kind = .identifier ∧ node.info.lo = 0
        then [reportAt "first-name".toList 0] else []) := hd
    split at hite
    · next hname =>
        cases List.mem_singleton.mp hite
        exact ⟨hname.2.symm, rfl⟩
    · exact absurd hite List.not_mem_nil
  have hmem : ∀ rule ∈ dispatched [firstNameRule] .ast .none, rule = firstNameRule :=
    fun rule hrule => List.mem_singleton.mp (List.mem_of_mem_filter hrule)
  have hother : ∀ stage ≠ Stage.ast, ∀ rule ∈ dispatched [firstNameRule] stage .none, False := by
    intro stage hstage rule hrule
    obtain ⟨hrule, hdispatched⟩ := List.mem_filter.mp hrule
    cases List.mem_singleton.mp hrule
    exact hstage (of_decide_eq_true (Bool.and_eq_true_iff.mp hdispatched).1).symm
  refine ⟨by decide, by decide, ?_, ?_, ?_, ?_, ?_, ?_⟩
  · intro rule hrule node _ d hd _
    cases hmem rule hrule
    exact (hat _ node d hd).1
  · intro rule hrule d hd
    cases hmem rule hrule
    exact absurd hd List.not_mem_nil
  · exact fun _ rule hrule => (hother .reflection (by decide) rule hrule).elim
  · exact fun _ rule hrule => (hother .controlFlow (by decide) rule hrule).elim
  · exact fun _ rule hrule => (hother .ir (by decide) rule hrule).elim
  · intro sd _ _ rule hrule node _ d hd _
    cases hmem rule hrule
    rw [(hat _ node d hd).2]
    exact Nat.zero_le _

/-- **The whole-tree rule's diagnostic comes first, and starts later.** -/
theorem twoNames_out_of_order :
    (lint twoNames [wholeTreeRule, firstNameRule] ⟨true, true, true⟩ none).map startByte = [2, 0]
      ∧ ¬ InOrder (lint twoNames [wholeTreeRule, firstNameRule] ⟨true, true, true⟩ none) := by
  have hsuppresses := Suppress.suppresses_segmented segmented_twoNames
  have hdiagnostics := Suppress.scanDiagnostics_segmented segmented_twoNames
  -- there is no comment, so nothing is suppressed and nothing malformed
  have hnone : ∀ r lo hi, (scan ['a', ' ', 'b']).suppresses r lo hi = false := by
    intro r lo hi
    rw [← Bool.not_eq_true, hsuppresses]
    rintro ⟨c, hc, -⟩
    exact absurd hc List.not_mem_nil
  have hmalformed : malformedStage twoNames = [] := by
    show (scan ['a', ' ', 'b']).scanDiagnostics.map _ = []
    rw [hdiagnostics]
    rfl
  have hemitted : emitted (scan twoNames.bytes) = fun ds => ds := by
    funext ds
    unfold emitted
    refine List.filter_eq_self.mpr fun d _ => ?_
    show (!(scan ['a', ' ', 'b']).suppresses _ _ _) = true
    rw [hnone]
    rfl
  have hlint : lint twoNames [wholeTreeRule, firstNameRule] ⟨true, true, true⟩ none
      = [reportAt "whole-tree".toList 2, reportAt "first-name".toList 0] := by
    unfold lint runRules configured
    rw [hmalformed, hemitted]
    rfl
  rw [hlint]
  decide

end ShaderClippy.Lint
