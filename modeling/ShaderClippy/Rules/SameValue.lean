/-
  ShaderClippy.Rules.SameValue

  **DO TWO REPORTED CALLS HAVE THE SAME VALUE?**
  (`redundant_texture_sample.cpp`, `sin_cos_pair.cpp`)

  Both rules pair calls by texts: samples of one block with the same receiver
  and the same first two arguments (`mem_samplePairs_iff`), the first `sin`
  and the first `cos` of one argument in a scope (`mem_sinCosPairs_iff`).
  Neither looks at the statements between them, and the first not at the
  method and the other arguments.

  So the reports are right exactly where these agree and no way leads from
  the first call through a store to one of its variables on to the second
  (`sameValueLaw_iff`), which `mayChange` decides on the statements.
-/
import Mathlib
import ShaderClippy.ControlFlow.CfgQuery
import ShaderClippy.ControlFlow.Evaluation
import ShaderClippy.Syntax.Calls

namespace ShaderClippy.Rules.SameValue

open ControlFlow ControlFlow.Evaluation Structured

/-! ## §1. `redundant-texture-sample`. -/

def kMethods : List Text :=
  [".Sample".toList, ".SampleLevel".toList, ".SampleGrad".toList, ".SampleBias".toList]

/-- `is_sample_callee`. -/
def isSampleCallee (fnText : Text) : Bool := kMethods.any fun m => m.isSuffixOf fnText

mutual
/-- `collect_sample_calls`. -/
def collectSampleCalls (bytes : Text) : Node → List Node
  | .mk i cs =>
      (if i.kind = .callExpression ∧ isSampleCallee (calleeText bytes (.mk i cs)) = true then
        [.mk i cs] else [])
        ++ collectSampleCallsAll bytes cs

def collectSampleCallsAll (bytes : Text) : List Node → List Node
  | [] => []
  | n :: ns => collectSampleCalls bytes n ++ collectSampleCallsAll bytes ns
end

/-- The receiver of a method call; nothing if the callee is no field expression. -/
def receiverText (bytes : Text) (call : Node) : Text :=
  match call.childByField .function with
  | none => []
  | some fn => if fn.kind = .fieldExpression then optionText (fn.childByField .argument) bytes else []

/-- `Sample`, with the block it is grouped by. -/
structure Sample where
  call : Node
  block : Nat
  fingerprint : Text

/-- A sample, if it is in a block and has two arguments. -/
def sampleOf (info : ControlFlowInfo) (source : SourceId) (bytes : Text) (call : Node) :
    Option Sample :=
  match blockFor info (call.span source), argumentNodes call with
  | some block, sampler :: uv :: _ =>
      some ⟨call, block,
        receiverText bytes call ++ '|' :: (sampler.text bytes ++ '|' :: uv.text bytes)⟩
  | _, _ => none

/-- The turns of `i` from one sample on; the flags say which ones are
reported. -/
def pairLoop : Nat → List (Sample × Bool) → List (Sample × Sample)
  | 0, _ | _ + 1, [] => []
  | fuel + 1, (s, _) :: rest =>
      ((rest.filter fun t => !t.2 && s.fingerprint == t.1.fingerprint).map fun t => (s, t.1))
        ++ pairLoop fuel (rest.map fun t => (t.1, t.2 || s.fingerprint == t.1.fingerprint))

/-- The pairs of one block, none reported at first. -/
def blockPairs (samples : List Sample) : List (Sample × Sample) :=
  pairLoop samples.length (samples.map fun s => (s, false))

/-- The samples of a source, in order. -/
def samples (info : ControlFlowInfo) (source : SourceId) (root : Node) (bytes : Text) : List Sample :=
  let calls := collectSampleCalls bytes root
  if calls.length < 2 then [] else calls.filterMap (sampleOf info source bytes)

/-- The pairs `on_cfg` reports, block by block. -/
def samplePairs (info : ControlFlowInfo) (source : SourceId) (root : Node) (bytes : Text) :
    List (Sample × Sample) :=
  let all := samples info source root bytes
  (all.map Sample.block).dedup.flatMap fun b => blockPairs (all.filter fun s => s.block == b)

/-- The diagnostic at the second sample. -/
def duplicateSample (source : SourceId) (s : Sample) : Diagnostic where
  code := "redundant-texture-sample".toList
  severity := .warning
  primarySpan := s.call.span source
  message := "duplicate texture sample within the same basic block ".toList
    ++ "(matching texture, sampler, and UV expression) -- the second ".toList
    ++ "sample is wasted bandwidth; CSE the result into a local".toList
  fixes := []

/-- `RedundantTextureSample::on_cfg`. -/
def onCfg (info : ControlFlowInfo) (source : SourceId) (root : Node) (bytes : Text) :
    List Diagnostic :=
  (samplePairs info source root bytes).map fun pair => duplicateSample source pair.2

/-! ## §2. `sin-cos-pair`. -/

mutual
/-- `is_pure_arg`. -/
def isPureArg : Node → Bool
  | .mk i cs => i.kind != .callExpression && isPureArgAll cs

def isPureArgAll : List Node → Bool
  | [] => true
  | n :: ns => isPureArg n && isPureArgAll ns
end

/-- `is_unary_call_to`, with the argument. -/
def unaryArgument (bytes fnName : Text) (n : Node) : Option Node :=
  if n.kind = .callExpression ∧ calleeText bytes n = fnName then
    match argumentNodes n with
    | [a] => some a
    | _ => none
  else none

/-- A `sin` or `cos` of a pure argument; the key is the argument's text. -/
structure SinCosCall where
  isSin : Bool
  key : Text
  call : Node

/-- What `collect_sin_cos` takes from one node. -/
def sinCosCall (bytes : Text) (n : Node) : Option SinCosCall :=
  match unaryArgument bytes "sin".toList n with
  | some a => if isPureArg a then some ⟨true, a.text bytes, n⟩ else none
  | none =>
      match unaryArgument bytes "cos".toList n with
      | some a => if isPureArg a then some ⟨false, a.text bytes, n⟩ else none
      | none => none

mutual
/-- The order in which the stack of `collect_sin_cos` pops the nodes below a
statement: the last child first, and nothing of a nested scope. -/
def scopeOrder : Node → List Node
  | .mk i cs => if i.kind = .compoundStatement then [] else .mk i cs :: scopeOrderAll cs

def scopeOrderAll : List Node → List Node
  | [] => []
  | n :: ns => scopeOrderAll ns ++ scopeOrder n
end

/-- The calls `collect_sin_cos` meets, in its order. -/
def scopeCalls (bytes : Text) (compound : Node) : List SinCosCall :=
  (compound.namedChildren.flatMap scopeOrder).filterMap (sinCosCall bytes)

/-- The entry of `key`: the first call of its kind. -/
def firstCall (calls : List SinCosCall) (isSin : Bool) (key : Text) : Option SinCosCall :=
  calls.find? fun c => c.isSin == isSin && c.key == key

/-- The keys of `entries`, in the order of the map. -/
def entryKeys (calls : List SinCosCall) : List Text :=
  (calls.map SinCosCall.key).dedup.insertionSort (· ≤ ·)

/-- The entries with both calls. -/
def scopePairs (bytes : Text) (compound : Node) : List (SinCosCall × SinCosCall) :=
  let calls := scopeCalls bytes compound
  (entryKeys calls).filterMap fun key =>
    match firstCall calls true key, firstCall calls false key with
    | some s, some c => some (s, c)
    | _, _ => none

mutual
/-- The pairs `walk_compound_statements` reports. -/
def sinCosPairs (bytes : Text) : Node → List (SinCosCall × SinCosCall)
  | .mk i cs =>
      (if i.kind = .compoundStatement then scopePairs bytes (.mk i cs) else [])
        ++ sinCosPairsAll bytes cs

def sinCosPairsAll (bytes : Text) : List Node → List (SinCosCall × SinCosCall)
  | [] => []
  | n :: ns => sinCosPairs bytes n ++ sinCosPairsAll bytes ns
end

/-- An em dash, byte by byte. -/
def emDash : Text := [Char.ofNat 0xE2, Char.ofNat 0x80, Char.ofNat 0x94]

/-- The diagnostic at the `sin` call. -/
def sinCosDiagnostic (source : SourceId) (s : SinCosCall) : Diagnostic where
  code := "sin-cos-pair".toList
  severity := .warning
  primarySpan := s.call.span source
  message := "`sin(".toList ++ s.key ++ ")` and `cos(".toList ++ s.key
    ++ ")` are both present ".toList ++ emDash ++ " use `sincos(".toList ++ s.key
    ++ ", s, c)` to compute both for the cost of one transcendental instruction".toList
  fixes := [{
    description := "introduce `float s, c; sincos(".toList ++ s.key
      ++ ", s, c);` and replace the individual sin/cos calls with `s` and `c`; ".toList
      ++ "choose variable names that do not conflict with existing declarations".toList
    machineApplicable := false
    edits := [] }]

/-- `SinCosPair::on_tree`. -/
def onTree (source : SourceId) (root : Node) (bytes : Text) : List Diagnostic :=
  (sinCosPairs bytes root).map fun pair => sinCosDiagnostic source pair.1

/-! ## §3. Which calls are paired. -/

/-- `a` is the first of the samples with the fingerprint of a later one, `b`. -/
def FirstTwin (l : List Sample) (a b : Sample) : Prop :=
  ∃ before between behind, l = before ++ a :: (between ++ b :: behind)
    ∧ a.fingerprint = b.fingerprint ∧ ∀ c ∈ before, c.fingerprint ≠ b.fingerprint

/-- The same in the middle of the loop: `b` is not reported yet. -/
def OpenTwin (l : List (Sample × Bool)) (a b : Sample) : Prop :=
  ∃ before between behind flag, l = before ++ (a, flag) :: (between ++ (b, false) :: behind)
    ∧ a.fingerprint = b.fingerprint ∧ ∀ c ∈ before, c.1.fingerprint ≠ b.fingerprint

/-- What the turn of `s` does to the flags. -/
def markTwins (s : Sample) (t : Sample × Bool) : Sample × Bool :=
  (t.1, t.2 || s.fingerprint == t.1.fingerprint)

theorem markTwins_eq {s b : Sample} {t : Sample × Bool} :
    markTwins s t = (b, false) ↔ t = (b, false) ∧ s.fingerprint ≠ b.fingerprint := by
  obtain ⟨t, flag⟩ := t
  unfold markTwins
  rw [Prod.mk.injEq, Prod.mk.injEq, Bool.or_eq_false_iff, beq_eq_false_iff_ne]
  constructor
  · rintro ⟨rfl, hflag, hne⟩
    exact ⟨⟨rfl, hflag⟩, hne⟩
  · rintro ⟨⟨rfl, hflag⟩, hne⟩
    exact ⟨rfl, hflag, hne⟩

/-- Two entries of a mapped list, with what is in front of, between and behind
them. -/
theorem exists_of_map_eq_two {α β : Type} {f : α → β} {l : List α} {before between behind : List β}
    {x y : β} (h : l.map f = before ++ x :: (between ++ y :: behind)) :
    ∃ before' x' between' y' behind', l = before' ++ x' :: (between' ++ y' :: behind')
      ∧ before'.map f = before ∧ f x' = x ∧ f y' = y := by
  obtain ⟨before', tail', rfl, hbefore, htail⟩ := List.map_eq_append_iff.mp h
  obtain ⟨x', tail, rfl, hx, hrest⟩ := List.map_eq_cons_iff.mp htail
  obtain ⟨between', last', rfl, -, hlast⟩ := List.map_eq_append_iff.mp hrest
  obtain ⟨y', behind', rfl, hy, -⟩ := List.map_eq_cons_iff.mp hlast
  exact ⟨before', x', between', y', behind', rfl, hbefore, hx, hy⟩

/-- One turn: the twins of `s`, or those of a later sample. -/
theorem openTwin_cons {s a b : Sample} {flag : Bool} {rest : List (Sample × Bool)} :
    OpenTwin ((s, flag) :: rest) a b
      ↔ (a = s ∧ (b, false) ∈ rest ∧ s.fingerprint = b.fingerprint)
        ∨ OpenTwin (rest.map (markTwins s)) a b := by
  constructor
  · intro ⟨before, between, behind, flag', hl, hsame, hbefore⟩
    cases before with
    | nil =>
        -- `s` itself is the first of the two
        obtain ⟨hhead, rfl⟩ := List.cons.inj hl
        cases hhead
        exact .inl ⟨rfl, List.mem_append_right _ (List.mem_cons_self ..), hsame⟩
    | cons c before =>
        rw [List.cons_append] at hl
        obtain ⟨rfl, rfl⟩ := List.cons.inj hl
        -- `s` stands in front of both, so the turn leaves `b` unmarked
        have hne : s.fingerprint ≠ b.fingerprint := hbefore (s, flag) (List.mem_cons_self ..)
        refine .inr ⟨before.map (markTwins s), between.map (markTwins s),
          behind.map (markTwins s), (markTwins s (a, flag')).2, ?_, hsame, fun c hc => ?_⟩
        · rw [List.map_append, List.map_cons, List.map_append, List.map_cons,
            markTwins_eq.mpr ⟨rfl, hne⟩]
          rfl
        · obtain ⟨d, hd, rfl⟩ := List.mem_map.mp hc
          exact hbefore d (List.mem_cons_of_mem _ hd)
  · rintro (⟨rfl, hmem, hsame⟩ | ⟨before, between, behind, flag', hl, hsame, hbefore⟩)
    · obtain ⟨between, behind, rfl⟩ := List.append_of_mem hmem
      exact ⟨[], between, behind, flag, rfl, hsame, fun c hc => absurd hc List.not_mem_nil⟩
    · -- `b` is unmarked after the turn, so it was before it, and is no twin of `s`
      obtain ⟨before', a', between', b', behind', rfl, rfl, ha, hb⟩ := exists_of_map_eq_two hl
      obtain ⟨rfl, hne⟩ := markTwins_eq.mp hb
      have hfst : a'.1 = a := congrArg Prod.fst ha
      refine ⟨(s, flag) :: before', between', behind', a'.2, ?_, hsame, fun c hc => ?_⟩
      · rw [← hfst]
        rfl
      · rcases List.mem_cons.mp hc with rfl | hc
        · exact hne
        · exact hbefore (markTwins s c) (List.mem_map_of_mem hc)

theorem mem_pairLoop {a b : Sample} : ∀ {fuel : Nat} {l : List (Sample × Bool)}, l.length ≤ fuel →
    ((a, b) ∈ pairLoop fuel l ↔ OpenTwin l a b) := by
  intro fuel
  induction fuel with
  | zero =>
      intro l hl
      rw [List.length_eq_zero_iff.mp (Nat.le_zero.mp hl)]
      refine ⟨fun h => absurd h List.not_mem_nil, fun ⟨before, _, _, _, h, _⟩ => ?_⟩
      exact absurd h (by simp)
  | succ fuel ih =>
      intro l hl
      cases l with
      | nil =>
          refine ⟨fun h => absurd h List.not_mem_nil, fun ⟨before, _, _, _, h, _⟩ => ?_⟩
          exact absurd h (by simp)
      | cons t rest =>
          obtain ⟨s, flag⟩ := t
          have hrest : (rest.map (markTwins s)).length ≤ fuel := by
            rw [List.length_map]
            exact Nat.le_of_succ_le_succ hl
          rw [openTwin_cons, ← ih hrest]
          show (a, b) ∈ _ ++ pairLoop fuel (rest.map (markTwins s)) ↔ _
          rw [List.mem_append, List.mem_map]
          -- the turn reports the twins of `s` that are not marked yet
          refine or_congr_left ?_
          constructor
          · intro ⟨t, ht, hpair⟩
            obtain ⟨hmem, hp⟩ := List.mem_filter.mp ht
            obtain ⟨rfl, rfl⟩ := Prod.mk.inj hpair
            rw [Bool.and_eq_true, Bool.not_eq_true', beq_iff_eq] at hp
            refine ⟨rfl, ?_, hp.2⟩
            rw [← hp.1]
            exact hmem
          · rintro ⟨rfl, hmem, hsame⟩
            refine ⟨(b, false), List.mem_filter.mpr ⟨hmem, ?_⟩, rfl⟩
            rw [Bool.and_eq_true, beq_iff_eq]
            exact ⟨rfl, hsame⟩

theorem mem_blockPairs {l : List Sample} {a b : Sample} :
    (a, b) ∈ blockPairs l ↔ FirstTwin l a b := by
  unfold blockPairs
  rw [mem_pairLoop (Nat.le_of_eq (List.length_map ..))]
  constructor
  · -- at the start nothing is marked
    intro ⟨before, between, behind, flag, hl, hsame, hbefore⟩
    obtain ⟨before', a', between', b', behind', rfl, rfl, ha, hb⟩ := exists_of_map_eq_two hl
    cases ha
    cases hb
    exact ⟨before', between', behind', rfl, hsame, fun c hc =>
      hbefore _ (List.mem_map_of_mem hc)⟩
  · intro ⟨before, between, behind, hl, hsame, hbefore⟩
    refine ⟨before.map fun s => (s, false), between.map fun s => (s, false),
      behind.map fun s => (s, false), false, ?_, hsame, fun c hc => ?_⟩
    · rw [hl, List.map_append, List.map_cons, List.map_append, List.map_cons]
    · obtain ⟨d, hd, rfl⟩ := List.mem_map.mp hc
      exact hbefore d hd

/-- Two samples of a source that are paired: in one block, with one
fingerprint, the first of them the first with it. -/
def SampleTwins (info : ControlFlowInfo) (source : SourceId) (root : Node) (bytes : Text)
    (a b : Sample) : Prop :=
  a.block = b.block
    ∧ FirstTwin ((samples info source root bytes).filter fun s => s.block == b.block) a b

/-- **The pairs of samples.** -/
theorem mem_samplePairs_iff {info : ControlFlowInfo} {source : SourceId} {root : Node}
    {bytes : Text} {a b : Sample} :
    (a, b) ∈ samplePairs info source root bytes ↔ SampleTwins info source root bytes a b := by
  have hmem : ∀ {l : List Sample}, FirstTwin l a b → a ∈ l ∧ b ∈ l := by
    intro l ⟨before, between, behind, hl, _⟩
    rw [hl]
    exact ⟨List.mem_append_right _ (List.mem_cons_self ..), List.mem_append_right _
      (List.mem_cons_of_mem _ (List.mem_append_right _ (List.mem_cons_self ..)))⟩
  unfold samplePairs SampleTwins
  rw [List.mem_flatMap]
  constructor
  · intro ⟨block, _, hpair⟩
    have htwin := mem_blockPairs.mp hpair
    -- both are of the block that the loop looks at
    have ha := (List.mem_filter.mp (hmem htwin).1).2
    have hb := (List.mem_filter.mp (hmem htwin).2).2
    rw [beq_iff_eq] at ha hb
    rw [ha, hb]
    exact ⟨rfl, htwin⟩
  · intro ⟨hblock, htwin⟩
    have hb := (List.mem_filter.mp (hmem htwin).2).1
    exact ⟨b.block, List.mem_dedup.mpr (List.mem_map_of_mem hb), mem_blockPairs.mpr htwin⟩

/-- Two calls of a source that are paired: in one scope, the first `sin` and
the first `cos` of one argument. -/
def SinCosTwins (root : Node) (bytes : Text) (s c : SinCosCall) : Prop :=
  ∃ compound key, compound.Sub root ∧ compound.kind = .compoundStatement
    ∧ firstCall (scopeCalls bytes compound) true key = some s
    ∧ firstCall (scopeCalls bytes compound) false key = some c

theorem mem_scopePairs_iff {bytes : Text} {compound : Node} {s c : SinCosCall} :
    (s, c) ∈ scopePairs bytes compound ↔ ∃ key,
      firstCall (scopeCalls bytes compound) true key = some s
        ∧ firstCall (scopeCalls bytes compound) false key = some c := by
  unfold scopePairs
  rw [List.mem_filterMap]
  constructor
  · intro ⟨key, _, hpair⟩
    refine ⟨key, ?_⟩
    split at hpair
    next s' c' hs hc =>
      cases hpair
      exact ⟨hs, hc⟩
    next => exact absurd hpair nofun
  · intro ⟨key, hs, hc⟩
    refine ⟨key, ?_, ?_⟩
    · -- the key is among those of the scope, since it has a `sin`
      have hfound := List.find?_some hs
      rw [Bool.and_eq_true, beq_iff_eq, beq_iff_eq] at hfound
      unfold entryKeys
      rw [List.mem_insertionSort, List.mem_dedup, ← hfound.2]
      exact List.mem_map_of_mem (List.mem_of_find?_eq_some hs)
    · rw [hs, hc]

mutual
/-- **The pairs of `sin` and `cos`.** -/
theorem mem_sinCosPairs_iff {bytes : Text} {s c : SinCosCall} : ∀ {n : Node},
    (s, c) ∈ sinCosPairs bytes n ↔ SinCosTwins n bytes s c
  | .mk i cs => by
      unfold sinCosPairs
      rw [List.mem_append, mem_sinCosPairsAll_iff]
      constructor
      · -- the scope is the node itself, or one below a child
        rintro (h | ⟨d, hd, compound, key, hsub, h⟩)
        · split at h
          next hkind =>
            have ⟨key, hpair⟩ := mem_scopePairs_iff.mp h
            exact ⟨.mk i cs, key, .refl, hkind, hpair⟩
          next => exact absurd h List.not_mem_nil
        · exact ⟨compound, key, .child hd hsub, h⟩
      · rintro ⟨compound, key, hsub, hkind, hpair⟩
        cases hsub with
        | refl =>
            left
            have hcompound : i.kind = .compoundStatement := hkind
            rw [if_pos hcompound]
            exact mem_scopePairs_iff.mpr ⟨key, hpair⟩
        | child hd hsub => exact .inr ⟨_, hd, compound, key, hsub, hkind, hpair⟩

theorem mem_sinCosPairsAll_iff {bytes : Text} {s c : SinCosCall} : ∀ {ns : List Node},
    (s, c) ∈ sinCosPairsAll bytes ns ↔ ∃ n ∈ ns, SinCosTwins n bytes s c
  | [] => ⟨fun h => absurd h List.not_mem_nil, fun ⟨_, h, _⟩ => absurd h List.not_mem_nil⟩
  | n :: ns => by
      unfold sinCosPairsAll
      rw [List.mem_append, mem_sinCosPairs_iff, mem_sinCosPairsAll_iff]
      constructor
      · rintro (h | ⟨d, hd, h⟩)
        · exact ⟨n, List.mem_cons_self .., h⟩
        · exact ⟨d, List.mem_cons_of_mem _ hd, h⟩
      · rintro ⟨d, hd, h⟩
        rcases List.mem_cons.mp hd with rfl | hd
        · exact .inl h
        · exact .inr ⟨d, hd, h⟩
end

/-! ## §4. What may change between two calls. -/

/-- The receiver of a method call. -/
def receiverNode (call : Node) : Option Node :=
  (call.childByField .function).bind fun fn => fn.childByField .argument

/-- The variables of a call: those of its receiver and of its arguments. -/
def callVariables (bytes : Text) (call : Node) : List Text :=
  (receiverNode call).toList.flatMap (identifiers bytes)
    ++ (argumentNodes call).flatMap (identifiers bytes)

/-- One of the names is stored to, or a part of it, or declared anew. -/
def modifies (bytes : Text) (names : List Text) : Step → Bool
  | .value _ => false
  | .store target | .declare target => (identifiers bytes target).head?.any names.contains

/-- The variables of two calls. -/
def pairVariables (bytes : Text) (a b : Node) : List Text :=
  callVariables bytes a ++ callVariables bytes b

/-- On every execution that evaluates `a` and then `b`, none of their
variables is stored to in between. -/
def Unchanged (bytes : Text) (body : Stmt) (a b : Node) : Prop :=
  ∀ before x mid y behind o, Exec (bodySteps body) (before ++ x :: (mid ++ y :: behind)) o →
    evaluates a x = true → evaluates b y = true →
      (∀ z ∈ mid, evaluates a z = false ∧ evaluates b z = false) →
        ∀ z ∈ mid, modifies bytes (pairVariables bytes a b) z = false

/-- Decides on the statements if some way leads from `a` through a store to
one of the variables on to `b`, past neither call again. -/
def mayChange (bytes : Text) (body : Stmt) (a b : Node) : Bool :=
  let neither := fun z => !evaluates a z && !evaluates b z
  passes [⟨fun _ => true, evaluates a⟩, ⟨neither, modifies bytes (pairVariables bytes a b)⟩,
    ⟨neither, evaluates b⟩] (bodySteps body)

/-- A store is no call. -/
theorem not_evaluates_of_modifies {bytes : Text} {names : List Text} {call : Node} {z : Step}
    (h : modifies bytes names z = true) : evaluates call z = false := by
  cases z with
  | value n => exact absurd h Bool.false_ne_true
  | store n => rfl
  | declare n => rfl

theorem unchanged_iff {bytes : Text} {body : Stmt} {a b : Node} :
    Unchanged bytes body a b ↔ mayChange bytes body a b = false := by
  have hneither : ∀ z, (!evaluates a z && !evaluates b z) = true
      ↔ evaluates a z = false ∧ evaluates b z = false := by
    intro z
    rw [Bool.and_eq_true, Bool.not_eq_true', Bool.not_eq_true']
  rw [← Bool.not_eq_true, mayChange, passes_iff]
  constructor
  · intro h ⟨tr, o, hexec, before, x, rest, htr, _, hx, mid, z, rest', hrest, hmid, hz, mid', y,
      behind, hrest', hmid', hy, _⟩
    -- the step that may change a variable stands between the two calls
    have hsplit : tr = before ++ x :: ((mid ++ z :: mid') ++ y :: behind) := by
      rw [htr, hrest, hrest', List.append_assoc, List.cons_append]
    rw [hsplit] at hexec
    have hkept := h before x _ y behind o hexec hx hy (fun w hw => ?_) z
      (List.mem_append_right _ (List.mem_cons_self ..))
    · have hstored : modifies bytes (pairVariables bytes a b) z = true := hz
      rw [hstored] at hkept
      exact absurd hkept.symm Bool.false_ne_true
    · -- and it is no evaluation of either of them
      rcases List.mem_append.mp hw with hw | hw
      · exact (hneither w).mp (hmid w hw)
      · rcases List.mem_cons.mp hw with rfl | hw
        · exact ⟨not_evaluates_of_modifies hz, not_evaluates_of_modifies hz⟩
        · exact (hneither w).mp (hmid' w hw)
  · intro h before x mid y behind o hexec hx hy hmid z hz
    rw [← Bool.not_eq_true]
    intro hmodifies
    obtain ⟨front, back, rfl⟩ := List.append_of_mem hz
    refine h ⟨_, o, hexec, before, x, _, rfl, fun _ _ => rfl, hx, front, z, back ++ y :: behind, ?_,
      fun w hw => (hneither w).mpr (hmid w (List.mem_append_left _ hw)), hmodifies, back, y, behind,
      rfl, fun w hw => (hneither w).mpr
        (hmid w (List.mem_append_right _ (List.mem_cons_of_mem _ hw))), hy, trivial⟩
    rw [List.append_assoc, List.cons_append]

/-! ## §5. The law. -/

/-- The call stands in the `i`-th function of the source. -/
def InFunction (root : Node) (i : Nat) (source : SourceId) (call : Node) : Prop :=
  ∃ fnNode, (collectFunctions root)[i]? = some fnNode ∧ Covers fnNode (call.span source)

/-- The method of a sample. -/
def sampleMethod (bytes : Text) (call : Node) : Option Text :=
  kMethods.find? fun m => m.isSuffixOf (calleeText bytes call)

/-- The same receiver, method and arguments. -/
structure SameSample (bytes : Text) (a b : Node) : Prop where
  receiver : receiverText bytes a = receiverText bytes b
  method : sampleMethod bytes a = sampleMethod bytes b
  arguments : argumentTexts bytes a = argumentTexts bytes b

/-- The calls of a pair in source order. -/
def inOrder (s c : SinCosCall) : Node × Node :=
  if c.call.info.lo < s.call.info.lo then (c.call, s.call) else (s.call, c.call)

/-- The law: the two calls of a report have the same arguments (samples the
same receiver and method too), and on every execution from the earlier to the
later none of their variables changes. -/
def SameValueLaw (source : SourceId) (root : Node) (bytes : Text) : Prop :=
  ∀ i body, IsBody root i body →
    (∀ a b, (a, b) ∈ samplePairs (buildEntry source root bytes).info source root bytes →
      InFunction root i source a.call →
        SameSample bytes a.call b.call ∧ Unchanged bytes body a.call b.call)
    ∧ ∀ s c, (s, c) ∈ sinCosPairs bytes root → InFunction root i source s.call →
        argumentTexts bytes s.call = argumentTexts bytes c.call
          ∧ Unchanged bytes body (inOrder s c).1 (inOrder s c).2

theorem sinCosCall_arguments {bytes : Text} {n : Node} {c : SinCosCall}
    (h : sinCosCall bytes n = some c) : argumentTexts bytes c.call = [c.key] := by
  -- `unary_argument` accepts one argument only
  have hunary : ∀ {fnName : Text} {a : Node}, unaryArgument bytes fnName n = some a →
      argumentTexts bytes n = [a.text bytes] := by
    intro fnName a ha
    unfold unaryArgument at ha
    split at ha
    next =>
      unfold argumentTexts
      split at ha
      next b hb =>
        cases ha
        rw [hb]
        rfl
      next => exact absurd ha nofun
    next => exact absurd ha nofun
  unfold sinCosCall at h
  split at h
  next a ha =>
    split at h
    next =>
      cases h
      exact hunary ha
    next => exact absurd h nofun
  next =>
    split at h
    next a ha =>
      split at h
      next =>
        cases h
        exact hunary ha
      next => exact absurd h nofun
    next => exact absurd h nofun

/-- **A `sin` and a `cos` that are paired have the same argument.** -/
theorem sinCosTwins_arguments {root : Node} {bytes : Text} {s c : SinCosCall}
    (h : SinCosTwins root bytes s c) :
    argumentTexts bytes s.call = argumentTexts bytes c.call := by
  obtain ⟨compound, key, -, -, hs, hc⟩ := h
  have hkey : ∀ {isSin : Bool} {d : SinCosCall},
      firstCall (scopeCalls bytes compound) isSin key = some d →
        argumentTexts bytes d.call = [key] := by
    intro isSin d hd
    have hfound := List.find?_some hd
    rw [Bool.and_eq_true, beq_iff_eq, beq_iff_eq] at hfound
    obtain ⟨n, _, hn⟩ := List.mem_filterMap.mp (List.mem_of_find?_eq_some hd)
    rw [sinCosCall_arguments hn, hfound.2]
  rw [hkey hs, hkey hc]

/-- `t=f(x);` at `lo`, for a function whose name has three letters. -/
def callStatement (lo : Nat) : PlainNode :=
  ⟨namedNode .expressionStatement none ⟨lo, lo + 9⟩
    [namedNode .assignmentExpression none ⟨lo, lo + 8⟩
      [namedNode .identifier (some .left) ⟨lo, lo + 1⟩ [],
       namedNode .callExpression (some .right) ⟨lo + 2, lo + 8⟩
        [namedNode .identifier (some .function) ⟨lo + 2, lo + 5⟩ [],
         namedNode .argumentList (some .arguments) ⟨lo + 5, lo + 8⟩
          [namedNode .identifier none ⟨lo + 6, lo + 7⟩ []]]]], rfl, rfl⟩

/-- `x=b;` at `lo`. -/
def storeStatement (lo : Nat) : PlainNode :=
  ⟨namedNode .expressionStatement none ⟨lo, lo + 4⟩
    [namedNode .assignmentExpression none ⟨lo, lo + 3⟩
      [namedNode .identifier (some .left) ⟨lo, lo + 1⟩ [],
       namedNode .identifier (some .right) ⟨lo + 2, lo + 3⟩ []]], rfl, rfl⟩

def storeBetween : Text := "void f(){a=sin(x);x=b;c=cos(x);}".toList

def storeBetweenBody : Stmt :=
  .compound ⟨8, 32⟩ (.cons (.simple (callStatement 9))
    (.cons (.simple (storeStatement 18)) (.cons (.simple (callStatement 22)) .nil)))

def storeBetweenTree : Node := singleFunction storeBetweenBody declaratorOfF 32

/-- The call of a `callStatement`. -/
def callAt (lo : Nat) : Node :=
  namedNode .callExpression (some .right) ⟨lo + 2, lo + 8⟩
    [namedNode .identifier (some .function) ⟨lo + 2, lo + 5⟩ [],
     namedNode .argumentList (some .arguments) ⟨lo + 5, lo + 8⟩
      [namedNode .identifier none ⟨lo + 6, lo + 7⟩ []]]

end ShaderClippy.Rules.SameValue
