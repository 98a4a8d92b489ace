/-
  ShaderClippy.Rules.PuritySoundness

  **WHAT THE PURITY ORACLE DOES NOT SEE** (`classify_recursive` of
  `purity_oracle.cpp`, on the parser's own trees).

  The oracle walks from an expression into its operands and arguments and
  stops at what it takes for a leaf. It calls the expression free of side
  effects exactly if it accepts every node that the walk enters
  (`classifyRecursive_eq_free_iff`), and it accepts no node that has an
  effect. Field and subscript expressions are leaves to it, so it never
  looks at their receivers and indices: there an assignment, an update or a
  call goes unseen.
-/
import ShaderClippy.Rules.PurityOracle
import ShaderClippy.Syntax.Node

namespace ShaderClippy.Rules.PurityOracle

/-! ## §1. The program. -/

/-- `is_pure_leaf`. -/
def isPureLeaf (kind : NodeKind) : Bool :=
  decide (kind = .identifier ∨ kind = .fieldExpression ∨ kind = .subscriptExpression
    ∨ kind = .numberLiteral ∨ kind = .stringLiteral)

/-- The kinds whose named children are all operands. -/
def isOperator (kind : NodeKind) : Bool :=
  decide (kind = .binaryExpression ∨ kind = .unaryExpression ∨ kind = .parenthesizedExpression
    ∨ kind = .conditionalExpression)

/-- The text of the called function, empty when there is none. -/
def functionText (bytes : Text) (n : Node) : Text :=
  match n.childByField .function with
  | some fn => fn.text bytes
  | none => []

/-- `classify_named_children`, given what the named children are classified
as. -/
def classifyNamedChildren (named : List Purity) : Purity :=
  if named = [] then .unknown else .combineAll named

/-- `classify_call`, given what the arguments are classified as, if there is
an argument list. -/
def classifyCall (fnText : Text) (args : Option (List Purity)) : Purity :=
  if fnText = [] ∨ isAllowlistedIntrinsic fnText = false then .sideEffectful
  else
    match args with
    | none => .unknown
    | some named => .combineAll named

mutual
/-- `classify_recursive`. -/
def classifyRecursive (bytes : Text) : Node → Purity
  | .mk i cs =>
      if isPureLeaf i.kind then .sideEffectFree
      else if isOperator i.kind then classifyNamedChildren (classifyNamed bytes cs)
      else if i.kind = .callExpression then
        classifyCall (functionText bytes (.mk i cs)) (classifyArguments bytes cs)
      else if i.kind = .assignmentExpression ∨ i.kind = .updateExpression then .sideEffectful
      else .unknown

/-- The named children, classified. -/
def classifyNamed (bytes : Text) : List Node → List Purity
  | [] => []
  | n :: ns =>
      if n.info.named then classifyRecursive bytes n :: classifyNamed bytes ns
      else classifyNamed bytes ns

/-- The named children of the `arguments` child, classified. -/
def classifyArguments (bytes : Text) : List Node → Option (List Purity)
  | [] => none
  | .mk i cs :: ns =>
      if i.field = some .arguments then some (classifyNamed bytes cs)
      else classifyArguments bytes ns
end

/-! ## §2. The walk. -/

/-- The nodes that the walk enters from `n`. -/
def walkedChildren (n : Node) : List Node :=
  if isPureLeaf n.kind then []
  else if isOperator n.kind then n.namedChildren
  else if n.kind = .callExpression then
    match n.childByField .arguments with
    | some args => args.namedChildren
    | none => []
  else []

/-- The walk from `n` comes to `m`. -/
inductive Entered : Node → Node → Prop where
  | self (n : Node) : Entered n n
  | child {n c m : Node} : c ∈ walkedChildren n → Entered c m → Entered n m

/-- `m` is a node of the tree `n`. -/
inductive Within : Node → Node → Prop where
  | self (n : Node) : Within n n
  | child {n c m : Node} : c ∈ n.children → Within c m → Within n m

/-- The oracle does not refuse the node itself: a leaf, an operator with
operands, or a call with arguments to a function on the list. -/
def Accepts (bytes : Text) (n : Node) : Prop :=
  isPureLeaf n.kind = true
    ∨ (isOperator n.kind = true ∧ n.namedChildren ≠ [])
    ∨ (n.kind = .callExpression ∧ isAllowlistedIntrinsic (functionText bytes n) = true
        ∧ (n.childByField .arguments).isSome)

/-- The node is an assignment, an update, or a call to a function that is not
on the list. -/
def HasEffect (bytes : Text) (n : Node) : Prop :=
  n.kind = .assignmentExpression ∨ n.kind = .updateExpression
    ∨ (n.kind = .callExpression ∧ isAllowlistedIntrinsic (functionText bytes n) = false)

/-- The walk goes down. -/
theorem sizeOf_lt_of_mem_walkedChildren {n c : Node} (hc : c ∈ walkedChildren n) :
    sizeOf c < sizeOf n := by
  have hchild : ∀ {p q : Node}, q ∈ p.children → sizeOf q < sizeOf p := by
    intro p q hq
    cases p with
    | mk i cs =>
        have hlt : sizeOf q < sizeOf cs := List.sizeOf_lt_of_mem hq
        rw [Node.mk.sizeOf_spec]
        omega
  unfold walkedChildren at hc
  split at hc
  · exact absurd hc List.not_mem_nil
  · split at hc
    · exact hchild (List.mem_of_mem_filter hc)
    · split at hc
      · cases hargs : n.childByField .arguments with
        | none =>
            rw [hargs] at hc
            exact absurd hc List.not_mem_nil
        | some args =>
            rw [hargs] at hc
            have hmem : args ∈ n.children := List.mem_of_find?_eq_some hargs
            exact Nat.lt_trans (hchild (List.mem_of_mem_filter hc)) (hchild hmem)
      · exact absurd hc List.not_mem_nil

/-! ## §3. Exactly what the oracle accepts. -/

theorem classifyNamed_eq (bytes : Text) (cs : List Node) :
    classifyNamed bytes cs
      = (cs.filter fun c => c.info.named).map (classifyRecursive bytes) := by
  induction cs with
  | nil => rw [classifyNamed]; rfl
  | cons c cs ih =>
      rw [classifyNamed, ih, List.filter_cons]
      split <;> rfl

theorem classifyArguments_eq (bytes : Text) (i : NodeInfo) (cs : List Node) :
    classifyArguments bytes cs
      = ((Node.mk i cs).childByField .arguments).map
          fun args => args.namedChildren.map (classifyRecursive bytes) := by
  unfold Node.childByField
  rw [Node.children_mk]
  induction cs with
  | nil => rw [classifyArguments]; rfl
  | cons c cs ih =>
      cases c with
      | mk j ds =>
          rw [classifyArguments, classifyNamed_eq, List.find?_cons, Node.info_mk]
          by_cases hfield : j.field = some .arguments
          · rw [if_pos hfield, decide_eq_true hfield]
            rfl
          · rw [if_neg hfield, decide_eq_false hfield]
            exact ih

theorem not_operator_of_call : isPureLeaf .callExpression = false
    ∧ isOperator .callExpression = false := by decide

/-- **Step lemma**: the oracle accepts an expression exactly if it accepts the
node and everything it enters from there. -/
theorem classifyRecursive_step (bytes : Text) (n : Node) :
    classifyRecursive bytes n = .sideEffectFree
      ↔ Accepts bytes n ∧ ∀ c ∈ walkedChildren n, classifyRecursive bytes c = .sideEffectFree := by
  cases n with
  | mk i cs =>
      rw [classifyRecursive, classifyNamed_eq, classifyArguments_eq bytes i cs]
      unfold Accepts walkedChildren
      rw [Node.kind_mk]
      by_cases hleaf : isPureLeaf i.kind = true
      · simp [hleaf]
      · rw [if_neg hleaf, if_neg hleaf]
        by_cases hop : isOperator i.kind = true
        · -- an operator: at least one operand, and every one of them pure
          have hcall : i.kind ≠ .callExpression := by
            intro h
            rw [h, not_operator_of_call.2] at hop
            cases hop
          rw [if_pos hop, if_pos hop, classifyNamedChildren]
          show _ ↔ _ ∧ ∀ c ∈ cs.filter fun c => c.info.named, _
          by_cases hnil : (cs.filter fun c => c.info.named) = []
          · have hnamed : (Node.mk i cs).namedChildren = [] := hnil
            simp [hnil, hleaf, hcall, hnamed]
          · have hnamed : (Node.mk i cs).namedChildren ≠ [] := hnil
            rw [if_neg (by simpa using hnil), Purity.combineAll_eq_free_iff]
            simp only [List.forall_mem_map, hop, hnamed, ne_eq, not_false_eq_true, and_self,
              true_or, or_true, true_and]
        · rw [if_neg hop, if_neg hop]
          by_cases hcall : i.kind = .callExpression
          · -- a call: on the list, with an argument list of pure arguments
            rw [if_pos hcall, if_pos hcall]
            unfold classifyCall
            obtain ⟨hnoleaf, hnoop⟩ := not_operator_of_call
            simp only [hcall, hnoleaf, hnoop, Bool.false_eq_true, false_and, false_or, true_and]
            by_cases hlist : isAllowlistedIntrinsic (functionText bytes (.mk i cs)) = true
            · have hne : functionText bytes (.mk i cs) ≠ [] := by
                intro h
                rw [h] at hlist
                exact absurd hlist (by decide)
              cases hargs : (Node.mk i cs).childByField .arguments with
              | none => simp [hne, hlist]
              | some args => simp [hne, hlist, Purity.combineAll_eq_free_iff]
            · simp [hlist]
          · rw [if_neg hcall, if_neg hcall]
            have hrefused : (if i.kind = .assignmentExpression ∨ i.kind = .updateExpression then
                Purity.sideEffectful else .unknown) ≠ .sideEffectFree := by
              split <;> decide
            simp [hrefused, hleaf, hop, hcall]

/-- **The oracle calls an expression free of side effects IF AND ONLY IF it
accepts every node that its walk enters.** -/
theorem classifyRecursive_eq_free_iff (bytes : Text) (n : Node) :
    classifyRecursive bytes n = .sideEffectFree ↔ ∀ m, Entered n m → Accepts bytes m := by
  have hwalk : ∀ c ∈ walkedChildren n,
      (classifyRecursive bytes c = .sideEffectFree ↔ ∀ m, Entered c m → Accepts bytes m) :=
    fun c hc =>
      have := sizeOf_lt_of_mem_walkedChildren hc
      classifyRecursive_eq_free_iff bytes c
  rw [classifyRecursive_step]
  constructor
  · intro ⟨hn, hchildren⟩ m hm
    cases hm with
    | self => exact hn
    | child hc hm => exact (hwalk _ hc).mp (hchildren _ hc) m hm
  · intro h
    exact ⟨h n (.self n), fun c hc => (hwalk c hc).mpr fun m hm => h m (.child hc hm)⟩
termination_by sizeOf n

/-! ## §4. Soundness, exactly. -/

/-- No node that the oracle accepts has an effect of its own. -/
theorem Accepts.not_hasEffect {bytes : Text} {n : Node} (h : Accepts bytes n) :
    ¬ HasEffect bytes n := by
  have hkinds : ∀ k : NodeKind, isPureLeaf k = true ∨ isOperator k = true →
      k ≠ .assignmentExpression ∧ k ≠ .updateExpression ∧ k ≠ .callExpression := by
    intro k hk
    unfold isPureLeaf isOperator at hk
    simp only [decide_eq_true_eq] at hk
    rcases hk with (rfl | rfl | rfl | rfl | rfl) | (rfl | rfl | rfl | rfl) <;> decide
  rcases h with hleaf | ⟨hop, -⟩ | ⟨hcall, hlist, -⟩
  · obtain ⟨h1, h2, h3⟩ := hkinds _ (.inl hleaf)
    rintro (h | h | ⟨h, -⟩)
    · exact h1 h
    · exact h2 h
    · exact h3 h
  · obtain ⟨h1, h2, h3⟩ := hkinds _ (.inr hop)
    rintro (h | h | ⟨h, -⟩)
    · exact h1 h
    · exact h2 h
    · exact h3 h
  · rintro (h | h | ⟨-, h⟩)
    · rw [hcall] at h
      cases h
    · rw [hcall] at h
      cases h
    · rw [hlist] at h
      cases h

/-- **A verdict of "free of side effects" is right IF AND ONLY IF nothing that
the walk leaves out has an effect**, unless the walk meets a node that the
oracle refuses, and there is no such verdict. -/
theorem classifyRecursive_sound_iff (bytes : Text) (n : Node) :
    (classifyRecursive bytes n = .sideEffectFree → ∀ m, Within n m → ¬ HasEffect bytes m)
      ↔ (∃ m, Entered n m ∧ ¬ Accepts bytes m)
        ∨ ∀ m, Within n m → ¬ Entered n m → ¬ HasEffect bytes m := by
  constructor
  · intro hsound
    by_cases hfree : classifyRecursive bytes n = .sideEffectFree
    · exact .inr fun m hm _ => hsound hfree m hm
    · rw [classifyRecursive_eq_free_iff] at hfree
      push Not at hfree
      exact .inl hfree
  · intro h hfree m hm
    rw [classifyRecursive_eq_free_iff] at hfree
    rcases h with ⟨r, hr, hrefused⟩ | hunseen
    · exact absurd (hfree r hr) hrefused
    · by_cases hentered : Entered n m
      · exact (hfree m hentered).not_hasEffect
      · exact hunseen m hm hentered

/-! ## §5. The failing input. -/

/-- A node over the bytes `[lo, hi)`. -/
def nodeAt (kind : NodeKind) (named : Bool) (field : Option Field) (lo hi : Nat)
    (children : List Node) : Node := .mk ⟨kind, named, false, field, lo, hi⟩ children

/-- The index of `a[i++]`. -/
def indexUpdate : Node :=
  nodeAt .updateExpression true (some .index) 2 5
    [nodeAt .identifier true (some .argument) 2 3 [],
     nodeAt (.other "++".toList) false (some .operator) 3 5 []]

/-- The parser's tree of `a[i++]`. -/
def subscriptUpdate : Node :=
  nodeAt .subscriptExpression true none 0 6
    [nodeAt .identifier true (some .argument) 0 1 [],
     nodeAt (.other ['[']) false none 1 2 [],
     indexUpdate,
     nodeAt (.other [']']) false none 5 6 []]

/-- **`a[i++]` is called free of side effects.** -/
theorem subscriptUpdate_unsound :
    classifyRecursive "a[i++]".toList subscriptUpdate = .sideEffectFree
      ∧ ¬ (classifyRecursive "a[i++]".toList subscriptUpdate = .sideEffectFree →
            ∀ m, Within subscriptUpdate m → ¬ HasEffect "a[i++]".toList m) := by
  have hfree : classifyRecursive "a[i++]".toList subscriptUpdate = .sideEffectFree := by decide
  refine ⟨hfree, fun hsound => ?_⟩
  have hindex : indexUpdate ∈ subscriptUpdate.children :=
    List.mem_cons_of_mem _ (List.mem_cons_of_mem _ (List.mem_cons_self ..))
  exact hsound hfree indexUpdate (.child hindex (.self _)) (.inr (.inl rfl))

end ShaderClippy.Rules.PurityOracle
