/-
  ShaderClippy.ControlFlow.DivergentCf

  **INSIDE DIVERGENT CONTROL FLOW** (`rules/util/cfg_query.cpp`,
  `inside_divergent_cf`).

  The query looks for an `if` or a `switch` around a span whose condition the analyzer
  did not find uniform. It asks neither about loops nor about jumps, so it can only be
  right where these take no lanes apart (`rejoins`). There it is: what it is false of is
  evaluated by all lanes that enter the function or by none of them
  (`converged_from`), for bodies on which the analyzer itself is right (`steady`).
-/
import ShaderClippy.ControlFlow.UniformitySound
import ShaderClippy.Lib.Convergence

namespace ShaderClippy.ControlFlow

open Lockstep

/-! ## §1. The query. -/

/-- **`inside_divergent_cf`.** -/
def insideDivergentCf (cfg : ControlFlowInfo) (innerSpan : Span) : Bool :=
  cfg.uniformity.branchUniformity.any fun entry =>
    let u := lookupUniformity cfg.uniformity.branchUniformity entry.1
    contains ⟨innerSpan.source, entry.1⟩ innerSpan && (decide (u = .divergent) || decide (u = .unknown))

/-- A node has an entry if it is a branch statement. -/
theorem exists_scanBranch {div : List Text} {bytes : Text} {n : Node} {lohi : ByteSpan} :
    (∃ u, (lohi, u) ∈ (scanBranch div bytes n).2) ↔ isBranch n = true ∧ lohi = ⟨n.info.lo, n.info.hi⟩ := by
  unfold scanBranch isBranch
  rw [decide_eq_true_iff]
  split
  case isFalse hno =>
    exact ⟨fun ⟨_, h⟩ => absurd h List.not_mem_nil, fun h => absurd h.1 hno⟩
  case isTrue hyes =>
    rw [and_iff_right hyes]
    -- without a condition the branch is entered as unknown
    split
    · exact ⟨fun ⟨_, h⟩ => (Prod.mk.inj (List.mem_singleton.mp h)).1,
        fun h => ⟨.unknown, List.mem_singleton.mpr (by rw [h])⟩⟩
    next cond _ =>
      exact ⟨fun ⟨_, h⟩ => (Prod.mk.inj (List.mem_singleton.mp h)).1,
        fun h => ⟨_, List.mem_singleton.mpr (by rw [h])⟩⟩

/-- The entries of a tree are those of its branch statements. -/
theorem exists_branchUniformity {root : Node} {bytes : Text} {lohi : ByteSpan} :
    (∃ u, (lohi, u) ∈ (analyseUniformity root bytes).branchUniformity)
      ↔ ∃ branch : Node, branch.Sub root ∧ isBranch branch = true ∧ lohi = ⟨branch.info.lo, branch.info.hi⟩ := by
  have hmem : ∀ u, (lohi, u) ∈ (analyseUniformity root bytes).branchUniformity
      ↔ ∃ n : Node, n.Sub root ∧ (lohi, u) ∈ (scanBranch (seedDivergentParameters bytes root) bytes n).2 := by
    intro u
    have hall : (analyseUniformity root bytes).branchUniformity
        = (root.popOrder.map (scanBranch (seedDivergentParameters bytes root) bytes)).flatMap (·.2) := rfl
    rw [hall, List.flatMap_map, List.mem_flatMap]
    simp only [mem_popOrder]
  constructor
  · rintro ⟨u, hu⟩
    obtain ⟨n, hn, hin⟩ := (hmem u).mp hu
    exact ⟨n, hn, exists_scanBranch.mp ⟨u, hin⟩⟩
  · rintro ⟨n, hn, hb⟩
    obtain ⟨u, hin⟩ := exists_scanBranch.mpr hb
    exact ⟨u, (hmem u).mpr ⟨n, hn, hin⟩⟩

/-- **What the query finds**: a branch statement around the span whose condition is
divergent or of unknown class. -/
theorem insideDivergentCf_iff {source : SourceId} {root : Node} {bytes : Text} {span : Span} :
    insideDivergentCf (buildEntry source root bytes).info span = true ↔
      ∃ branch : Node, branch.Sub root ∧ isBranch branch = true ∧ contains (branch.span span.source) span = true
        ∧ ((analyseUniformity root bytes).ofBranch (branch.span source) = .divergent
          ∨ (analyseUniformity root bytes).ofBranch (branch.span source) = .unknown) := by
  have hinfo : (buildEntry source root bytes).info.uniformity = analyseUniformity root bytes := rfl
  unfold insideDivergentCf
  rw [hinfo, List.any_eq_true]
  constructor
  · rintro ⟨⟨lohi, u⟩, hmem, hcond⟩
    obtain ⟨branch, hsub, hb, rfl⟩ := exists_branchUniformity.mp ⟨u, hmem⟩
    rw [Bool.and_eq_true, Bool.or_eq_true, decide_eq_true_iff, decide_eq_true_iff] at hcond
    exact ⟨branch, hsub, hb, hcond⟩
  · rintro ⟨branch, hsub, hb, hcond⟩
    obtain ⟨u, hmem⟩ := exists_branchUniformity.mpr ⟨branch, hsub, hb, rfl⟩
    refine ⟨_, hmem, ?_⟩
    rw [Bool.and_eq_true, Bool.or_eq_true, decide_eq_true_iff, decide_eq_true_iff]
    exact hcond

/-! ## §2. Where nothing else takes lanes apart. -/

mutual
/-- Every lane comes to the end of the statement, or to a `break` where one may stand. -/
def calm (brk : Bool) : Stmt → Bool
  | .simple _ => true
  | .breakStmt _ => brk
  | .compound _ body => calmAll brk body
  | .ifThen _ _ thenStmt => calm brk thenStmt
  | .ifElse _ _ thenStmt _ elseStmt => calm brk thenStmt && calm brk elseStmt
  | .switch _ _ _ body => calmAll true body
  | .caseStmt _ _ body => calmAll brk body
  | .returnStmt _ _ | .continueStmt _ | .forLoop _ _ _ _ _ | .whileLoop _ _ _ | .doLoop _ _ _ => false

def calmAll (brk : Bool) : Stmts → Bool
  | .nil => true
  | .cons s ss => calm brk s && calmAll brk ss
end

section Rejoining

variable (div : List Text) (bytes : Text)

mutual
/-- Lanes are only taken apart by `if` and `switch`, and all of them are back behind it. -/
def rejoins : Stmt → Bool
  | .simple _ | .returnStmt _ _ | .breakStmt _ | .continueStmt _ => true
  | .compound _ body => rejoinsAll body
  | .ifThen _ cond thenStmt =>
      if divergentNode div bytes cond.node then calm false thenStmt else rejoins thenStmt
  | .ifElse _ cond thenStmt _ elseStmt =>
      if divergentNode div bytes cond.node then calm false thenStmt && calm false elseStmt
      else rejoins thenStmt && rejoins elseStmt
  | .forLoop _ _ cond _ body => (cond.all fun n => !divergentNode div bytes n.node) && rejoins body
  | .whileLoop _ cond body => !divergentNode div bytes cond.node && rejoins body
  | .doLoop _ body cond => !divergentNode div bytes cond.node && rejoins body
  | .switch _ cond _ body =>
      if divergentNode div bytes cond.node then calmAll true body else rejoinsAll body
  | .caseStmt _ _ body => rejoinsAll body

def rejoinsAll : Stmts → Bool
  | .nil => true
  | .cons s ss => rejoins s && rejoinsAll ss
end

end Rejoining

/-! ## §3. What is evaluated. -/

/-- The node is one of the tree, whatever field it fills. -/
def Below (tree m : Node) : Prop := ∃ f, (m.withField f).Sub tree

theorem Node.withField_self (n : Node) : n.withField n.info.field = n := by
  cases n
  rfl

theorem below_of_sub {tree m n : Node} (hm : m.Sub n) (hn : Below tree n) : Below tree m := by
  obtain ⟨f, hf⟩ := hn
  cases n with
  | mk i cs =>
      cases hm with
      | refl => exact ⟨f, hf⟩
      | child hc hsub =>
          refine ⟨m.info.field, ?_⟩
          rw [Node.withField_self]
          have hin : m.Sub ((Node.mk i cs).withField f) := .child hc hsub
          exact hin.trans hf

/-- A part of a child is not the whole. -/
theorem sub_child_ne {i : NodeInfo} {cs : List Node} {c m : Node} (hc : c ∈ cs) (hm : m.Sub c) : m ≠ .mk i cs := by
  -- a part is no larger, and a child is smaller
  have hle : ∀ {a b : Node}, a.Sub b → sizeOf a ≤ sizeOf b := by
    intro a b h
    induction h with
    | refl => exact Nat.le_refl _
    | child hmem _ ih =>
        have := List.sizeOf_lt_of_mem hmem
        simp only [Node.mk.sizeOf_spec]
        omega
  intro h
  have hsize := hle hm
  have := List.sizeOf_lt_of_mem hc
  rw [h] at hsize
  simp only [Node.mk.sizeOf_spec] at hsize
  omega

section Evaluation

variable {ι V : Type} {M : Machine ι V} {bytes : Text}

/-- No operator of the expression that may skip operands has the node below it. -/
def Unskipped (M : Machine ι V) (n m : Node) : Prop := ∀ op : Node, op.Sub n → M.short op = true → m.Sub op → m = op

theorem Unskipped.child {i : NodeInfo} {cs : List Node} {c m : Node} (h : Unskipped M (.mk i cs) m) (hc : c ∈ cs) :
    Unskipped M c m := fun op hop => h op (.child hc hop)

/-- A list of operands: each evaluation is about a node of one of them, by active lanes,
and by all of them where none may be skipped. -/
def OperandEvents (M : Machine ι V) (short : Bool) (cs : List Node) (mask : Mask ι)
    (events : List (Event ι Node V)) : Prop :=
  ∀ e ∈ events, e.Within mask ∧ ∃ c ∈ cs, e.label.Sub c
    ∧ (short = false → Unskipped M c e.label → ∀ l, mask l = true → e.active l = true)

mutual
/-- **What an expression evaluates**: its own nodes, in active lanes, and in all of them
what no operator skips. -/
theorem eval_events : ∀ (n : Node) (mask : Mask ι) (w : Wave ι Text V), ∀ e ∈ (eval M bytes n mask w).events,
    e.label.Sub n ∧ e.Within mask ∧ (Unskipped M n e.label → ∀ l, mask l = true → e.active l = true)
  | .mk i cs, mask, w => by
      have hself : ∀ {value : ι → V} (e : Event ι Node V), e = ⟨.mk i cs, mask, value⟩ →
          e.label.Sub (.mk i cs) ∧ e.Within mask
            ∧ (Unskipped M (.mk i cs) e.label → ∀ l, mask l = true → e.active l = true) := by
        intro value e he
        rw [he]
        exact ⟨.refl, fun _ h => h, fun _ _ h => h⟩
      rcases kind_cases i.kind with hk | hk | hk | hk
      · rw [eval_literal hk]
        exact fun e he => hself e (List.mem_singleton.mp he)
      · have heval : eval M bytes (.mk i cs) mask w
            = ⟨[⟨.mk i cs, mask, fun l => w l (textAt bytes i.lo i.hi)⟩], w,
                fun l => w l (textAt bytes i.lo i.hi)⟩ := by
          unfold eval
          rw [hk]
        rw [heval]
        exact fun e he => hself e (List.mem_singleton.mp he)
      · rw [eval_call hk]
        intro e he
        obtain he | he := List.mem_append.mp he
        · have hpart : e.Within mask ∧ ∃ c ∈ cs, ∃ d ∈ c.children, e.label.Sub d
              ∧ (Unskipped M d e.label → ∀ l, mask l = true → e.active l = true) := by
            obtain he | he := List.mem_append.mp he
            · exact callee_events cs (.mk i cs) mask w e he
            · exact arguments_events cs (.mk i cs) _ mask _ e he
          obtain ⟨hwithin, c, hc, d, hd, hsub, hall⟩ := hpart
          cases c with
          | mk j ds => exact ⟨.child hc (.child hd hsub), hwithin, fun h => hall ((h.child hc).child hd)⟩
        · exact hself e (List.mem_singleton.mp he)
      · rw [eval_operator hk]
        intro e he
        obtain he | he := List.mem_append.mp he
        · obtain ⟨hwithin, c, hc, hsub, hall⟩ := operands_events cs (M.short (.mk i cs)) (.mk i cs) _ mask w e he
          refine ⟨.child hc hsub, hwithin, fun h => hall ?_ (h.child hc)⟩
          -- an operator that may skip operands is not below itself
          rw [← Bool.not_eq_true]
          exact fun hshort => sub_child_ne hc hsub (h _ .refl hshort (.child hc hsub))
        · exact hself e (List.mem_singleton.mp he)

theorem operands_events : ∀ (cs : List Node) (short : Bool) (n : Node) (vs : ι → Operands V) (mask : Mask ι)
    (w : Wave ι Text V), OperandEvents M short cs mask (evalOperands M bytes short n vs cs mask w).events
  | [], _, _, _, _, _ => fun _ he => absurd he List.not_mem_nil
  | c :: cs, short, n, vs, mask, w => by
      have hskip : ∀ {events}, OperandEvents M short cs mask events → OperandEvents M short (c :: cs) mask events := by
        intro events h e he
        obtain ⟨hwithin, d, hd, hrest⟩ := h e he
        exact ⟨hwithin, d, List.mem_cons_of_mem _ hd, hrest⟩
      unfold evalOperands
      split
      · intro e he
        obtain he | he := List.mem_append.mp he
        · obtain ⟨hsub, hwithin, hall⟩ := eval_events c (fun l => mask l && (!short || M.proceeds n (vs l))) w e he
          refine ⟨hwithin.mono fun l hl => ((Bool.and_eq_true _ _).mp hl).1, c, List.mem_cons_self, hsub, ?_⟩
          intro hshort hun l hl
          exact hall hun l (by rw [hl, hshort]; rfl)
        · exact hskip (operands_events cs short n _ mask _) e he
      · exact hskip (operands_events cs short n vs mask w)

theorem callee_events : ∀ (ns : List Node) (n : Node) (mask : Mask ι) (w : Wave ι Text V),
    ∀ e ∈ (evalCallee M bytes n ns mask w).events, e.Within mask ∧ ∃ c ∈ ns, ∃ d ∈ c.children, e.label.Sub d
      ∧ (Unskipped M d e.label → ∀ l, mask l = true → e.active l = true)
  | [], _, _, _ => fun _ he => absurd he List.not_mem_nil
  | .mk i cs :: ns, n, mask, w => by
      unfold evalCallee
      split
      · intro e he
        obtain ⟨hwithin, d, hd, hsub, hall⟩ := operands_events cs false n _ mask w e he
        exact ⟨hwithin, _, List.mem_cons_self, d, hd, hsub, hall rfl⟩
      · intro e he
        obtain ⟨hwithin, c, hc, hrest⟩ := callee_events ns n mask w e he
        exact ⟨hwithin, c, List.mem_cons_of_mem _ hc, hrest⟩

theorem arguments_events : ∀ (ns : List Node) (n : Node) (vs : ι → Operands V) (mask : Mask ι) (w : Wave ι Text V),
    ∀ e ∈ (evalArguments M bytes n vs ns mask w).events, e.Within mask ∧ ∃ c ∈ ns, ∃ d ∈ c.children, e.label.Sub d
      ∧ (Unskipped M d e.label → ∀ l, mask l = true → e.active l = true)
  | [], _, _, _, _ => fun _ he => absurd he List.not_mem_nil
  | .mk i cs :: ns, n, vs, mask, w => by
      unfold evalArguments
      split
      · intro e he
        obtain ⟨hwithin, d, hd, hsub, hall⟩ := operands_events cs false n vs mask w e he
        exact ⟨hwithin, _, List.mem_cons_self, d, hd, hsub, hall rfl⟩
      · intro e he
        obtain ⟨hwithin, c, hc, hrest⟩ := arguments_events ns n vs mask w e he
        exact ⟨hwithin, c, List.mem_cons_of_mem _ hc, hrest⟩
end

end Evaluation

/-! ## §4. Branches that lanes take apart. -/

section Apart

variable {ι V : Type} {M : Machine ι V} {bytes : Text} {fuel : Nat} {tree : Node}

/-- The ways out of a calm statement. -/
def CalmOut (brk : Bool) (o : Outcome LaneJump) : Prop := o = .fall ∨ (brk = true ∧ o = .jump .brk)

theorem about_plain {n : PlainNode} {f : Option Field} (h : (n.toNode f).Sub tree) :
    About (Below tree) (eval M bytes n.node) := by
  intro mask w e he
  obtain ⟨hsub, hwithin, _⟩ := eval_events n.node mask w e he
  exact ⟨below_of_sub hsub ⟨f, h⟩, hwithin⟩

mutual
/-- **Every lane comes out of a calm statement**, and only its own nodes are evaluated. -/
theorem stays_exec (s : Stmt) {brk : Bool} {f : Option Field} (h : calm brk s = true) (hsub : (s.toNode f).Sub tree) :
    Stays (Below tree) (CalmOut brk) (exec M bytes fuel s) := by
  have hfall : CalmOut brk (.fall : Outcome LaneJump) := .inl rfl
  cases s with
  | simple n => exact Stays.withValue (about_plain hsub) fun _ => Stays.skip hfall
  | breakStmt span => exact Stays.leave (.inr ⟨h, rfl⟩)
  | compound span body =>
      unfold exec
      exact stays_from body h (fun n hn => Node.Sub.trans (.child hn .refl) hsub) (Stays.skip hfall)
  | ifThen span cond thenStmt =>
      unfold exec
      have hchild : ∀ n ∈ [cond.toNode (some .condition), thenStmt.toNode (some .consequence)], n.Sub tree :=
        fun n hn => Node.Sub.trans (.child hn .refl) hsub
      exact Stays.withValue (about_plain (hchild _ List.mem_cons_self)) fun _ => Stays.split
        (Stays.scope (stays_exec thenStmt h (hchild _ (List.mem_cons_of_mem _ List.mem_cons_self))))
        (Stays.skip hfall)
  | ifElse span cond thenStmt elseSpan elseStmt =>
      unfold exec
      obtain ⟨hthen, helse⟩ := (Bool.and_eq_true _ _).mp h
      have hchild : ∀ n ∈ [cond.toNode (some .condition), thenStmt.toNode (some .consequence),
          namedNode .elseClause (some .alternative) elseSpan [elseStmt.toNode none]], n.Sub tree :=
        fun n hn => Node.Sub.trans (.child hn .refl) hsub
      have hclause := hchild _ (List.mem_cons_of_mem _ (List.mem_cons_of_mem _ List.mem_cons_self))
      exact Stays.withValue (about_plain (hchild _ List.mem_cons_self)) fun _ => Stays.split
        (Stays.scope (stays_exec thenStmt hthen (hchild _ (List.mem_cons_of_mem _ List.mem_cons_self))))
        (Stays.scope (stays_exec elseStmt helse (Node.Sub.trans (.child List.mem_cons_self .refl) hclause)))
  | switch span cond bodySpan body =>
      unfold exec
      have hchild : ∀ n ∈ [cond.toNode (some .condition),
          namedNode .compoundStatement (some .body) bodySpan body.toNodes], n.Sub tree :=
        fun n hn => Node.Sub.trans (.child hn .refl) hsub
      have hbody := hchild _ (List.mem_cons_of_mem _ List.mem_cons_self)
      -- a `break` ends the switch, so both ways out of the body are the end of the statement
      refine Stays.withValue (about_plain (hchild _ List.mem_cons_self)) fun _ => Stays.catching
        (stays_cases _ body 0 h fun n hn => Node.Sub.trans (.child hn .refl) hbody) ?_
      rintro o (rfl | ⟨_, rfl⟩)
      · exact .inl rfl
      · exact .inl rfl
  | caseStmt span label body =>
      unfold exec
      exact stays_from body h (fun n hn => Node.Sub.trans (.child (List.mem_append_right _ hn) .refl) hsub)
        (Stays.skip hfall)
  -- the others are not calm
  | returnStmt | continueStmt | forLoop | whileLoop | doLoop => cases h

theorem stays_from (ss : Stmts) {brk : Bool} {p : Mask ι} {rest : Act ι Text V Node LaneJump}
    (h : calmAll brk ss = true) (hsub : ∀ n ∈ ss.toNodes, n.Sub tree)
    (hrest : Stays (Below tree) (CalmOut brk) rest) :
    Stays (Below tree) (CalmOut brk) (execFrom M bytes fuel p rest ss) := by
  cases ss with
  | nil => exact hrest
  | cons s ss =>
      obtain ⟨hs, hss⟩ := (Bool.and_eq_true _ _).mp h
      unfold execFrom
      exact Stays.scope (Stays.seq (Stays.split (stays_exec s hs (hsub _ List.mem_cons_self)) (Stays.skip (.inl rfl)))
        (stays_from ss hss (fun n hn => hsub n (List.mem_cons_of_mem _ hn)) hrest))

theorem stays_cases (entry : ι → Option Nat) (ss : Stmts) (i : Nat) {brk : Bool} (h : calmAll brk ss = true)
    (hsub : ∀ n ∈ ss.toNodes, n.Sub tree) :
    Stays (Below tree) (CalmOut brk) (execCases M bytes fuel entry i ss) := by
  cases ss with
  | nil => exact Stays.skip (.inl rfl)
  | cons s ss =>
      obtain ⟨hs, hss⟩ := (Bool.and_eq_true _ _).mp h
      have hfirst := hsub _ List.mem_cons_self
      have hrest := stays_cases entry ss (i + 1) hss fun n hn => hsub n (List.mem_cons_of_mem _ hn)
      cases s with
      | caseStmt span label body =>
          exact stays_from body hs (fun n hn => Node.Sub.trans (.child (List.mem_append_right _ hn) .refl) hfirst)
            hrest
      | _ =>
          exact Stays.scope (Stays.seq (Stays.split (stays_exec _ hs hfirst) (Stays.skip (.inl rfl))) hrest)
end

end Apart

/-! ## §5. Lanes that stay together. -/

/-- The nodes of `P` are in places that all lanes come to: no operator skips them, and
no branch that lanes take apart is around them. -/
structure Reached {ι V : Type} (M : Machine ι V) (div : List Text) (bytes : Text) (fnNode : Node)
    (P : Node → Prop) : Prop where
  unskipped : ∀ {m op : Node}, P m → Below fnNode op → M.short op = true → m.Sub op → m = op
  shared : ∀ {m branch cond : Node}, P m → branch.Sub fnNode → isBranch branch = true →
    branchCondition branch = some cond → divergentNode div bytes cond = true → ¬ Below branch m

section Together

variable {ι V : Type} {M : Machine ι V} {div : List Text} {bytes : Text} {fuel : Nat} {fnNode : Node}
  {P : Node → Prop} {c : Context Text LaneJump} {B : Mask ι}

/-- The condition of a branch comes first and fills its field. -/
theorem branchCondition_first {kind : NodeKind} {f : Option Field} {span : ByteSpan} {cond : PlainNode}
    {cs : List Node} :
    branchCondition (namedNode kind f span (cond.toNode (some .condition) :: cs))
      = some (cond.toNode (some .condition)) := by
  have hfound : (namedNode kind f span (cond.toNode (some .condition) :: cs)).childByField .condition
      = some (cond.toNode (some .condition)) :=
    List.find?_cons_of_pos (decide_eq_true (cond.toNode_field _))
  unfold branchCondition
  rw [hfound]

/-- Nothing is asked of the values here. -/
theorem trusted_nothing (n : Node) : Trusted (fun _ => False) div bytes n := fun _ _ _ h => h.elim

theorem wholeQuery_plain (hP : Reached M div bytes fnNode P) {n : PlainNode} {f : Option Field}
    (h : (n.toNode f).Sub fnNode) : WholeQuery P (eval M bytes n.node) := by
  intro mask w e he
  obtain ⟨hsub, hwithin, hall⟩ := eval_events n.node mask w e he
  refine ⟨hwithin, fun hm l k hl hk => ?_⟩
  have hun : Unskipped M n.node e.label := fun op hop => hP.unskipped hm (below_of_sub hop ⟨f, h⟩)
  rw [hall hun l hl, hall hun k hk]

theorem converged_perform (hP : Reached M div bytes fnNode P) {n : PlainNode} {f : Option Field}
    (h : (n.toNode f).Sub fnNode) (hst : steadyNode M.toDialect div bytes c.frozen n.node = true) :
    Converged (SharedName div) P B (perform M bytes n) :=
  Converged.withValue (secure_eval n.node c.frozen n.named (trusted_nothing n.node) hst) (wholeQuery_plain hP h)
    fun _ _ _ _ => Converged.skip

theorem converged_optional (hP : Reached M div bytes fnNode P) {n : Option PlainNode} {f : Option Field}
    (h : ∀ p ∈ optionalNode f n, p.Sub fnNode)
    (hst : steadyOptional M.toDialect div bytes c.frozen n = true) :
    Converged (SharedName div) P B (performOptional M bytes n) := by
  cases n with
  | none => exact Converged.skip
  | some m => exact converged_perform hP (h _ List.mem_cons_self) hst

/-- A branch that lanes take together. -/
theorem converged_branch (hP : Reached M div bytes fnNode P) {n : PlainNode} {f : Option Field}
    {p : V → Bool} {a b : Act ι Text V Node LaneJump} (h : (n.toNode f).Sub fnNode)
    (hst : steadyNode M.toDialect div bytes c.frozen n.node = true) (hn : divergentNode div bytes n.node = false)
    (hs : ∀ B, Secure (SharedName div) (fun _ => False) B c (SharedName div) a)
    (ha : ∀ B, Converged (SharedName div) P B a) (hb : ∀ B, Converged (SharedName div) P B b) :
    Converged (SharedName div) P B (Act.withValue (eval M bytes n.node) fun v => Act.split (fun l => p (v l)) a b) := by
  refine Converged.withValue (secure_eval n.node c.frozen n.named (trusted_nothing n.node) hst)
    (wholeQuery_plain hP h) fun v B' _ hv => ?_
  refine Converged.split (fun l m hl hm => ?_) (hs B') (ha B') (hb B')
  rw [hv hn l m hl hm]

/-- The test of a loop. -/
theorem converged_test (hP : Reached M div bytes fnNode P) {cond : Option PlainNode} {f : Option Field}
    (h : ∀ p ∈ optionalNode f cond, p.Sub fnNode)
    (hst : steadyTest M.toDialect div bytes c cond = true)
    (hn : (cond.all fun n => !divergentNode div bytes n.node) = true) :
    Converged (SharedName div) P B (loopTest M bytes cond) := by
  cases cond with
  | none => exact Converged.skip
  | some n =>
      obtain ⟨hnode, _⟩ := (Bool.and_eq_true _ _).mp hst
      exact converged_branch hP (h _ List.mem_cons_self) hnode ((Bool.not_eq_true' _).mp hn)
        (fun _ => Secure.skip fun _ h => h) (fun _ => Converged.skip) fun _ => Converged.leave _

/-- A branch that lanes take apart: all are back behind it, and nothing in it is observed. -/
theorem converged_apart (hP : Reached M div bytes fnNode P) {s : Stmt} {f : Option Field} {cond : PlainNode}
    (hsub : (s.toNode f).Sub fnNode) (hb : isBranch (s.toNode f) = true)
    (hcond : branchCondition (s.toNode f) = some (cond.toNode (some .condition)))
    (hdiv : divergentNode div bytes cond.node = true) (hcalm : calm false s = true) :
    Converged (SharedName div) P B (exec M bytes fuel s) := by
  have hclass : divergentNode div bytes (cond.toNode (some .condition)) = true := by
    unfold divergentNode at hdiv ⊢
    rw [PlainNode.toNode, classify_withField]
    exact hdiv
  have hout : ∀ o : Outcome LaneJump, CalmOut false o → o = .fall := by
    rintro o (h | ⟨h, _⟩)
    · exact h
    · cases h
  exact Converged.of_stays (Stays.weaken (stays_exec s hcalm .refl) hout) fun x hx hPx =>
    hP.shared hPx hsub hb hcond hclass hx

/-- A turn of a loop: its body is the target of `continue`. -/
theorem converged_turn {s : Stmt} {a : Act ι Text V Node LaneJump} (ha : Converged (SharedName div) P B a) :
    Converged (SharedName div) P B (Act.catching .cont (Act.scope (stmtDeclares bytes s) a)) :=
  Converged.catching (Converged.scope ha)

/-- A loop whose turn has two parts: it is the target of `break`. -/
theorem converged_loop {a b : Act ι Text V Node LaneJump}
    (hsa : Secure (SharedName div) (fun _ => False) B c (SharedName div) a)
    (hsb : Secure (SharedName div) (fun _ => False) B c (SharedName div) b)
    (ha : Converged (SharedName div) P B a) (hb : Converged (SharedName div) P B b) :
    Converged (SharedName div) P B (Act.catching .brk (Act.iterate (Act.seq a b) fuel)) :=
  Converged.catching (Converged.iterate (Secure.seq (fun _ h => h) hsa hsb) (Converged.seq hsa ha hb) fuel)

/-- A statement that the lanes come to together or pass over together, and the rest. -/
theorem converged_next {declared : Text → Bool} {p : Mask ι} {a rest : Act ι Text V Node LaneJump}
    (hp : ∀ l m, B l = true → B m = true → p l = p m)
    (hs : Secure (SharedName div) (fun _ => False) B c (SharedName div) a)
    (ha : Converged (SharedName div) P B a) (hrest : Converged (SharedName div) P B rest) :
    Converged (SharedName div) P B (Act.scope declared (Act.seq (Act.split p a Act.skip) rest)) := by
  have hsplit : Secure (SharedName div) (fun _ => False) B c (SharedName div) (Act.split p a Act.skip) :=
    Secure.split (fun _ h => h) (fun _ => hp) (by rw [Context.under_false]; exact hs) (Secure.skip fun _ h => h)
  exact Converged.scope (Converged.seq hsplit (Converged.split hp hs ha Converged.skip) hrest)

mutual
/-- **Lanes stay together through a steady statement behind which they rejoin.** -/
theorem converged_exec (hP : Reached M div bytes fnNode P) (s : Stmt) {f : Option Field}
    {c : Context Text LaneJump} (hsub : (s.toNode f).Sub fnNode)
    (hst : steady M.toDialect div bytes c s = true) (hstr : rejoins div bytes s = true) (B : Mask ι) :
    Converged (SharedName div) P B (exec M bytes fuel s) := by
  have hfree : FieldFree (fun _ => False) := fun _ _ h => h
  have htrust : ∀ n : Node, Trusted (fun _ => False) div bytes n := trusted_nothing
  cases s with
  | simple n => exact converged_perform hP hsub hst
  | returnStmt span value =>
      unfold exec
      exact Converged.seq (secure_optional (fun m _ => htrust m.node) hst)
        (converged_optional hP (fun n hn => Node.Sub.trans (.child hn .refl) hsub) hst) (Converged.leave _)
  | breakStmt span => exact Converged.leave _
  | continueStmt span => exact Converged.leave _
  | compound span body =>
      unfold exec
      exact converged_from hP body (fun n hn => Node.Sub.trans (.child hn .refl) hsub) hst hstr
        (fun _ _ _ _ => rfl) Converged.skip
  | ifThen span cond thenStmt =>
      cases hdiv : divergentNode div bytes cond.node with
      | true =>
          unfold rejoins at hstr
          rw [if_pos hdiv] at hstr
          exact converged_apart hP hsub rfl branchCondition_first hdiv hstr
      | false =>
          unfold rejoins at hstr
          rw [if_neg (Bool.eq_false_iff.mp hdiv)] at hstr
          obtain ⟨hcond, hthen⟩ := (Bool.and_eq_true _ _).mp hst
          rw [hdiv, Context.under_false] at hthen
          have hchild : ∀ n ∈ [cond.toNode (some .condition), thenStmt.toNode (some .consequence)], n.Sub fnNode :=
            fun n hn => Node.Sub.trans (.child hn .refl) hsub
          have hbelow := hchild _ (List.mem_cons_of_mem _ List.mem_cons_self)
          unfold exec
          exact converged_branch hP (hchild _ List.mem_cons_self) hcond hdiv
            (fun B => secure_scoped (secure_exec hfree thenStmt (htrust (thenStmt.toNode none)) hthen B))
            (fun B => Converged.scope (converged_exec hP thenStmt hbelow hthen hstr B)) fun _ => Converged.skip
  | ifElse span cond thenStmt elseSpan elseStmt =>
      cases hdiv : divergentNode div bytes cond.node with
      | true =>
          unfold rejoins at hstr
          rw [if_pos hdiv] at hstr
          exact converged_apart hP hsub rfl branchCondition_first hdiv hstr
      | false =>
          unfold rejoins at hstr
          rw [if_neg (Bool.eq_false_iff.mp hdiv)] at hstr
          obtain ⟨hstrThen, hstrElse⟩ := (Bool.and_eq_true _ _).mp hstr
          obtain ⟨hct, helse⟩ := (Bool.and_eq_true _ _).mp hst
          obtain ⟨hcond, hthen⟩ := (Bool.and_eq_true _ _).mp hct
          rw [hdiv, Context.under_false] at hthen helse
          have hchild : ∀ n ∈ [cond.toNode (some .condition), thenStmt.toNode (some .consequence),
              namedNode .elseClause (some .alternative) elseSpan [elseStmt.toNode none]], n.Sub fnNode :=
            fun n hn => Node.Sub.trans (.child hn .refl) hsub
          have hbelow := hchild _ (List.mem_cons_of_mem _ List.mem_cons_self)
          have hclause := hchild _ (List.mem_cons_of_mem _ (List.mem_cons_of_mem _ List.mem_cons_self))
          have hother : (elseStmt.toNode none).Sub fnNode := Node.Sub.trans (.child List.mem_cons_self .refl) hclause
          unfold exec
          exact converged_branch hP (hchild _ List.mem_cons_self) hcond hdiv
            (fun B => secure_scoped (secure_exec hfree thenStmt (htrust (thenStmt.toNode none)) hthen B))
            (fun B => Converged.scope (converged_exec hP thenStmt hbelow hthen hstrThen B))
            fun B => Converged.scope (converged_exec hP elseStmt hother helse hstrElse B)
  | forLoop span init cond update body =>
      obtain ⟨hstrCond, hstrBody⟩ := (Bool.and_eq_true _ _).mp hstr
      -- the flags: may lanes leave the loop, and may they leave a turn of it, at different times
      obtain ⟨hinit, hflags⟩ := (Bool.and_eq_true _ _).mp hst
      obtain ⟨apart, _, hflags⟩ := List.any_eq_true.mp hflags
      obtain ⟨apart', _, hflags⟩ := List.any_eq_true.mp hflags
      obtain ⟨hflags, hupdate⟩ := (Bool.and_eq_true _ _).mp hflags
      obtain ⟨hcond, hbody⟩ := (Bool.and_eq_true _ _).mp hflags
      have hparts : ∀ n ∈ optionalNode (some (.other "initializer".toList)) init
          ++ optionalNode (some .condition) cond
          ++ optionalNode (some (.other "update".toList)) update ++ [body.toNode (some .body)], n.Sub fnNode :=
        fun n hn => Node.Sub.trans (.child hn .refl) hsub
      have hbelow := hparts _ (List.mem_append_right _ (List.mem_singleton_self _))
      have hsecure : Secure (SharedName div) (fun _ => False) B _ (SharedName div) (exec M bytes fuel body) :=
        secure_exec hfree body (htrust (body.toNode none)) hbody B
      have hsturn := secure_turn hsecure
      have htest : Secure (SharedName div) (fun _ => False) B _ (SharedName div) (loopTest M bytes cond) :=
        secure_test (fun m _ => htrust m.node) hcond
      have hnext : Secure (SharedName div) (fun _ => False) B _ (SharedName div) (performOptional M bytes update) :=
        secure_optional (fun m _ => htrust m.node) hupdate
      -- the update is a part of the turn
      have hrest := Converged.seq hsturn (converged_turn (converged_exec hP body hbelow hbody hstrBody B))
        (converged_optional hP (fun n hn => hparts n
          (List.mem_append_left _ (List.mem_append_right _ hn))) hupdate)
      unfold exec
      refine Converged.scope (Converged.seq (secure_optional (fun m _ => htrust m.node) hinit)
        (converged_optional hP (fun n hn => hparts n
          (List.mem_append_left _ (List.mem_append_left _ (List.mem_append_left _ hn)))) hinit) ?_)
      exact converged_loop htest (Secure.seq (fun _ h => h) hsturn hnext)
        (converged_test hP (fun n hn => hparts n
          (List.mem_append_left _ (List.mem_append_left _ (List.mem_append_right _ hn)))) hcond hstrCond) hrest
  | whileLoop span cond body =>
      obtain ⟨hstrCond, hstrBody⟩ := (Bool.and_eq_true _ _).mp hstr
      obtain ⟨apart, _, hflags⟩ := List.any_eq_true.mp hst
      obtain ⟨apart', _, hflags⟩ := List.any_eq_true.mp hflags
      obtain ⟨hcond, hbody⟩ := (Bool.and_eq_true _ _).mp hflags
      have hparts : ∀ n ∈ [cond.toNode (some .condition), body.toNode (some .body)], n.Sub fnNode :=
        fun n hn => Node.Sub.trans (.child hn .refl) hsub
      have hbelow := hparts _ (List.mem_cons_of_mem _ List.mem_cons_self)
      have hsecure : Secure (SharedName div) (fun _ => False) B _ (SharedName div) (exec M bytes fuel body) :=
        secure_exec hfree body (htrust (body.toNode none)) hbody B
      have hsturn := secure_turn hsecure
      have htest : Secure (SharedName div) (fun _ => False) B _ (SharedName div) (loopTest M bytes (some cond)) :=
        secure_test (fun m _ => htrust m.node) hcond
      unfold exec
      exact converged_loop htest hsturn
        (converged_test hP (f := some .condition)
          (fun n hn => hparts n (List.mem_cons.mpr (.inl (List.mem_singleton.mp hn)))) hcond hstrCond)
        (converged_turn (converged_exec hP body hbelow hbody hstrBody B))
  | doLoop span body cond =>
      obtain ⟨hstrCond, hstrBody⟩ := (Bool.and_eq_true _ _).mp hstr
      obtain ⟨apart, _, hflags⟩ := List.any_eq_true.mp hst
      obtain ⟨apart', _, hflags⟩ := List.any_eq_true.mp hflags
      obtain ⟨hcond, hbody⟩ := (Bool.and_eq_true _ _).mp hflags
      have hparts : ∀ n ∈ [body.toNode (some .body), cond.toNode (some .condition)], n.Sub fnNode :=
        fun n hn => Node.Sub.trans (.child hn .refl) hsub
      have hbelow := hparts _ List.mem_cons_self
      have hsecure : Secure (SharedName div) (fun _ => False) B _ (SharedName div) (exec M bytes fuel body) :=
        secure_exec hfree body (htrust (body.toNode none)) hbody B
      have hsturn := secure_turn hsecure
      have htest : Secure (SharedName div) (fun _ => False) B _ (SharedName div) (loopTest M bytes (some cond)) :=
        secure_test (fun m _ => htrust m.node) hcond
      unfold exec
      exact converged_loop hsturn htest
        (converged_turn (converged_exec hP body hbelow hbody hstrBody B))
        (converged_test hP (fun n hn => hparts n (List.mem_cons_of_mem _ hn)) hcond hstrCond)
  | switch span cond bodySpan body =>
      cases hdiv : divergentNode div bytes cond.node with
      | true =>
          unfold rejoins at hstr
          rw [if_pos hdiv] at hstr
          exact converged_apart hP hsub rfl branchCondition_first hdiv hstr
      | false =>
          unfold rejoins at hstr
          rw [if_neg (Bool.eq_false_iff.mp hdiv)] at hstr
          -- all lanes enter at the same case
          obtain ⟨hcond, hflags⟩ := (Bool.and_eq_true _ _).mp hst
          obtain ⟨apart, _, hbody⟩ := List.any_eq_true.mp hflags
          rw [hdiv] at hbody
          have hparts : ∀ n ∈ [cond.toNode (some .condition),
              namedNode .compoundStatement (some .body) bodySpan body.toNodes], n.Sub fnNode :=
            fun n hn => Node.Sub.trans (.child hn .refl) hsub
          have hnode := hparts _ (List.mem_cons_of_mem _ List.mem_cons_self)
          unfold exec
          refine Converged.withValue (secure_eval cond.node c.frozen cond.named (htrust cond.node) hcond)
            (wholeQuery_plain hP (hparts _ List.mem_cons_self)) fun v B' _ hv => ?_
          refine Converged.catching (converged_cases hP _ body 0
            (fun n hn => Node.Sub.trans (.child hn .refl) hnode) hbody hstr fun l m hl hm => ?_)
          rw [hv hdiv l m hl hm]
  | caseStmt span label body =>
      unfold exec
      exact converged_from hP body (fun n hn => Node.Sub.trans (.child (List.mem_append_right _ hn) .refl) hsub)
        hst hstr (fun _ _ _ _ => rfl) Converged.skip

theorem converged_from (hP : Reached M div bytes fnNode P) (ss : Stmts) {c : Context Text LaneJump}
    {p B : Mask ι} {rest : Act ι Text V Node LaneJump} (hsub : ∀ n ∈ ss.toNodes, n.Sub fnNode)
    (hst : steadyFrom M.toDialect div bytes c false ss = true) (hstr : rejoinsAll div bytes ss = true)
    (hp : ∀ l m, B l = true → B m = true → p l = p m) (hrest : Converged (SharedName div) P B rest) :
    Converged (SharedName div) P B (execFrom M bytes fuel p rest ss) := by
  cases ss with
  | nil => exact hrest
  | cons s ss =>
      obtain ⟨hs, hss⟩ := (Bool.and_eq_true _ _).mp hst
      obtain ⟨hstrS, hstrSs⟩ := (Bool.and_eq_true _ _).mp hstr
      rw [Context.under_false] at hs
      have hone : Secure (SharedName div) (fun _ => False) B _ (SharedName div) (exec M bytes fuel s) :=
        secure_exec (fun _ _ h => h) s (trusted_nothing (s.toNode none)) hs B
      unfold execFrom
      exact converged_next hp hone (converged_exec hP s (hsub _ List.mem_cons_self) hs hstrS B)
        (converged_from hP ss (fun n hn => hsub n (List.mem_cons_of_mem _ hn)) hss hstrSs hp hrest)

theorem converged_cases (hP : Reached M div bytes fnNode P) (entry : ι → Option Nat) (ss : Stmts) (i : Nat)
    {c : Context Text LaneJump} {B : Mask ι} (hsub : ∀ n ∈ ss.toNodes, n.Sub fnNode)
    (hst : steadyCases M.toDialect div bytes c false ss = true) (hstr : rejoinsAll div bytes ss = true)
    (hentry : ∀ l m, B l = true → B m = true → entry l = entry m) :
    Converged (SharedName div) P B (execCases M bytes fuel entry i ss) := by
  have hp : ∀ l m, B l = true → B m = true → entered (entry l) i = entered (entry m) i :=
    fun l m hl hm => by rw [hentry l m hl hm]
  cases ss with
  | nil => exact Converged.skip
  | cons s ss =>
      obtain ⟨hstrS, hstrSs⟩ := (Bool.and_eq_true _ _).mp hstr
      have hfirst := hsub _ List.mem_cons_self
      have hothers : ∀ n ∈ ss.toNodes, n.Sub fnNode := fun n hn => hsub n (List.mem_cons_of_mem _ hn)
      cases s with
      | caseStmt span label body =>
          obtain ⟨hbody, hrest⟩ := (Bool.and_eq_true _ _).mp hst
          exact converged_from hP body
            (fun n hn => Node.Sub.trans (.child (List.mem_append_right _ hn) .refl) hfirst) hbody hstrS hp
            (converged_cases hP entry ss (i + 1) hothers hrest hstrSs hentry)
      | _ =>
          obtain ⟨hs, hrest⟩ := (Bool.and_eq_true _ _).mp hst
          rw [Context.under_false] at hs
          have hone : Secure (SharedName div) (fun _ => False) B _ (SharedName div) (exec M bytes fuel _) :=
            secure_exec (fun _ _ h => h) _ (trusted_nothing (Stmt.toNode none _)) hs B
          exact converged_next hp hone (converged_exec hP _ hfirst hs hstrS B)
            (converged_cases hP entry ss (i + 1) hothers hrest hstrSs hentry)
end

end Together

/-! ## §6. What the query misses. -/

section Query

variable {ι V : Type} {M : Machine ι V} {source : SourceId} {bytes : Text} {root fnNode : Node}

/-- The query is false of the node, and no operator of the function may skip it. -/
def Passed (M : Machine ι V) (source : SourceId) (bytes : Text) (root fnNode m : Node) : Prop :=
  insideDivergentCf (buildEntry source root bytes).info (m.span source) = false
    ∧ ∀ op : Node, Below fnNode op → M.short op = true → m.Sub op → m = op

theorem Below.inside {tree m : Node} (h : Below tree m) (hw : tree.wellSpanned = true) : m.Inside tree := by
  obtain ⟨f, hf⟩ := h
  obtain ⟨_, hlo, hhi⟩ := hf.inside hw
  rw [(Node.withField_spans m f).1] at hlo
  rw [(Node.withField_spans m f).2.1] at hhi
  exact ⟨hlo, hhi⟩

/-- **What the query passes is in places that all lanes come to.** -/
theorem reached_passed (hw : root.wellSpanned = true) (hsh : root.shaped = true) (hfn : fnNode.Sub root) :
    Reached M (seedDivergentParameters bytes root) bytes fnNode (Passed M source bytes root fnNode) := by
  refine ⟨fun hm => hm.2 _, fun {m branch cond} hm hsub hb hcond hdiv hbelow => ?_⟩
  have hroot := hsub.trans hfn
  obtain ⟨hlo, hhi⟩ := hbelow.inside (hroot.inside hw).1
  have hcontains : contains (branch.span source) (m.span source) = true := by
    unfold contains
    rw [if_neg (fun h => h rfl), Bool.and_eq_true, decide_eq_true_iff, decide_eq_true_iff]
    exact ⟨hlo, hhi⟩
  have hclass : (analyseUniformity root bytes).ofBranch (branch.span source) = .divergent :=
    (ofBranch_eq hw hsh hroot hb hcond).trans (of_decide_eq_true hdiv)
  have hfound : insideDivergentCf (buildEntry source root bytes).info (m.span source) = true :=
    insideDivergentCf_iff.mpr ⟨branch, hroot, hb, hcontains, .inl hclass⟩
  rw [hm.1] at hfound
  cases hfound

/-- Lanes that differ in nothing but the parameters with a divergent semantic are alike
in the names the analyzer takes for uniform. -/
theorem gathered_entry {mask : Mask ι} {w : Wave ι Text V} (hfn : fnNode.Sub root)
    (hname : ∀ x ∈ laneParameters bytes fnNode, ordinaryName x = true)
    (hentry : ∀ l m x, mask l = true → mask m = true → x ∉ laneParameters bytes fnNode → w l x = w m x) :
    Gathered (SharedName (seedDivergentParameters bytes root)) mask w := by
  intro l m hl hm x hx
  refine hentry l m x hl hm fun hmem => ?_
  have hseed := laneParameters_seeded hfn hmem (hname x hmem)
  have hx' : decide (classifyIdentifier _ x = .divergent) = false := hx
  unfold classifyIdentifier at hx'
  rw [if_pos (List.contains_iff_mem.mpr hseed)] at hx'
  cases hx'

/-- **What the query passes, all lanes of a wave evaluate together or none does**, when
they enter the function alike but for the parameters with a divergent semantic. -/
theorem passed_together {span : ByteSpan} {body : Stmts} {f : Option Field}
    (hw : root.wellSpanned = true) (hsh : root.shaped = true) (hfn : fnNode.Sub root)
    (hbody : functionBody fnNode = some ((Stmt.compound span body).toNode f))
    (hname : ∀ x ∈ laneParameters bytes fnNode, ordinaryName x = true)
    (hst : steadyFrom M.toDialect (seedDivergentParameters bytes root) bytes Context.top false body = true)
    (hstr : rejoinsAll (seedDivergentParameters bytes root) bytes body = true)
    {fuel : Nat} {mask : Mask ι} {w : Wave ι Text V}
    (hentry : ∀ l m x, mask l = true → mask m = true → x ∉ laneParameters bytes fnNode → w l x = w m x) :
    ∀ e ∈ (execBody M bytes fuel body mask w).events, Passed M source bytes root fnNode e.label → e.Whole mask := by
  have hgathered := gathered_entry hfn hname hentry
  have hconverged : Converged (SharedName (seedDivergentParameters bytes root)) (Passed M source bytes root fnNode) mask
      (execBody M bytes fuel body) :=
    converged_from (reached_passed hw hsh hfn) body
      (fun n hn => Node.Sub.trans (.child hn .refl) (functionBody_sub hbody)) hst hstr (fun _ _ _ _ => rfl)
      Converged.skip
  exact (hconverged mask w (fun _ h => h) hgathered).whole

end Query

end ShaderClippy.ControlFlow
