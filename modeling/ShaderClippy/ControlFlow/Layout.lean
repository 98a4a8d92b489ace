/-
  ShaderClippy.ControlFlow.Layout

  **WHERE `walk_statement` PUTS A STATEMENT.**

  Walked with the cursor on block `cur` when `n` blocks exist, a statement
  without barriers creates `size` blocks, leaves the cursor on `endBlock`
  and adds `edges`, in this order (`walkStatement_layout`). An else arm is
  ONE block, whatever it holds: the grammar wraps it in an `else_clause`,
  which the walk does not enter. A `switch` is ONE block without incoming
  edges: its cases sit in a `compound_statement`, not among its children.
-/
import ShaderClippy.ControlFlow.CfgBuilder
import ShaderClippy.Syntax.Stmt

namespace ShaderClippy.ControlFlow

/-! ## §1. The layout. -/

mutual
/-- How many blocks the walk creates. -/
def size : Stmt → Nat
  | .simple _ | .breakStmt _ | .continueStmt _ | .caseStmt .. => 0
  | .returnStmt .. => 1
  | .compound _ body => sizeAll body
  | .ifThen _ _ thenStmt => size thenStmt + 2
  | .ifElse _ _ thenStmt _ _ => size thenStmt + 3
  | .forLoop _ _ _ _ body | .whileLoop _ _ body => size body + 3
  | .doLoop _ body _ => size body + 3
  | .switch .. => 1

def sizeAll : Stmts → Nat
  | .nil => 0
  | .cons s ss => size s + sizeAll ss
end

mutual
/-- The cursor after the walk. -/
def endBlock (n cur : Nat) : Stmt → Nat
  | .simple _ | .breakStmt _ | .continueStmt _ | .caseStmt .. => cur
  | .returnStmt .. => n
  | .compound _ body => endBlockAll n cur body
  | .ifThen _ _ thenStmt => n + 1 + size thenStmt
  | .ifElse _ _ thenStmt _ _ => n + 1 + size thenStmt + 1
  | .forLoop _ _ _ _ body | .whileLoop _ _ body => n + 2 + size body
  | .doLoop _ body _ => n + 1 + size body + 1
  | .switch .. => n

def endBlockAll (n cur : Nat) : Stmts → Nat
  | .nil => cur
  | .cons s ss => endBlockAll (n + size s) (endBlock n cur s) ss
end

mutual
/-- The edges the walk adds. -/
def edges (n cur : Nat) : Stmt → List (Nat × Nat)
  | .simple _ | .breakStmt _ | .continueStmt _ | .caseStmt .. => []
  | .returnStmt .. => []
  | .compound _ body => edgesAll n cur body
  | .ifThen _ _ thenStmt =>
      let join := n + 1 + size thenStmt
      (cur, n) :: edges (n + 1) n thenStmt
        ++ [(endBlock (n + 1) n thenStmt, join), (cur, join)]
  | .ifElse _ _ thenStmt _ _ =>
      let elseBlock := n + 1 + size thenStmt
      let join := elseBlock + 1
      (cur, n) :: edges (n + 1) n thenStmt
        ++ [(cur, elseBlock), (endBlock (n + 1) n thenStmt, join), (elseBlock, join)]
  | .forLoop _ _ _ _ body | .whileLoop _ _ body =>
      [(cur, n), (n, n + 1)] ++ edges (n + 2) (n + 1) body
        ++ [(endBlock (n + 2) (n + 1) body, n), (n, n + 2 + size body)]
  | .doLoop _ body _ =>
      let condBlock := n + 1 + size body
      (cur, n) :: edges (n + 1) n body
        ++ [(endBlock (n + 1) n body, condBlock), (condBlock, n), (condBlock, condBlock + 1)]
  | .switch .. => []

def edgesAll (n cur : Nat) : Stmts → List (Nat × Nat)
  | .nil => []
  | .cons s ss => edges n cur s ++ edgesAll (n + size s) (endBlock n cur s) ss
end

/-! ## §2. What a walk does to the builder. -/

/-- The successors of a block in the builder. -/
def FunctionBuilder.successors (fb : FunctionBuilder) (b : Nat) : List Nat :=
  match fb.blocks[b]? with
  | some block => block.successors
  | none => []

/-- The barrier flag of a block in the builder. -/
def FunctionBuilder.containsBarrier (fb : FunctionBuilder) (b : Nat) : Bool :=
  match fb.blocks[b]? with
  | some block => block.containsBarrier
  | none => false

/-- The targets of the edges from `u`. -/
def targets (es : List (Nat × Nat)) (u : Nat) : List Nat :=
  (es.filter fun e => decide (e.1 = u)).map Prod.snd

@[simp] theorem targets_nil (u : Nat) : targets [] u = [] := rfl

@[simp] theorem targets_append (es fs : List (Nat × Nat)) (u : Nat) :
    targets (es ++ fs) u = targets es u ++ targets fs u := by
  simp [targets]

theorem mem_targets {es : List (Nat × Nat)} {u v : Nat} : v ∈ targets es u ↔ (u, v) ∈ es := by
  simp only [targets, List.mem_map, List.mem_filter, decide_eq_true_eq]
  constructor
  · rintro ⟨⟨a, b⟩, ⟨h1, h2⟩, h3⟩
    simp only at h2 h3
    rw [← h2, ← h3]
    exact h1
  · intro h
    exact ⟨(u, v), ⟨h, rfl⟩, rfl⟩

/-- From `fb`, `k` blocks were created and the edges `es` added, and no block
was marked as a barrier. -/
structure Grows (fb : FunctionBuilder) (k : Nat) (es : List (Nat × Nat))
    (fb' : FunctionBuilder) : Prop where
  length : fb'.blocks.length = fb.blocks.length + k
  successors : ∀ u, fb'.successors u = fb.successors u ++ targets es u
  barrier : ∀ u, fb'.containsBarrier u = fb.containsBarrier u

theorem Grows.refl (fb : FunctionBuilder) : Grows fb 0 [] fb :=
  ⟨rfl, fun u => by rw [targets_nil, List.append_nil], fun _ => rfl⟩

@[simp] theorem length_addEdge (fb : FunctionBuilder) (u v : Nat) :
    (fb.addEdge u v).blocks.length = fb.blocks.length :=
  List.length_modify ..

@[simp] theorem length_newBlock (fb : FunctionBuilder) (ctx : BuildContext) (anchor : Node) :
    (fb.newBlock ctx anchor).2.blocks.length = fb.blocks.length + 1 := by
  simp [FunctionBuilder.newBlock]

/-- A change of a block that keeps its successors. -/
theorem successors_modify (fb : FunctionBuilder) (b : Nat) {f : BasicBlock → BasicBlock}
    (hsucc : ∀ block, (f block).successors = block.successors) (u : Nat) :
    FunctionBuilder.successors { fb with blocks := fb.blocks.modify b f } u = fb.successors u := by
  unfold FunctionBuilder.successors
  simp only [List.getElem?_modify]
  cases fb.blocks[u]? with
  | none => rfl
  | some block => by_cases hub : b = u <;> simp [hub, hsucc]

/-- A change of a block that keeps its successors and its barrier flag. -/
theorem grows_modify (fb : FunctionBuilder) (b : Nat) {f : BasicBlock → BasicBlock}
    (hsucc : ∀ block, (f block).successors = block.successors)
    (hbar : ∀ block, (f block).containsBarrier = block.containsBarrier) :
    Grows fb 0 [] { fb with blocks := fb.blocks.modify b f } := by
  refine ⟨List.length_modify .., fun u => ?_, fun u => ?_⟩
  · rw [targets_nil, List.append_nil, successors_modify fb b hsucc]
  · unfold FunctionBuilder.containsBarrier
    simp only [List.getElem?_modify]
    cases fb.blocks[u]? with
    | none => rfl
    | some block => by_cases hub : b = u <;> simp [hub, hbar]

theorem grows_markExit (fb : FunctionBuilder) (b : Nat) : Grows fb 0 [] (fb.markExit b) :=
  grows_modify fb b (fun _ => rfl) fun _ => rfl

theorem grows_markDiscard (fb : FunctionBuilder) (text : Text) (b : Nat) :
    Grows fb 0 [] (fb.markDiscard text b) := by
  unfold FunctionBuilder.markDiscard
  split
  · exact grows_modify fb b (fun _ => rfl) fun _ => rfl
  · exact Grows.refl fb

theorem Grows.trans {fb fb' fb'' : FunctionBuilder} {k l : Nat} {es fs : List (Nat × Nat)}
    (h : Grows fb k es fb') (h' : Grows fb' l fs fb'') : Grows fb (k + l) (es ++ fs) fb'' := by
  refine ⟨by rw [h'.length, h.length, Nat.add_assoc], fun u => ?_, fun u => ?_⟩
  · rw [h'.successors, h.successors, targets_append, List.append_assoc]
  · rw [h'.barrier, h.barrier]

theorem Grows.cast {fb fb' : FunctionBuilder} {k l : Nat} {es fs : List (Nat × Nat)}
    (h : Grows fb k es fb') (hk : k = l) (hes : es = fs) : Grows fb l fs fb' := by
  rw [← hk, ← hes]
  exact h

/-- One more block, number `m`. -/
theorem Grows.newBlock {fb fb' : FunctionBuilder} {k m : Nat} {es : List (Nat × Nat)}
    (h : Grows fb k es fb') (ctx : BuildContext) (anchor : Node)
    (hm : fb.blocks.length + k = m) :
    ∃ fb'', fb'.newBlock ctx anchor = (m, fb'') ∧ Grows fb (k + 1) es fb'' := by
  have hlen : fb'.blocks.length = m := by rw [h.length, hm]
  have hget : ∀ u, (fb'.newBlock ctx anchor).2.blocks[u]?
      = if u = fb'.blocks.length then some (BasicBlock.fresh (anchor.span ctx.source))
        else fb'.blocks[u]? := by
    intro u
    show (fb'.blocks ++ [_])[u]? = _
    by_cases hu : u = fb'.blocks.length
    · simp [hu]
    · rw [if_neg hu]
      by_cases hlt : u < fb'.blocks.length
      · rw [List.getElem?_append_left hlt]
      · rw [List.getElem?_eq_none (by simp; omega), List.getElem?_eq_none (by omega)]
  have hnone : fb'.blocks[fb'.blocks.length]? = none := List.getElem?_eq_none (Nat.le_refl _)
  refine ⟨(fb'.newBlock ctx anchor).2, ?_, ?_, fun u => ?_, fun u => ?_⟩
  · rw [← hlen]
    rfl
  · simp [FunctionBuilder.newBlock, h.length, Nat.add_assoc]
  · rw [← h.successors]
    unfold FunctionBuilder.successors
    rw [hget]
    by_cases hu : u = fb'.blocks.length
    · simp [hu, BasicBlock.fresh]
    · rw [if_neg hu]
  · rw [← h.barrier]
    unfold FunctionBuilder.containsBarrier
    rw [hget]
    by_cases hu : u = fb'.blocks.length
    · simp [hu, BasicBlock.fresh]
    · rw [if_neg hu]

/-- One more edge. -/
theorem Grows.addEdge {fb fb' : FunctionBuilder} {k : Nat} {es : List (Nat × Nat)}
    (h : Grows fb k es fb') (u v : Nat) (hu : u < fb.blocks.length + k) :
    Grows fb k (es ++ [(u, v)]) (fb'.addEdge u v) := by
  have hu' : u < fb'.blocks.length := by rw [h.length]; exact hu
  refine ⟨(List.length_modify ..).trans h.length, fun w => ?_, fun w => ?_⟩
  · rw [targets_append, ← List.append_assoc, ← h.successors]
    unfold FunctionBuilder.successors FunctionBuilder.addEdge
    simp only [List.getElem?_modify]
    by_cases hw : u = w
    · subst hw
      rw [List.getElem?_eq_getElem hu']
      simp [targets]
    · cases fb'.blocks[w]? with
      | none => simp [targets, hw]
      | some block => simp [targets, hw]
  · rw [← h.barrier]
    unfold FunctionBuilder.containsBarrier FunctionBuilder.addEdge
    simp only [List.getElem?_modify]
    cases fb'.blocks[w]? with
    | none => rfl
    | some block => by_cases hw : u = w <;> simp [hw]

/-! ## §3. Walkers with a known layout. -/

/-- The walker creates `k` blocks, ends on `endB n cur` and adds `es n cur`. -/
def WalksAs (w : Walker) (k : Nat) (endB : Nat → Nat → Nat)
    (es : Nat → Nat → List (Nat × Nat)) : Prop :=
  ∀ fb cur, cur < fb.blocks.length →
    ∃ fb', w fb cur = (fb', endB fb.blocks.length cur)
      ∧ Grows fb k (es fb.blocks.length cur) fb'
      ∧ endB fb.blocks.length cur < fb.blocks.length + k

/-- Walk on from a grown state. -/
theorem Grows.walk {fb fb' : FunctionBuilder} {k l m : Nat} {es : List (Nat × Nat)} {w : Walker}
    {endB : Nat → Nat → Nat} {fs : Nat → Nat → List (Nat × Nat)} (h : Grows fb k es fb')
    (hw : WalksAs w l endB fs) (cur : Nat) (hm : fb.blocks.length + k = m) (hcur : cur < m) :
    ∃ fb'', w fb' cur = (fb'', endB m cur) ∧ Grows fb (k + l) (es ++ fs m cur) fb''
      ∧ endB m cur < m + l := by
  have hlen : fb'.blocks.length = m := by rw [h.length, hm]
  obtain ⟨fb'', h1, h2, h3⟩ := hw fb' cur (by rw [hlen]; exact hcur)
  rw [hlen] at h1 h2 h3
  exact ⟨fb'', h1, h.trans h2, h3⟩

theorem WalksAs.stay : WalksAs (fun fb cur => (fb, cur)) 0 (fun _ cur => cur) (fun _ _ => []) := by
  intro fb cur hcur
  exact ⟨fb, rfl, Grows.refl fb, hcur⟩

/-- Marking a discard first changes nothing. -/
theorem WalksAs.afterDiscard {w : Walker} {k : Nat} {endB : Nat → Nat → Nat}
    {es : Nat → Nat → List (Nat × Nat)} (h : WalksAs w k endB es) (text : Text) :
    WalksAs (fun fb cur => w (fb.markDiscard text cur) cur) k endB es := by
  intro fb cur hcur
  obtain ⟨fb', h1, h2, h3⟩ := (grows_markDiscard fb text cur).walk h cur rfl hcur
  exact ⟨fb', h1, h2.cast (Nat.zero_add k) rfl, h3⟩

section Walkers

variable {ctx : BuildContext} {stmt : Node} {kids : Kids} {k : Nat} {endB : Nat → Nat → Nat}
  {es : Nat → Nat → List (Nat × Nat)}

/-- `if` without an else arm. -/
theorem WalksAs.ifThen {t : Node × Walker} (hkids : ifArms kids = (some t, none))
    (ht : WalksAs t.2 k endB es) :
    WalksAs (walkIf ctx stmt kids) (k + 2) (fun n _ => n + 1 + k)
      (fun n cur => (cur, n) :: es (n + 1) n
        ++ [(endB (n + 1) n, n + 1 + k), (cur, n + 1 + k)]) := by
  intro fb cur hcur
  obtain ⟨fb1, h1, g1⟩ := (Grows.refl fb).newBlock ctx stmt (Nat.add_zero _)
  have g2 := g1.addEdge cur fb.blocks.length (by omega)
  obtain ⟨fb3, h3, g3, e3⟩ := g2.walk (m := fb.blocks.length + 1) ht fb.blocks.length
    (by omega) (by omega)
  obtain ⟨fb4, h4, g4⟩ := g3.newBlock (m := fb.blocks.length + 1 + k) ctx stmt (by omega)
  have g5 := g4.addEdge (endB (fb.blocks.length + 1) fb.blocks.length)
    (fb.blocks.length + 1 + k) (by omega)
  have g6 := g5.addEdge cur (fb.blocks.length + 1 + k) (by omega)
  refine ⟨_, ?_, g6.cast (by omega) (by simp), by show _ + _ < _; omega⟩
  unfold walkIf
  simp only [hkids, h1, walkOptional, h3, h4]

/-- `if` with an else arm, whose own walk stays where it is. -/
theorem WalksAs.ifElse {t e : Node × Walker} (hkids : ifArms kids = (some t, some e))
    (ht : WalksAs t.2 k endB es) (he : WalksAs e.2 0 (fun _ cur => cur) (fun _ _ => [])) :
    WalksAs (walkIf ctx stmt kids) (k + 3) (fun n _ => n + 1 + k + 1)
      (fun n cur => (cur, n) :: es (n + 1) n
        ++ [(cur, n + 1 + k), (endB (n + 1) n, n + 1 + k + 1), (n + 1 + k, n + 1 + k + 1)]) := by
  intro fb cur hcur
  obtain ⟨fb1, h1, g1⟩ := (Grows.refl fb).newBlock ctx stmt (Nat.add_zero _)
  have g2 := g1.addEdge cur fb.blocks.length (by omega)
  obtain ⟨fb3, h3, g3, e3⟩ := g2.walk (m := fb.blocks.length + 1) ht fb.blocks.length
    (by omega) (by omega)
  obtain ⟨fb4, h4, g4⟩ := g3.newBlock (m := fb.blocks.length + 1 + k) ctx e.1 (by omega)
  have g5 := g4.addEdge cur (fb.blocks.length + 1 + k) (by omega)
  obtain ⟨fb6, h6, g6, -⟩ := g5.walk (m := fb.blocks.length + 1 + k + 1) he
    (fb.blocks.length + 1 + k) (by omega) (by omega)
  obtain ⟨fb7, h7, g7⟩ := g6.newBlock (m := fb.blocks.length + 1 + k + 1) ctx stmt (by omega)
  have g8 := g7.addEdge (endB (fb.blocks.length + 1) fb.blocks.length)
    (fb.blocks.length + 1 + k + 1) (by omega)
  have g9 := g8.addEdge (fb.blocks.length + 1 + k) (fb.blocks.length + 1 + k + 1) (by omega)
  refine ⟨_, ?_, g9.cast (by omega) (by simp), by show _ + _ < _; omega⟩
  unfold walkIf
  simp only [hkids, h1, walkOptional, h3, h4, h6, h7]

/-- `for` and `while`. -/
theorem WalksAs.loop {b : Node × Walker} (hkids : loopBody kids true = some b)
    (hb : WalksAs b.2 k endB es) :
    WalksAs (walkLoop ctx stmt kids) (k + 3) (fun n _ => n + 2 + k)
      (fun n cur => [(cur, n), (n, n + 1)] ++ es (n + 2) (n + 1)
        ++ [(endB (n + 2) (n + 1), n), (n, n + 2 + k)]) := by
  intro fb cur hcur
  obtain ⟨fb1, h1, g1⟩ := (Grows.refl fb).newBlock ctx stmt (Nat.add_zero _)
  have g2 := g1.addEdge cur fb.blocks.length (by omega)
  obtain ⟨fb3, h3, g3⟩ := g2.newBlock (m := fb.blocks.length + 1) ctx stmt (by omega)
  have g4 := g3.addEdge fb.blocks.length (fb.blocks.length + 1) (by omega)
  obtain ⟨fb5, h5, g5, e5⟩ := g4.walk (m := fb.blocks.length + 2) hb
    (fb.blocks.length + 1) (by omega) (by omega)
  have g6 := g5.addEdge (endB (fb.blocks.length + 2) (fb.blocks.length + 1)) fb.blocks.length
    (by omega)
  obtain ⟨fb7, h7, g7⟩ := g6.newBlock (m := fb.blocks.length + 2 + k) ctx stmt (by omega)
  have g8 := g7.addEdge fb.blocks.length (fb.blocks.length + 2 + k) (by omega)
  refine ⟨_, ?_, g8.cast (by omega) (by simp), by show _ + _ < _; omega⟩
  unfold walkLoop
  simp only [hkids, h1, walkOptional, h3, h5, h7]

/-- `do`. -/
theorem WalksAs.doLoop {b : Node × Walker} (hkids : loopBody kids false = some b)
    (hb : WalksAs b.2 k endB es) :
    WalksAs (walkDo ctx stmt kids) (k + 3) (fun n _ => n + 1 + k + 1)
      (fun n cur => (cur, n) :: es (n + 1) n
        ++ [(endB (n + 1) n, n + 1 + k), (n + 1 + k, n), (n + 1 + k, n + 1 + k + 1)]) := by
  intro fb cur hcur
  obtain ⟨fb1, h1, g1⟩ := (Grows.refl fb).newBlock ctx stmt (Nat.add_zero _)
  have g2 := g1.addEdge cur fb.blocks.length (by omega)
  obtain ⟨fb3, h3, g3, e3⟩ := g2.walk (m := fb.blocks.length + 1) hb fb.blocks.length
    (by omega) (by omega)
  obtain ⟨fb4, h4, g4⟩ := g3.newBlock (m := fb.blocks.length + 1 + k) ctx stmt (by omega)
  have g5 := g4.addEdge (endB (fb.blocks.length + 1) fb.blocks.length)
    (fb.blocks.length + 1 + k) (by omega)
  have g6 := g5.addEdge (fb.blocks.length + 1 + k) fb.blocks.length (by omega)
  obtain ⟨fb7, h7, g7⟩ := g6.newBlock (m := fb.blocks.length + 1 + k + 1) ctx stmt (by omega)
  have g8 := g7.addEdge (fb.blocks.length + 1 + k) (fb.blocks.length + 1 + k + 1) (by omega)
  refine ⟨_, ?_, g8.cast (by omega) (by simp), by show _ + _ < _; omega⟩
  unfold walkDo
  simp only [hkids, h1, walkOptional, h3, h4, h7]

/-- Without case statements among them, no child of a `switch` is walked. -/
theorem walkCases_none {d j : Nat} {fb : FunctionBuilder} : ∀ {l : Kids},
    (∀ kid ∈ l, (kid.1.kind = .caseStatement || kid.1.kind = .defaultStatement) = false) →
      walkCases ctx d j l fb = fb := by
  intro l
  induction l with
  | nil => intro _; rfl
  | cons kid l ih =>
      intro hl
      rw [walkCases, if_neg (by rw [hl kid (List.mem_cons_self ..)]; decide)]
      exact ih fun kid' h => hl kid' (List.mem_cons_of_mem _ h)

/-- `switch` without direct case children. -/
theorem WalksAs.switch (hkids : kids.named.isEmpty = false)
    (hcase : ∀ kid ∈ kids.named,
      (kid.1.kind = .caseStatement || kid.1.kind = .defaultStatement) = false) :
    WalksAs (walkSwitch ctx stmt kids) 1 (fun n _ => n) (fun _ _ => []) := by
  intro fb cur hcur
  obtain ⟨fb1, h1, g1⟩ := (Grows.refl fb).newBlock ctx stmt (Nat.add_zero _)
  refine ⟨fb1, ?_, g1, Nat.lt_succ_self _⟩
  unfold walkSwitch
  simp only [h1, hkids, walkCases_none hcase, Bool.false_eq_true, if_false]

/-- One statement, then the others. -/
theorem WalksAs.seq {w : Walker} {ks : Kids} {l : Nat} {endC : Nat → Nat → Nat}
    {fs : Nat → Nat → List (Nat × Nat)} {n : Node} (hw : WalksAs w k endB es)
    (hks : WalksAs (walkAll ks) l endC fs) :
    WalksAs (walkAll ((n, w) :: ks)) (k + l) (fun n cur => endC (n + k) (endB n cur))
      (fun n cur => es n cur ++ fs (n + k) (endB n cur)) := by
  intro fb cur hcur
  obtain ⟨fb1, h1, g1, e1⟩ := hw fb cur hcur
  obtain ⟨fb2, h2, g2, e2⟩ := g1.walk hks (endB fb.blocks.length cur) rfl e1
  refine ⟨fb2, ?_, g2, by show endC _ _ < _; omega⟩
  simp only [walkAll, h1, h2]

end Walkers

/-! ## §4. The layout of a statement. -/

/-- The child in a field, with its walk. -/
theorem byField_walkChildren (ctx : BuildContext) (f : Field) (ns : List Node) :
    (walkChildren ctx ns).byField f
      = (ns.find? fun n => decide (n.info.field = some f)).map
          fun n => (n, walkStatement ctx n) := by
  induction ns with
  | nil => rfl
  | cons n ns ih =>
      unfold walkChildren Kids.byField
      rw [List.find?_cons, List.find?_cons]
      cases decide (n.info.field = some f) with
      | true => rfl
      | false => exact ih

theorem optionalNode_find_ne {f : Field} {g : Option Field} (hg : g ≠ some f)
    (part : Option PlainNode) (ns : List Node) :
    (optionalNode g part ++ ns).find? (fun n => decide (n.info.field = some f))
      = ns.find? fun n => decide (n.info.field = some f) := by
  cases part with
  | none => rfl
  | some n => simp [optionalNode, hg]

section Parts

variable (ctx : BuildContext) (cond : PlainNode) (body : Stmt)

/-- A node with its walk. -/
def withWalk (n : Node) : Node × Walker := (n, walkStatement ctx n)

theorem ifArms_ifThen :
    ifArms (walkChildren ctx [cond.toNode (some .condition), body.toNode (some .consequence)])
      = (some (withWalk ctx (body.toNode (some .consequence))), none) := by
  simp [ifArms, byField_walkChildren, withWalk]

theorem ifArms_ifElse (elseSpan : ByteSpan) (elseStmt : Stmt) :
    ifArms (walkChildren ctx [cond.toNode (some .condition), body.toNode (some .consequence),
        namedNode .elseClause (some .alternative) elseSpan [elseStmt.toNode none]])
      = (some (withWalk ctx (body.toNode (some .consequence))),
          some (withWalk ctx
            (namedNode .elseClause (some .alternative) elseSpan [elseStmt.toNode none]))) := by
  simp [ifArms, byField_walkChildren, namedNode, withWalk]

theorem loopBody_for (init test update : Option PlainNode) :
    loopBody (walkChildren ctx
        (optionalNode (some (.other "initializer".toList)) init
          ++ optionalNode (some .condition) test
          ++ optionalNode (some (.other "update".toList)) update ++ [body.toNode (some .body)])) true
      = some (withWalk ctx (body.toNode (some .body))) := by
  simp only [loopBody, byField_walkChildren, List.append_assoc]
  rw [optionalNode_find_ne (by decide), optionalNode_find_ne (by decide),
    optionalNode_find_ne (by decide)]
  simp [withWalk]

theorem loopBody_while :
    loopBody (walkChildren ctx [cond.toNode (some .condition), body.toNode (some .body)]) true
      = some (withWalk ctx (body.toNode (some .body))) := by
  simp [loopBody, byField_walkChildren, withWalk]

theorem loopBody_do :
    loopBody (walkChildren ctx [body.toNode (some .body), cond.toNode (some .condition)]) false
      = some (withWalk ctx (body.toNode (some .body))) := by
  simp [loopBody, byField_walkChildren, withWalk]

/-- The cases of a `switch` are not among its children. -/
theorem switch_noCase (bodySpan : ByteSpan) (cases : List Node) :
    ∀ kid ∈ (walkChildren ctx [cond.toNode (some .condition),
        namedNode .compoundStatement (some .body) bodySpan cases]).named,
      (kid.1.kind = .caseStatement || kid.1.kind = .defaultStatement) = false := by
  intro kid hkid
  simp only [walkChildren, Kids.named, List.mem_filter, List.mem_cons, List.not_mem_nil,
    or_false] at hkid
  obtain ⟨rfl | rfl, -⟩ := hkid
  · have hc := cond.plain
    rw [PlainNode.toNode_kind]
    cases hk : cond.node.kind <;> simp_all [NodeKind.isControl]
  · rfl

theorem named_walkChildren_cons (s : Stmt) (ss : Stmts) :
    (walkChildren ctx (Stmts.cons s ss).toNodes).named
      = withWalk ctx (s.toNode none) :: (walkChildren ctx ss.toNodes).named := by
  simp [Stmts.toNodes, walkChildren, Kids.named, withWalk]

end Parts

/-- A subtree without barriers has none in its children. -/
theorem detectBarrier_children {bytes : Text} {i : NodeInfo} {cs : List Node}
    (h : detectBarrier bytes (.mk i cs) = false) : detectBarrierAny bytes cs = false := by
  rw [detectBarrier, Bool.or_eq_false_iff] at h
  exact h.2

theorem detectBarrier_mem {bytes : Text} {n : Node} (hn : n.kind ≠ .functionDefinition) :
    ∀ {ns : List Node}, detectBarrierAny bytes ns = false → n ∈ ns →
      detectBarrier bytes n = false := by
  intro ns h hmem
  induction ns with
  | nil => exact absurd hmem List.not_mem_nil
  | cons m ns ih =>
      rw [detectBarrierAny, Bool.or_eq_false_iff] at h
      cases hmem with
      | head =>
          rw [if_neg hn] at h
          exact h.1
      | tail _ hmem => exact ih h.2 hmem

/-- A statement that is neither a `return` nor holds a barrier goes to the
dispatch on its kind. -/
theorem WalksAs.ofKind {ctx : BuildContext} {i : NodeInfo} {cs : List Node} {k : Nat}
    {endB : Nat → Nat → Nat} {es : Nat → Nat → List (Nat × Nat)}
    (hret : i.kind ≠ .returnStatement) (hbar : detectBarrier ctx.bytes (.mk i cs) = false)
    (h : WalksAs (walkByKind ctx (.mk i cs) (walkChildren ctx cs)) k endB es) :
    WalksAs (walkStatement ctx (.mk i cs)) k endB es := by
  have := h.afterDiscard ((Node.mk i cs).text ctx.bytes)
  unfold walkStatement walkKind
  simp only [Node.kind_mk, if_neg hret, hbar, Bool.false_eq_true, if_false]
  exact this

theorem walkByKind_default {ctx : BuildContext} {i : NodeInfo} {cs : List Node} {kids : Kids}
    (hkind : i.kind.isControl = false ∨ i.kind = .breakStatement ∨ i.kind = .continueStatement
      ∨ i.kind = .caseStatement ∨ i.kind = .elseClause) :
    walkByKind ctx (.mk i cs) kids = fun fb cur => (fb, cur) := by
  funext fb cur
  unfold walkByKind
  cases hk : i.kind <;> simp_all [NodeKind.isControl]

/-- A kind without a branch of its own. -/
theorem WalksAs.default {ctx : BuildContext} {stmt : Node}
    (hkind : stmt.kind.isControl = false ∨ stmt.kind = .breakStatement
      ∨ stmt.kind = .continueStatement ∨ stmt.kind = .caseStatement ∨ stmt.kind = .elseClause)
    (hbar : detectBarrier ctx.bytes stmt = false) :
    WalksAs (walkStatement ctx stmt) 0 (fun _ cur => cur) (fun _ _ => []) := by
  obtain ⟨i, cs⟩ := stmt
  rw [Node.kind_mk] at hkind
  refine WalksAs.ofKind ?_ hbar ?_
  · intro hk
    rw [hk] at hkind
    simp [NodeKind.isControl] at hkind
  · rw [walkByKind_default hkind]
    exact WalksAs.stay

/-- `return`. -/
theorem WalksAs.returns {ctx : BuildContext} {i : NodeInfo} {cs : List Node}
    (hkind : i.kind = .returnStatement) :
    WalksAs (walkStatement ctx (.mk i cs)) 1 (fun n _ => n) (fun _ _ => []) := by
  intro fb cur hcur
  obtain ⟨fb1, h1, g1⟩ := (grows_markExit fb cur).newBlock ctx (.mk i cs) (Nat.add_zero _)
  refine ⟨fb1, ?_, g1, Nat.lt_succ_self _⟩
  unfold walkStatement walkKind
  simp only [Node.kind_mk, if_pos hkind, h1]

mutual
/-- **The layout of a statement.** -/
theorem walkStatement_layout (ctx : BuildContext) (s : Stmt) (f : Option Field)
    (h : detectBarrier ctx.bytes (s.toNode f) = false) :
    WalksAs (walkStatement ctx (s.toNode f)) (size s) (fun n cur => endBlock n cur s)
      (fun n cur => edges n cur s) := by
  cases s with
  | simple n =>
      refine WalksAs.default (.inl ?_) h
      exact (congrArg NodeKind.isControl (n.toNode_kind f)).trans n.plain
  | returnStmt span value => exact WalksAs.returns rfl
  | breakStmt span => exact WalksAs.default (.inr (.inl rfl)) h
  | continueStmt span => exact WalksAs.default (.inr (.inr (.inl rfl))) h
  | caseStmt span label body => exact WalksAs.default (.inr (.inr (.inr (.inl rfl)))) h
  | compound span body =>
      exact WalksAs.ofKind nofun h (walkStatements_layout ctx body (detectBarrier_children h))
  | ifThen span cond thenStmt =>
      have ht := walkStatement_layout ctx thenStmt (some .consequence)
        (detectBarrier_mem (thenStmt.toNode_kind_ne _) (detectBarrier_children h) (by simp))
      exact WalksAs.ofKind nofun h (WalksAs.ifThen (ifArms_ifThen ctx cond thenStmt) ht)
  | ifElse span cond thenStmt elseSpan elseStmt =>
      have ht := walkStatement_layout ctx thenStmt (some .consequence)
        (detectBarrier_mem (thenStmt.toNode_kind_ne _) (detectBarrier_children h) (by simp))
      have he := detectBarrier_mem (n := namedNode .elseClause (some .alternative) elseSpan
        [elseStmt.toNode none]) nofun (detectBarrier_children h) (by simp)
      exact WalksAs.ofKind nofun h (WalksAs.ifElse
        (ifArms_ifElse ctx cond thenStmt elseSpan elseStmt) ht
        (WalksAs.default (.inr (.inr (.inr (.inr rfl)))) he))
  | forLoop span init cond update body =>
      have hb := walkStatement_layout ctx body (some .body)
        (detectBarrier_mem (body.toNode_kind_ne _) (detectBarrier_children h) (by simp))
      exact WalksAs.ofKind nofun h (WalksAs.loop (loopBody_for ctx body init cond update) hb)
  | whileLoop span cond body =>
      have hb := walkStatement_layout ctx body (some .body)
        (detectBarrier_mem (body.toNode_kind_ne _) (detectBarrier_children h) (by simp))
      exact WalksAs.ofKind nofun h (WalksAs.loop (loopBody_while ctx cond body) hb)
  | doLoop span body cond =>
      have hb := walkStatement_layout ctx body (some .body)
        (detectBarrier_mem (body.toNode_kind_ne _) (detectBarrier_children h) (by simp))
      exact WalksAs.ofKind nofun h (WalksAs.doLoop (loopBody_do ctx cond body) hb)
  | switch span cond bodySpan body =>
      exact WalksAs.ofKind nofun h
        (WalksAs.switch (by simp [walkChildren, Kids.named]) (switch_noCase ctx cond bodySpan _))

theorem walkStatements_layout (ctx : BuildContext) (ss : Stmts)
    (h : detectBarrierAny ctx.bytes ss.toNodes = false) :
    WalksAs (walkAll (walkChildren ctx ss.toNodes).named) (sizeAll ss)
      (fun n cur => endBlockAll n cur ss) (fun n cur => edgesAll n cur ss) := by
  cases ss with
  | nil => exact WalksAs.stay
  | cons s ss =>
      have hs := walkStatement_layout ctx s none
        (detectBarrier_mem (s.toNode_kind_ne _) h (List.mem_cons_self ..))
      have hss := walkStatements_layout ctx ss (by
        rw [Stmts.toNodes, detectBarrierAny, Bool.or_eq_false_iff] at h
        exact h.2)
      rw [named_walkChildren_cons]
      exact hs.seq hss
end

end ShaderClippy.ControlFlow
