/-
  ShaderClippy.ControlFlow.DiscardMarks

  **WHICH BLOCKS ARE MARKED WITH A DISCARD.**

  `walk_statement` looks for `discard` and `clip(` in the whole text of every
  statement that it walks, a compound one with all that is in it, and marks the
  block that the cursor is on when the statement begins. In a body without
  barriers these blocks are `discards` (`buildFunction_discards`).
-/
import ShaderClippy.ControlFlow.Barrier

namespace ShaderClippy.ControlFlow

/-! ## §1. The marked blocks. -/

section Discards

variable (bytes : Text)

/-- The block of the cursor, if the text of the statement says so. -/
def markAt (span : ByteSpan) (cur : Nat) : List Nat :=
  if mentionsDiscard (textAt bytes span.lo span.hi) then [cur] else []

mutual
/-- The blocks that the walk marks. -/
def discards (n cur : Nat) : Stmt → List Nat
  | .simple m => markAt bytes ⟨m.node.info.lo, m.node.info.hi⟩ cur
  | .returnStmt .. => []
  | .breakStmt span | .continueStmt span | .switch span .. | .caseStmt span .. =>
      markAt bytes span cur
  | .compound span body => markAt bytes span cur ++ discardsAll n cur body
  | .ifThen span _ thenStmt => markAt bytes span cur ++ discards (n + 1) n thenStmt
  | .ifElse span _ thenStmt elseSpan _ =>
      markAt bytes span cur
        ++ (discards (n + 1) n thenStmt ++ markAt bytes elseSpan (n + 1 + size thenStmt))
  | .forLoop span _ _ _ body | .whileLoop span _ body =>
      markAt bytes span cur ++ discards (n + 2) (n + 1) body
  | .doLoop span body _ => markAt bytes span cur ++ discards (n + 1) n body

def discardsAll (n cur : Nat) : Stmts → List Nat
  | .nil => []
  | .cons s ss => discards n cur s ++ discardsAll (n + size s) (endBlock n cur s) ss
end

end Discards

/-- The discard flag of a block in the builder. -/
def FunctionBuilder.containsDiscard (fb : FunctionBuilder) (b : Nat) : Bool :=
  match fb.blocks[b]? with
  | some block => block.containsDiscard
  | none => false

section Builder

variable (fb : FunctionBuilder) (ctx : BuildContext)

/-- A change of a block that keeps its discard flag. -/
theorem containsDiscard_modify (i : Nat) {f : BasicBlock → BasicBlock}
    (hf : ∀ block, (f block).containsDiscard = block.containsDiscard) (b : Nat) :
    FunctionBuilder.containsDiscard { fb with blocks := fb.blocks.modify i f } b
      = fb.containsDiscard b := by
  unfold FunctionBuilder.containsDiscard
  simp only [List.getElem?_modify]
  cases fb.blocks[b]? with
  | none => rfl
  | some block => by_cases hib : i = b <;> simp [hib, hf]

@[simp] theorem containsDiscard_addEdge (u v b : Nat) :
    (fb.addEdge u v).containsDiscard b = fb.containsDiscard b :=
  containsDiscard_modify fb u (f := fun block => { block with successors := block.successors ++ [v] })
    (fun _ => rfl) b

@[simp] theorem containsDiscard_markExit (i b : Nat) :
    (fb.markExit i).containsDiscard b = fb.containsDiscard b :=
  containsDiscard_modify fb i (f := fun block => { block with isExit := true }) (fun _ => rfl) b

@[simp] theorem containsDiscard_newBlock (anchor : Node) (b : Nat) :
    (fb.newBlock ctx anchor).2.containsDiscard b = fb.containsDiscard b := by
  unfold FunctionBuilder.containsDiscard
  show (match (fb.blocks ++ [_])[b]? with | some block => block.containsDiscard | none => false) = _
  by_cases hlt : b < fb.blocks.length
  · rw [List.getElem?_append_left hlt]
  · rw [List.getElem?_append_right (by omega), List.getElem?_eq_none (by omega : fb.blocks.length ≤ b)]
    by_cases heq : b = fb.blocks.length
    · rw [heq, Nat.sub_self]
      rfl
    · rw [List.getElem?_eq_none (by simp; omega)]

/-- The mark is set on the block of the cursor. -/
theorem containsDiscard_markDiscard (text : Text) {cur : Nat} (hcur : cur < fb.blocks.length)
    (b : Nat) :
    (fb.markDiscard text cur).containsDiscard b
      = (fb.containsDiscard b || decide (b ∈ if mentionsDiscard text then [cur] else [])) := by
  unfold FunctionBuilder.markDiscard
  split
  · unfold FunctionBuilder.containsDiscard
    simp only [List.getElem?_modify, List.mem_singleton]
    by_cases hb : cur = b
    · subst hb
      rw [List.getElem?_eq_getElem hcur]
      simp
    · rw [decide_eq_false (fun h => hb h.symm), Bool.or_false]
      cases fb.blocks[b]? with
      | none => rfl
      | some block => simp [hb]
  · simp

theorem length_markDiscard (text : Text) (cur : Nat) :
    (fb.markDiscard text cur).blocks.length = fb.blocks.length :=
  (grows_markDiscard fb text cur).length

end Builder

/-! ## §2. What a walker marks. -/

/-- The walker marks the blocks `ds n cur` and no other. -/
def Marks (w : Walker) (ds : Nat → Nat → List Nat) : Prop :=
  ∀ fb cur, cur < fb.blocks.length → ∀ b,
    (w fb cur).1.containsDiscard b = (fb.containsDiscard b || decide (b ∈ ds fb.blocks.length cur))

section Walkers

variable {ctx : BuildContext} {stmt : Node} {kids : Kids} {k : Nat} {endB : Nat → Nat → Nat}
  {es : Nat → Nat → List (Nat × Nat)} {ds ds' : Nat → Nat → List Nat}

theorem marks_nil : Marks (fun fb cur => (fb, cur)) fun _ _ => [] := by
  intro fb cur _ b
  simp

theorem Marks.ifThen {t : Node × Walker} (hkids : ifArms kids = (some t, none))
    (ht : Marks t.2 ds) : Marks (walkIf ctx stmt kids) fun n _ => ds (n + 1) n := by
  intro fb cur hcur b
  unfold walkIf
  rw [hkids]
  simp only [walkOptional, containsDiscard_addEdge, containsDiscard_newBlock]
  rw [ht _ _ (by simp [FunctionBuilder.newBlock])]
  simp only [containsDiscard_addEdge, containsDiscard_newBlock, length_addEdge, length_newBlock]
  rfl

theorem Marks.ifElse {t e : Node × Walker} (hkids : ifArms kids = (some t, some e))
    (ht : Marks t.2 ds) (hw : WalksAs t.2 k endB es) (he : Marks e.2 ds') :
    Marks (walkIf ctx stmt kids) fun n _ =>
      ds (n + 1) n ++ ds' (n + 1 + k + 1) (n + 1 + k) := by
  intro fb cur hcur b
  obtain ⟨fb1, h1, g1⟩ := (Grows.refl fb).newBlock ctx stmt (Nat.add_zero _)
  have g2 := g1.addEdge cur fb.blocks.length (by omega)
  obtain ⟨fb3, h3, g3, -⟩ := g2.walk (m := fb.blocks.length + 1) hw fb.blocks.length
    (by omega) (by omega)
  have hmarks := ht (fb1.addEdge cur fb.blocks.length) fb.blocks.length
    (by rw [g2.length]; omega) b
  rw [h3, g2.length, containsDiscard_addEdge] at hmarks
  have hstart : fb1.containsDiscard b = fb.containsDiscard b := by
    have h := containsDiscard_newBlock fb ctx stmt b
    rw [h1] at h
    exact h
  have hlen : fb3.blocks.length = fb.blocks.length + 1 + k := by
    rw [g3.length]
    omega
  unfold walkIf
  rw [hkids]
  simp only [walkOptional, containsDiscard_addEdge, containsDiscard_newBlock, h1, h3]
  rw [he _ _ (by simp [FunctionBuilder.newBlock])]
  simp only [containsDiscard_addEdge, containsDiscard_newBlock, length_addEdge, length_newBlock,
    hmarks, hstart, hlen, List.mem_append, Bool.decide_or, Bool.or_assoc]
  have hindex : (fb3.newBlock ctx e.1).1 = fb.blocks.length + 1 + k := hlen
  rw [hindex]

theorem Marks.loop {body : Node × Walker} (hkids : loopBody kids true = some body)
    (hb : Marks body.2 ds) : Marks (walkLoop ctx stmt kids) fun n _ => ds (n + 2) (n + 1) := by
  intro fb cur hcur b
  unfold walkLoop
  rw [hkids]
  simp only [walkOptional, containsDiscard_addEdge, containsDiscard_newBlock]
  rw [hb _ _ (by simp [FunctionBuilder.newBlock])]
  simp only [containsDiscard_addEdge, containsDiscard_newBlock, length_addEdge, length_newBlock]
  have hindex : (((fb.newBlock ctx stmt).2.addEdge cur (fb.newBlock ctx stmt).1).newBlock ctx stmt).1
      = fb.blocks.length + 1 := by
    show (FunctionBuilder.addEdge _ _ _).blocks.length = _
    rw [length_addEdge, length_newBlock]
  rw [hindex]

theorem Marks.doLoop {body : Node × Walker} (hkids : loopBody kids false = some body)
    (hb : Marks body.2 ds) : Marks (walkDo ctx stmt kids) fun n _ => ds (n + 1) n := by
  intro fb cur hcur b
  unfold walkDo
  rw [hkids]
  simp only [walkOptional, containsDiscard_addEdge, containsDiscard_newBlock]
  rw [hb _ _ (by simp [FunctionBuilder.newBlock])]
  simp only [containsDiscard_addEdge, containsDiscard_newBlock, length_addEdge, length_newBlock]
  rfl

theorem Marks.switch (hkids : kids.named.isEmpty = false)
    (hcase : ∀ kid ∈ kids.named,
      (kid.1.kind = .caseStatement || kid.1.kind = .defaultStatement) = false) :
    Marks (walkSwitch ctx stmt kids) fun _ _ => [] := by
  intro fb cur _ b
  unfold walkSwitch
  simp [hkids, walkCases_none hcase]

/-- One statement, then the others. -/
theorem Marks.seq {w : Walker} {ks : Kids} {n : Node} (hw : Marks w ds) (hl : WalksAs w k endB es)
    (hks : Marks (walkAll ks) ds') :
    Marks (walkAll ((n, w) :: ks)) fun n cur => ds n cur ++ ds' (n + k) (endB n cur) := by
  intro fb cur hcur b
  obtain ⟨fb1, h1, g1, e1⟩ := hl fb cur hcur
  have hfirst := hw fb cur hcur b
  rw [h1] at hfirst
  have hrest := hks fb1 (endB fb.blocks.length cur) (by rw [g1.length]; exact e1) b
  rw [g1.length, hfirst] at hrest
  rw [walkAll]
  simp only [h1, hrest, List.mem_append, Bool.decide_or, Bool.or_assoc]

end Walkers

/-- A statement that is neither a `return` nor holds a barrier marks the block
of the cursor first. -/
theorem Marks.ofKind {ctx : BuildContext} {i : NodeInfo} {cs : List Node}
    {ds : Nat → Nat → List Nat} (hret : i.kind ≠ .returnStatement)
    (hbar : detectBarrier ctx.bytes (.mk i cs) = false)
    (h : Marks (walkByKind ctx (.mk i cs) (walkChildren ctx cs)) ds) :
    Marks (walkStatement ctx (.mk i cs)) fun n cur =>
      markAt ctx.bytes ⟨i.lo, i.hi⟩ cur ++ ds n cur := by
  intro fb cur hcur b
  have hdiscard := h (fb.markDiscard ((Node.mk i cs).text ctx.bytes) cur) cur
    (by rw [length_markDiscard]; exact hcur) b
  rw [length_markDiscard, containsDiscard_markDiscard fb _ hcur] at hdiscard
  unfold walkStatement walkKind
  rw [Node.kind_mk, if_neg hret, hbar]
  refine hdiscard.trans ?_
  simp only [markAt, List.mem_append, Bool.decide_or, Bool.or_assoc]
  rfl

/-- A kind without a branch of its own. -/
theorem Marks.default {ctx : BuildContext} {stmt : Node}
    (hkind : stmt.kind.isControl = false ∨ stmt.kind = .breakStatement
      ∨ stmt.kind = .continueStatement ∨ stmt.kind = .caseStatement ∨ stmt.kind = .elseClause)
    (hbar : detectBarrier ctx.bytes stmt = false) :
    Marks (walkStatement ctx stmt) fun _ cur =>
      markAt ctx.bytes ⟨stmt.info.lo, stmt.info.hi⟩ cur := by
  obtain ⟨i, cs⟩ := stmt
  rw [Node.kind_mk] at hkind
  have hret : i.kind ≠ .returnStatement := by
    intro hk
    rw [hk] at hkind
    simp [NodeKind.isControl] at hkind
  have hmarks : Marks (walkByKind ctx (.mk i cs) (walkChildren ctx cs)) fun _ _ => [] := by
    rw [walkByKind_default hkind]
    exact marks_nil
  have h := Marks.ofKind hret hbar hmarks
  simp only [List.append_nil] at h
  exact h

mutual
/-- **The blocks that a statement marks.** -/
theorem walkStatement_marks (ctx : BuildContext) (s : Stmt) (f : Option Field)
    (h : detectBarrier ctx.bytes (s.toNode f) = false) :
    Marks (walkStatement ctx (s.toNode f)) fun n cur => discards ctx.bytes n cur s := by
  cases s with
  | simple m =>
      have hplain := (congrArg NodeKind.isControl (m.toNode_kind f)).trans m.plain
      have hm := Marks.default (.inl hplain) h
      obtain ⟨hlo, hhi, -⟩ := Node.withField_spans m.node f
      unfold PlainNode.toNode at hm
      rw [hlo, hhi] at hm
      exact hm
  | returnStmt span value =>
      intro fb cur _ b
      show ((fb.markExit cur).newBlock ctx _).2.containsDiscard b = _
      rw [containsDiscard_newBlock, containsDiscard_markExit]
      simp [discards]
  | breakStmt span => exact Marks.default (.inr (.inl rfl)) h
  | continueStmt span => exact Marks.default (.inr (.inr (.inl rfl))) h
  | caseStmt span label body => exact Marks.default (.inr (.inr (.inr (.inl rfl)))) h
  | compound span body =>
      exact Marks.ofKind nofun h (walkStatements_marks ctx body (detectBarrier_children h))
  | ifThen span cond thenStmt =>
      have ht := walkStatement_marks ctx thenStmt (some .consequence)
        (detectBarrier_mem (thenStmt.toNode_kind_ne _) (detectBarrier_children h) (by simp))
      exact Marks.ofKind nofun h (Marks.ifThen (ifArms_ifThen ctx cond thenStmt) ht)
  | ifElse span cond thenStmt elseSpan elseStmt =>
      have hthen := detectBarrier_mem (thenStmt.toNode_kind_ne (some .consequence))
        (detectBarrier_children h) (by simp)
      have helse : detectBarrier ctx.bytes (namedNode .elseClause (some .alternative) elseSpan
          [elseStmt.toNode none]) = false :=
        detectBarrier_mem nofun (detectBarrier_children h) (by simp)
      exact Marks.ofKind nofun h (Marks.ifElse (ifArms_ifElse ctx cond thenStmt elseSpan elseStmt)
        (walkStatement_marks ctx thenStmt _ hthen) (walkStatement_layout ctx thenStmt _ hthen)
        (Marks.default (.inr (.inr (.inr (.inr rfl)))) helse))
  | forLoop span init cond update body =>
      have hb := walkStatement_marks ctx body (some .body)
        (detectBarrier_mem (body.toNode_kind_ne _) (detectBarrier_children h) (by simp))
      exact Marks.ofKind nofun h (Marks.loop (loopBody_for ctx body init cond update) hb)
  | whileLoop span cond body =>
      have hb := walkStatement_marks ctx body (some .body)
        (detectBarrier_mem (body.toNode_kind_ne _) (detectBarrier_children h) (by simp))
      exact Marks.ofKind nofun h (Marks.loop (loopBody_while ctx cond body) hb)
  | doLoop span body cond =>
      have hb := walkStatement_marks ctx body (some .body)
        (detectBarrier_mem (body.toNode_kind_ne _) (detectBarrier_children h) (by simp))
      exact Marks.ofKind nofun h (Marks.doLoop (loopBody_do ctx cond body) hb)
  | switch span cond bodySpan body =>
      have hw : Marks (walkStatement ctx ((Stmt.switch span cond bodySpan body).toNode f)) fun _ cur =>
          markAt ctx.bytes span cur ++ [] :=
        Marks.ofKind nofun h
          (Marks.switch (by simp [walkChildren, Kids.named]) (switch_noCase ctx cond bodySpan _))
      simp only [List.append_nil] at hw
      exact hw

theorem walkStatements_marks (ctx : BuildContext) (ss : Stmts)
    (h : detectBarrierAny ctx.bytes ss.toNodes = false) :
    Marks (walkAll (walkChildren ctx ss.toNodes).named) fun n cur =>
      discardsAll ctx.bytes n cur ss := by
  cases ss with
  | nil => exact marks_nil
  | cons s ss =>
      have hbar := detectBarrier_mem (s.toNode_kind_ne none) h (List.mem_cons_self ..)
      have hss := walkStatements_marks ctx ss (by
        rw [Stmts.toNodes, detectBarrierAny, Bool.or_eq_false_iff] at h
        exact h.2)
      rw [named_walkChildren_cons]
      exact (walkStatement_marks ctx s none hbar).seq (walkStatement_layout ctx s none hbar) hss
end

/-! ## §3. The blocks of a function. -/

/-- `contains_discard` of a block. -/
def CfgFunction.containsDiscard (fn : CfgFunction) (b : Nat) : Bool :=
  match fn.blocks[b]? with
  | some block => block.containsDiscard
  | none => false

/-- Only blocks are marked. -/
theorem CfgFunction.containsDiscard_lt {fn : CfgFunction} {b : Nat}
    (h : fn.containsDiscard b = true) : b < fn.blocks.length := by
  refine Nat.lt_of_not_le fun hge => ?_
  unfold CfgFunction.containsDiscard at h
  rw [List.getElem?_eq_none hge] at h
  cases h

/-- The marked blocks of a function whose body holds no barrier. -/
theorem buildFunction_discards (st : CfgStorage) (functionId : Nat) {fnNode : Node}
    (source : SourceId) {bytes : Text} {body : Stmt} {f : Option Field}
    (herr : fnNode.hasError = false) (hbody : functionBody fnNode = some (body.toNode f))
    (hbar : detectBarrier bytes (body.toNode f) = false) (b : Nat) :
    (buildFunction st functionId fnNode source bytes).1.containsDiscard b = true
      ↔ b ∈ discards bytes 1 0 body := by
  let ctx : BuildContext := ⟨functionId, source, bytes⟩
  have hwalk := walkStatement_marks ctx body f hbar (FunctionBuilder.newBlock ctx ⟨[], st⟩ fnNode).2 0
    (by simp) b
  have hnone : FunctionBuilder.containsDiscard ⟨[], st⟩ b = false := rfl
  rw [containsDiscard_newBlock, hnone, Bool.false_or, length_newBlock] at hwalk
  have hfn : (buildFunction st functionId fnNode source bytes).1.containsDiscard b
      = (walkStatement ctx (body.toNode f) (FunctionBuilder.newBlock ctx ⟨[], st⟩ fnNode).2 0).1.containsDiscard
          b := by
    unfold buildFunction
    simp only [herr, Bool.false_eq_true, if_false, hbody]
    exact containsDiscard_markExit ..
  rw [hfn, hwalk]
  exact decide_eq_true_iff

/-- Behind a barrier no block is marked. -/
theorem buildFunction_noDiscards (st : CfgStorage) (functionId : Nat) {fnNode : Node}
    (source : SourceId) {bytes : Text} {span : ByteSpan} {body : Stmts} {f : Option Field}
    (herr : fnNode.hasError = false)
    (hbody : functionBody fnNode = some ((Stmt.compound span body).toNode f))
    (hbar : detectBarrier bytes ((Stmt.compound span body).toNode f) = true) (b : Nat) :
    (buildFunction st functionId fnNode source bytes).1.containsDiscard b = false := by
  unfold CfgFunction.containsDiscard
  rw [buildFunction_barrier st functionId source herr hbody hbar]
  match b with
  | 0 => rfl
  | 1 => rfl
  | _ + 2 => rfl

end ShaderClippy.ControlFlow
