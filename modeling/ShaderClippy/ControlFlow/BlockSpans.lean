/-
  ShaderClippy.ControlFlow.BlockSpans

  **WHERE A STATEMENT IS LOCATED.**

  The blocks of a function carry the spans of the control statements they
  are made for (`blockSpans`), so the smallest spans around a simple
  statement are those of the control statement directly around it, and the
  first of these blocks is where it is located (`homes_located`), whatever the
  cursor was when it was walked.
-/
import Mathlib
import ShaderClippy.ControlFlow.CfgQuery
import ShaderClippy.ControlFlow.Walked
import ShaderClippy.Lib.FirstSmallest

namespace ShaderClippy.ControlFlow

/-! ## §1. The spans of the new blocks. -/

section Spans

variable (source : SourceId)

mutual
/-- The spans of the blocks that the walk creates, in order. -/
def blockSpans : Stmt → List Span
  | .simple _ | .breakStmt _ | .continueStmt _ | .caseStmt .. => []
  | .returnStmt span _ | .switch span .. => [⟨source, span⟩]
  | .compound _ body => blockSpansAll body
  | .ifThen span _ thenStmt => ⟨source, span⟩ :: (blockSpans thenStmt ++ [⟨source, span⟩])
  | .ifElse span _ thenStmt elseSpan _ =>
      ⟨source, span⟩ :: (blockSpans thenStmt ++ [⟨source, elseSpan⟩, ⟨source, span⟩])
  | .forLoop span _ _ _ body | .whileLoop span _ body =>
      [⟨source, span⟩, ⟨source, span⟩] ++ (blockSpans body ++ [⟨source, span⟩])
  | .doLoop span body _ =>
      ⟨source, span⟩ :: (blockSpans body ++ [⟨source, span⟩, ⟨source, span⟩])

def blockSpansAll : Stmts → List Span
  | .nil => []
  | .cons s ss => blockSpans s ++ blockSpansAll ss
end

mutual
theorem length_blockSpans (s : Stmt) : (blockSpans source s).length = size s := by
  cases s with
  | simple _ | breakStmt _ | continueStmt _ | caseStmt _ _ _ => rfl
  | returnStmt _ _ | switch _ _ _ _ => rfl
  | compound span body => exact length_blockSpansAll body
  | ifThen span cond thenStmt | ifElse span cond thenStmt _ _ =>
      simp [blockSpans, size, length_blockSpans thenStmt]
  | forLoop span _ _ _ body | whileLoop span _ body | doLoop span body _ =>
      simp [blockSpans, size, length_blockSpans body]
      try omega

theorem length_blockSpansAll (ss : Stmts) : (blockSpansAll source ss).length = sizeAll ss := by
  cases ss with
  | nil => rfl
  | cons s ss =>
      rw [blockSpansAll, List.length_append, length_blockSpans s, length_blockSpansAll ss, sizeAll]
end

end Spans

/-- The spans of the blocks in the builder. -/
def FunctionBuilder.spans (fb : FunctionBuilder) : List Span := fb.blocks.map (·.span)

section Builder

variable (fb : FunctionBuilder) (ctx : BuildContext)

@[simp] theorem spans_newBlock (anchor : Node) :
    (fb.newBlock ctx anchor).2.spans = fb.spans ++ [anchor.span ctx.source] := by
  simp [FunctionBuilder.spans, FunctionBuilder.newBlock, BasicBlock.fresh]

@[simp] theorem spans_addEdge (u v : Nat) : (fb.addEdge u v).spans = fb.spans :=
  map_span_modify fb.blocks _ fun _ => rfl

@[simp] theorem spans_markExit (b : Nat) : (fb.markExit b).spans = fb.spans :=
  map_span_modify fb.blocks _ fun _ => rfl

@[simp] theorem spans_markBarrier (b : Nat) : (fb.markBarrier b).spans = fb.spans :=
  map_span_modify fb.blocks _ fun _ => rfl

@[simp] theorem spans_markDiscard (text : Text) (b : Nat) :
    (fb.markDiscard text b).spans = fb.spans := by
  unfold FunctionBuilder.markDiscard
  split
  · exact map_span_modify fb.blocks b fun _ => rfl
  · rfl

end Builder

/-- The walker creates blocks with these spans. -/
def Appends (w : Walker) (l : List Span) : Prop := ∀ fb cur, (w fb cur).1.spans = fb.spans ++ l

section Walkers

variable {ctx : BuildContext} {stmt : Node} {kids : Kids} {l : List Span}

theorem appends_nil : Appends (fun fb cur => (fb, cur)) [] :=
  fun fb _ => (List.append_nil fb.spans).symm

theorem Appends.ifThen {t : Node × Walker} (hkids : ifArms kids = (some t, none))
    (ht : Appends t.2 l) :
    Appends (walkIf ctx stmt kids)
      (stmt.span ctx.source :: (l ++ [stmt.span ctx.source])) := by
  intro fb cur
  unfold walkIf
  rw [hkids]
  simp only [walkOptional, spans_addEdge, spans_newBlock, ht _ _, List.append_assoc,
    List.cons_append, List.nil_append]

theorem Appends.ifElse {t e : Node × Walker} (hkids : ifArms kids = (some t, some e))
    (ht : Appends t.2 l) (he : Appends e.2 []) :
    Appends (walkIf ctx stmt kids)
      (stmt.span ctx.source :: (l ++ [e.1.span ctx.source, stmt.span ctx.source])) := by
  intro fb cur
  unfold walkIf
  rw [hkids]
  simp only [walkOptional, spans_addEdge, spans_newBlock, ht _ _, he _ _, List.append_assoc,
    List.cons_append, List.nil_append]

theorem Appends.loop {b : Node × Walker} (hkids : loopBody kids true = some b)
    (hb : Appends b.2 l) :
    Appends (walkLoop ctx stmt kids)
      ([stmt.span ctx.source, stmt.span ctx.source] ++ (l ++ [stmt.span ctx.source])) := by
  intro fb cur
  unfold walkLoop
  rw [hkids]
  simp only [walkOptional, spans_addEdge, spans_newBlock, hb _ _, List.append_assoc,
    List.cons_append, List.nil_append]

theorem Appends.doLoop {b : Node × Walker} (hkids : loopBody kids false = some b)
    (hb : Appends b.2 l) :
    Appends (walkDo ctx stmt kids)
      (stmt.span ctx.source :: (l ++ [stmt.span ctx.source, stmt.span ctx.source])) := by
  intro fb cur
  unfold walkDo
  rw [hkids]
  simp only [walkOptional, spans_addEdge, spans_newBlock, hb _ _, List.append_assoc,
    List.cons_append, List.nil_append]

theorem Appends.switch (hkids : kids.named.isEmpty = false)
    (hcase : ∀ kid ∈ kids.named,
      (kid.1.kind = .caseStatement || kid.1.kind = .defaultStatement) = false) :
    Appends (walkSwitch ctx stmt kids) [stmt.span ctx.source] := by
  intro fb cur
  unfold walkSwitch
  simp only [hkids, walkCases_none hcase, Bool.false_eq_true, if_false, spans_newBlock]

theorem Appends.seq {w : Walker} {ks : Kids} {l' : List Span} {n : Node} (hw : Appends w l)
    (hks : Appends (walkAll ks) l') : Appends (walkAll ((n, w) :: ks)) (l ++ l') := by
  intro fb cur
  rw [walkAll]
  simp only [hks _ _, hw _ _, List.append_assoc]

end Walkers

/-- A statement that is neither a `return` nor holds a barrier. -/
theorem Appends.ofKind {ctx : BuildContext} {i : NodeInfo} {cs : List Node} {l : List Span}
    (hret : i.kind ≠ .returnStatement) (hbar : detectBarrier ctx.bytes (.mk i cs) = false)
    (h : Appends (walkByKind ctx (.mk i cs) (walkChildren ctx cs)) l) :
    Appends (walkStatement ctx (.mk i cs)) l := by
  intro fb cur
  -- marking a discard changes no span
  have hdiscard := h (fb.markDiscard ((Node.mk i cs).text ctx.bytes) cur) cur
  rw [spans_markDiscard] at hdiscard
  unfold walkStatement walkKind
  rw [Node.kind_mk, if_neg hret, hbar]
  exact hdiscard

/-- A kind without a branch of its own. -/
theorem Appends.default {ctx : BuildContext} {stmt : Node}
    (hkind : stmt.kind.isControl = false ∨ stmt.kind = .breakStatement
      ∨ stmt.kind = .continueStatement ∨ stmt.kind = .caseStatement ∨ stmt.kind = .elseClause)
    (hbar : detectBarrier ctx.bytes stmt = false) : Appends (walkStatement ctx stmt) [] := by
  obtain ⟨i, cs⟩ := stmt
  rw [Node.kind_mk] at hkind
  refine Appends.ofKind ?_ hbar ?_
  · intro hk
    rw [hk] at hkind
    simp [NodeKind.isControl] at hkind
  · rw [walkByKind_default hkind]
    exact appends_nil

mutual
/-- **The blocks of a statement carry its spans.** -/
theorem walkStatement_appends (ctx : BuildContext) (s : Stmt) (f : Option Field)
    (h : detectBarrier ctx.bytes (s.toNode f) = false) :
    Appends (walkStatement ctx (s.toNode f)) (blockSpans ctx.source s) := by
  cases s with
  | simple n =>
      refine Appends.default (.inl ?_) h
      exact (congrArg NodeKind.isControl (n.toNode_kind f)).trans n.plain
  | returnStmt span value =>
      intro fb cur
      show ((fb.markExit cur).newBlock ctx _).2.spans = _
      rw [spans_newBlock, spans_markExit]
      rfl
  | breakStmt span => exact Appends.default (.inr (.inl rfl)) h
  | continueStmt span => exact Appends.default (.inr (.inr (.inl rfl))) h
  | caseStmt span label body => exact Appends.default (.inr (.inr (.inr (.inl rfl)))) h
  | compound span body =>
      exact Appends.ofKind nofun h (walkStatements_appends ctx body (detectBarrier_children h))
  | ifThen span cond thenStmt =>
      have ht := walkStatement_appends ctx thenStmt (some .consequence)
        (detectBarrier_mem (thenStmt.toNode_kind_ne _) (detectBarrier_children h) (by simp))
      exact Appends.ofKind nofun h (Appends.ifThen (ifArms_ifThen ctx cond thenStmt) ht)
  | ifElse span cond thenStmt elseSpan elseStmt =>
      have ht := walkStatement_appends ctx thenStmt (some .consequence)
        (detectBarrier_mem (thenStmt.toNode_kind_ne _) (detectBarrier_children h) (by simp))
      -- the else clause is a node of a kind without a branch: it creates nothing
      have he := detectBarrier_mem (n := namedNode .elseClause (some .alternative) elseSpan
        [elseStmt.toNode none]) nofun (detectBarrier_children h) (by simp)
      exact Appends.ofKind nofun h (Appends.ifElse
        (ifArms_ifElse ctx cond thenStmt elseSpan elseStmt) ht
        (Appends.default (.inr (.inr (.inr (.inr rfl)))) he))
  | forLoop span init cond update body =>
      have hb := walkStatement_appends ctx body (some .body)
        (detectBarrier_mem (body.toNode_kind_ne _) (detectBarrier_children h) (by simp))
      exact Appends.ofKind nofun h (Appends.loop (loopBody_for ctx body init cond update) hb)
  | whileLoop span cond body =>
      have hb := walkStatement_appends ctx body (some .body)
        (detectBarrier_mem (body.toNode_kind_ne _) (detectBarrier_children h) (by simp))
      exact Appends.ofKind nofun h (Appends.loop (loopBody_while ctx cond body) hb)
  | doLoop span body cond =>
      have hb := walkStatement_appends ctx body (some .body)
        (detectBarrier_mem (body.toNode_kind_ne _) (detectBarrier_children h) (by simp))
      exact Appends.ofKind nofun h (Appends.doLoop (loopBody_do ctx cond body) hb)
  | switch span cond bodySpan body =>
      exact Appends.ofKind nofun h
        (Appends.switch (by simp [walkChildren, Kids.named]) (switch_noCase ctx cond bodySpan _))

theorem walkStatements_appends (ctx : BuildContext) (ss : Stmts)
    (h : detectBarrierAny ctx.bytes ss.toNodes = false) :
    Appends (walkAll (walkChildren ctx ss.toNodes).named) (blockSpansAll ctx.source ss) := by
  cases ss with
  | nil => exact appends_nil
  | cons s ss =>
      have hs := walkStatement_appends ctx s none
        (detectBarrier_mem (s.toNode_kind_ne _) h (List.mem_cons_self ..))
      have hss := walkStatements_appends ctx ss (by
        rw [Stmts.toNodes, detectBarrierAny, Bool.or_eq_false_iff] at h
        exact h.2)
      rw [named_walkChildren_cons]
      exact hs.seq hss
end

/-- The blocks of a function whose body holds no barrier. -/
theorem buildFunction_spans (st : CfgStorage) (functionId : Nat) {fnNode : Node}
    (source : SourceId) {bytes : Text} {body : Stmt} {f : Option Field}
    (herr : fnNode.hasError = false) (hbody : functionBody fnNode = some (body.toNode f))
    (hbar : detectBarrier bytes (body.toNode f) = false) :
    (buildFunction st functionId fnNode source bytes).1.blocks.map (·.span)
      = fnNode.span source :: blockSpans source body := by
  let ctx : BuildContext := ⟨functionId, source, bytes⟩
  have hwalk := walkStatement_appends ctx body f hbar (FunctionBuilder.newBlock ctx ⟨[], st⟩ fnNode).2 0
  rw [spans_newBlock] at hwalk
  unfold buildFunction
  simp only [herr, Bool.false_eq_true, if_false, hbody]
  exact (spans_markExit ..).trans hwalk

/-! ## §2. Spans around a span. -/

theorem contains_iff {outer inner : Span} : contains outer inner = true
    ↔ outer.source = inner.source ∧ outer.bytes.lo ≤ inner.bytes.lo
      ∧ inner.bytes.hi ≤ outer.bytes.hi := by
  unfold contains
  split
  next h => simp [h]
  next h =>
    rw [not_not] at h
    simp [h]

theorem spanSize_eq {span : Span} (h : span.bytes.lo ≤ span.bytes.hi)
    (hsize : span.bytes.hi < 2 ^ 32) : spanSize span = span.bytes.hi - span.bytes.lo := by
  unfold spanSize
  omega

/-- The blocks with the spans `l`, numbered from `n` on, are searched for `x`:
it is in none of them and stays at `home`, or it is in the first of the
smallest, which lies between `lo` and `hi`. -/
def Located (x : Span) (l : List Span) (lo hi n : Nat) (home h : Option Nat) : Prop :=
  (h = home ∧ ∀ outer ∈ l, contains outer x = false)
    ∨ ∃ k span, h = some (n + k)
        ∧ FirstSmallest (fun outer => contains outer x = true) spanSize l k span
        ∧ lo ≤ span.bytes.lo ∧ span.bytes.lo ≤ span.bytes.hi ∧ span.bytes.hi ≤ hi

section Located

variable {x : Span} {l l' : List Span} {lo hi n : Nat} {home h : Option Nat}

theorem Located.mono {lo' hi' : Nat} (hl : Located x l lo hi n home h) (hlo : lo' ≤ lo)
    (hhi : hi ≤ hi') : Located x l lo' hi' n home h := by
  rcases hl with hl | ⟨k, span, hk, hfirst, h1, h2, h3⟩
  · exact .inl hl
  · exact .inr ⟨k, span, hk, hfirst, by omega, h2, by omega⟩

/-- More blocks, none of them around `x`. -/
theorem Located.append (hl : Located x l lo hi n home h)
    (hl' : ∀ outer ∈ l', contains outer x = false) : Located x (l ++ l') lo hi n home h := by
  rcases hl with ⟨hhome, hnone⟩ | ⟨k, span, hk, hfirst, hspan⟩
  · refine .inl ⟨hhome, fun outer hmem => ?_⟩
    rcases List.mem_append.mp hmem with hmem | hmem
    · exact hnone outer hmem
    · exact hl' outer hmem
  · -- the first of the smallest stays the first
    refine .inr ⟨k, span, hk, hfirst.append fun outer hmem hin => ?_, hspan⟩
    rw [hl' outer hmem] at hin
    exact absurd hin (by decide)

theorem Located.prepend (hl : Located x l lo hi (n + l'.length) home h)
    (hl' : ∀ outer ∈ l', contains outer x = false) : Located x (l' ++ l) lo hi n home h := by
  rcases hl with ⟨hhome, hnone⟩ | ⟨k, span, hk, hfirst, hspan⟩
  · refine .inl ⟨hhome, fun outer hmem => ?_⟩
    rcases List.mem_append.mp hmem with hmem | hmem
    · exact hl' outer hmem
    · exact hnone outer hmem
  · refine .inr ⟨l'.length + k, span, by rw [hk, Nat.add_assoc],
      hfirst.prepend fun outer hmem hin => ?_, hspan⟩
    rw [hl' outer hmem] at hin
    exact absurd hin (by decide)

/-- **An arm**: the blocks `l` of an arm between blocks of the control
statement around it, whose span is larger. -/
theorem Located.arm {control : Span} {pre post : List Span}
    (hl : Located x l lo hi (n + (pre.length + 1)) (some n) h)
    (hx : contains control x = true)
    (hpre : ∀ outer ∈ pre, contains outer x = true → outer = control)
    (hpost : ∀ outer ∈ post, contains outer x = true → outer = control)
    (hlo : control.bytes.lo < lo) (hhi : hi ≤ control.bytes.hi)
    (hsize : control.bytes.hi < 2 ^ 32) (hspan : control.bytes.lo ≤ control.bytes.hi) :
    Located x (control :: pre ++ (l ++ post)) control.bytes.lo control.bytes.hi n home h := by
  rcases hl with ⟨hhome, hnone⟩ | ⟨k, span, hk, hfirst, h1, h2, h3⟩
  · -- no block of the arm is around `x`: the first block of the control statement
    refine .inr ⟨0, control, hhome, FirstSmallest.head hx fun outer hmem hin => ?_,
      Nat.le_refl _, hspan, Nat.le_refl _⟩
    rcases List.mem_append.mp hmem with hmem | hmem
    · exact Nat.le_of_eq (congrArg spanSize (hpre outer hmem hin).symm)
    · rcases List.mem_append.mp hmem with hmem | hmem
      · rw [hnone outer hmem] at hin
        exact absurd hin (by decide)
      · exact Nat.le_of_eq (congrArg spanSize (hpost outer hmem hin).symm)
  · -- the smallest block of the arm is smaller than the control statement
    have hlt : spanSize span < spanSize control := by
      rw [spanSize_eq h2 (by omega), spanSize_eq hspan hsize]
      omega
    refine .inr ⟨(control :: pre).length + k, span, ?_,
      (hfirst.append fun outer hmem hin => ?_).prepend fun outer hmem hin => ?_,
      by omega, h2, by omega⟩
    · rw [hk, List.length_cons, Nat.add_assoc]
    · rw [hpost outer hmem hin]
      omega
    · rcases List.mem_cons.mp hmem with rfl | hmem
      · exact hlt
      · rw [hpre outer hmem hin]
        exact hlt

end Located

/-! ## §3. The blocks of a statement lie inside it. -/

/-- The blocks of an arm and the blocks that the control statement has in
front of it and behind it. -/
theorem arm_inside {source : SourceId} {s t : Stmt} {f g : Option Field} {pre post : List Span}
    (hw : (s.toNode f).wellSpanned = true) (ht : t.toNode g ∈ (s.toNode f).children)
    (harm : (t.toNode g).wellSpanned = true →
      ∀ outer ∈ blockSpans source t, t.start ≤ outer.bytes.lo ∧ outer.bytes.hi ≤ t.stop)
    (hpre : ∀ outer ∈ pre, s.start ≤ outer.bytes.lo ∧ outer.bytes.hi ≤ s.stop)
    (hpost : ∀ outer ∈ post, s.start ≤ outer.bytes.lo ∧ outer.bytes.hi ≤ s.stop) :
    ∀ outer ∈ pre ++ (blockSpans source t ++ post),
      s.start ≤ outer.bytes.lo ∧ outer.bytes.hi ≤ s.stop := by
  intro outer hmem
  obtain ⟨htw, hlo, hhi⟩ := Stmt.child_inside hw ht
  rcases List.mem_append.mp hmem with hmem | hmem
  · exact hpre outer hmem
  · rcases List.mem_append.mp hmem with hmem | hmem
    · -- the arm lies inside the control statement
      have := harm htw outer hmem
      omega
    · exact hpost outer hmem

mutual
theorem blockSpans_inside (source : SourceId) (s : Stmt) {f : Option Field}
    (hw : (s.toNode f).wellSpanned = true) :
    ∀ outer ∈ blockSpans source s, s.start ≤ outer.bytes.lo ∧ outer.bytes.hi ≤ s.stop := by
  intro outer hmem
  cases s with
  | simple _ | breakStmt _ | continueStmt _ | caseStmt _ _ _ => exact absurd hmem List.not_mem_nil
  | returnStmt span _ | switch span _ _ _ =>
      rw [List.mem_singleton.mp hmem]
      exact ⟨Nat.le_refl _, Nat.le_refl _⟩
  | compound span body =>
      simp only [Stmt.toNode, namedNode, Node.wellSpanned, Bool.and_eq_true] at hw
      exact blockSpansAll_inside source body hw.2 outer hmem
  | ifThen span cond thenStmt =>
      have hown : ∀ outer ∈ [(⟨source, span⟩ : Span)],
          span.lo ≤ outer.bytes.lo ∧ outer.bytes.hi ≤ span.hi := by simp
      exact arm_inside (g := some .consequence) hw (by simp [Stmt.toNode, namedNode])
        (blockSpans_inside source thenStmt) hown hown outer hmem
  | ifElse span cond thenStmt elseSpan elseStmt =>
      obtain ⟨-, helse⟩ := Node.wellSpanned_child
        (c := namedNode .elseClause (some .alternative) elseSpan [elseStmt.toNode none]) hw
        (by simp)
      have hown : ∀ outer ∈ [(⟨source, span⟩ : Span)],
          span.lo ≤ outer.bytes.lo ∧ outer.bytes.hi ≤ span.hi := by simp
      have hclause : ∀ outer ∈ [(⟨source, elseSpan⟩ : Span), ⟨source, span⟩],
          span.lo ≤ outer.bytes.lo ∧ outer.bytes.hi ≤ span.hi :=
        List.forall_mem_cons.mpr ⟨helse, hown⟩
      exact arm_inside (g := some .consequence) hw (by simp [Stmt.toNode, namedNode])
        (blockSpans_inside source thenStmt) hown hclause outer hmem
  | forLoop span _ _ _ body | whileLoop span _ body =>
      have hown : ∀ outer ∈ [(⟨source, span⟩ : Span)],
          span.lo ≤ outer.bytes.lo ∧ outer.bytes.hi ≤ span.hi := by simp
      have hheader : ∀ outer ∈ [(⟨source, span⟩ : Span), ⟨source, span⟩],
          span.lo ≤ outer.bytes.lo ∧ outer.bytes.hi ≤ span.hi := by simp
      exact arm_inside (g := some .body) hw (by simp [Stmt.toNode, namedNode])
        (blockSpans_inside source body) hheader hown outer hmem
  | doLoop span body cond =>
      have hown : ∀ outer ∈ [(⟨source, span⟩ : Span)],
          span.lo ≤ outer.bytes.lo ∧ outer.bytes.hi ≤ span.hi := by simp
      have hfooter : ∀ outer ∈ [(⟨source, span⟩ : Span), ⟨source, span⟩],
          span.lo ≤ outer.bytes.lo ∧ outer.bytes.hi ≤ span.hi := by simp
      exact arm_inside (g := some .body) hw (by simp [Stmt.toNode, namedNode])
        (blockSpans_inside source body) hown hfooter outer hmem

theorem blockSpansAll_inside (source : SourceId) (ss : Stmts) {lo hi : Nat}
    (hw : orderedIn lo hi ss.toNodes = true) :
    ∀ outer ∈ blockSpansAll source ss, lo ≤ outer.bytes.lo ∧ outer.bytes.hi ≤ hi := by
  intro outer hmem
  cases ss with
  | nil => exact absurd hmem List.not_mem_nil
  | cons s ss =>
      obtain ⟨hlo, hhi, hs, hrest⟩ := orderedIn_cons.mp hw
      have hspan := Node.lo_le_hi hs
      rw [Stmt.toNode_lo] at hlo hspan
      rw [Stmt.toNode_hi] at hhi hspan hrest
      rcases List.mem_append.mp hmem with hmem | hmem
      · have := blockSpans_inside source s hs outer hmem
        omega
      · have := blockSpansAll_inside source ss hrest outer hmem
        omega
end

/-! ## §4. Where a simple statement is located. -/

mutual
/-- The simple statements, each with its home: the else clause or the first
block of the control statement around it, or `home` where there is none. -/
def homes (n : Nat) (home : Option Nat) : Stmt → List (PlainNode × Option Nat)
  | .simple m => [(m, home)]
  | .compound _ body => homesAll n home body
  | .ifThen _ _ thenStmt => homes (n + 1) (some n) thenStmt
  | .ifElse _ _ thenStmt _ elseStmt =>
      homes (n + 1) (some n) thenStmt
        ++ elseStmt.simples.map fun m => (m, some (n + 1 + size thenStmt))
  | .forLoop _ _ _ _ body | .whileLoop _ _ body => homes (n + 2) (some n) body
  | .doLoop _ body _ => homes (n + 1) (some n) body
  | .switch _ _ _ body => body.simples.map fun m => (m, some n)
  | .caseStmt _ _ body => body.simples.map fun m => (m, home)
  | .returnStmt .. | .breakStmt _ | .continueStmt _ => []

def homesAll (n : Nat) (home : Option Nat) : Stmts → List (PlainNode × Option Nat)
  | .nil => []
  | .cons s ss => homes n home s ++ homesAll (n + size s) home ss
end

theorem map_fst_home (l : List PlainNode) (h : Option Nat) :
    (l.map fun m => (m, h)).map Prod.fst = l := by
  rw [List.map_map]
  exact List.map_id l

mutual
/-- They are all simple statements. -/
theorem homes_simples (n : Nat) (home : Option Nat) (s : Stmt) :
    (homes n home s).map Prod.fst = s.simples := by
  cases s with
  | simple _ | returnStmt _ _ | breakStmt _ | continueStmt _ => rfl
  | compound span body => exact homesAll_simples n home body
  | ifThen span cond thenStmt => exact homes_simples (n + 1) (some n) thenStmt
  | ifElse span cond thenStmt elseSpan elseStmt =>
      show (homes (n + 1) (some n) thenStmt ++ elseStmt.simples.map _).map Prod.fst
        = thenStmt.simples ++ elseStmt.simples
      rw [List.map_append, homes_simples (n + 1) (some n) thenStmt, map_fst_home]
  | forLoop span _ _ _ body | whileLoop span _ body =>
      exact homes_simples (n + 2) (some n) body
  | doLoop span body _ => exact homes_simples (n + 1) (some n) body
  | switch span cond bodySpan body | caseStmt span label body => exact map_fst_home body.simples _

theorem homesAll_simples (n : Nat) (home : Option Nat) (ss : Stmts) :
    (homesAll n home ss).map Prod.fst = ss.simples := by
  cases ss with
  | nil => rfl
  | cons s ss =>
      show (homes n home s ++ homesAll (n + size s) home ss).map Prod.fst = s.simples ++ ss.simples
      rw [List.map_append, homes_simples n home s, homesAll_simples (n + size s) home ss]
end

theorem mem_homes {n : Nat} {home : Option Nat} {s : Stmt} {m : PlainNode} {h : Option Nat}
    (hm : (m, h) ∈ homes n home s) : m ∈ s.simples := by
  rw [← homes_simples n home s]
  exact List.mem_map_of_mem hm

theorem mem_homesAll {n : Nat} {home : Option Nat} {ss : Stmts} {m : PlainNode} {h : Option Nat}
    (hm : (m, h) ∈ homesAll n home ss) : m ∈ ss.simples := by
  rw [← homesAll_simples n home ss]
  exact List.mem_map_of_mem hm

/-- Every simple statement has a home or none. -/
theorem exists_home (n : Nat) (home : Option Nat) {ss : Stmts} {m : PlainNode}
    (hm : m ∈ ss.simples) : ∃ h, (m, h) ∈ homesAll n home ss := by
  rw [← homesAll_simples n home ss] at hm
  obtain ⟨⟨_, h⟩, hmem, rfl⟩ := List.mem_map.mp hm
  exact ⟨h, hmem⟩

mutual
/-- The visits are at home there. -/
theorem visits_homes {n cur : Nat} {home : Option Nat} (s : Stmt) :
    ∀ v ∈ visits n cur home s, (v.1, v.2.2) ∈ homes n home s := by
  intro v hv
  cases s with
  | simple m =>
      rw [List.mem_singleton.mp hv]
      exact List.mem_singleton_self _
  | compound span body => exact visitsAll_homes body v hv
  | ifThen span cond thenStmt => exact visits_homes thenStmt v hv
  | ifElse span cond thenStmt elseSpan elseStmt =>
      exact List.mem_append_left _ (visits_homes thenStmt v hv)
  | forLoop span init cond update body => exact visits_homes body v hv
  | whileLoop span cond body => exact visits_homes body v hv
  | doLoop span body cond => exact visits_homes body v hv
  | _ => exact absurd hv List.not_mem_nil

theorem visitsAll_homes {n cur : Nat} {home : Option Nat} (ss : Stmts) :
    ∀ v ∈ visitsAll n cur home ss, (v.1, v.2.2) ∈ homesAll n home ss := by
  intro v hv
  cases ss with
  | nil => exact absurd hv List.not_mem_nil
  | cons s ss =>
      rcases List.mem_append.mp hv with hv | hv
      · exact List.mem_append_left _ (visits_homes s v hv)
      · exact List.mem_append_right _ (visitsAll_homes ss v hv)
end

/-- The span of a simple statement. -/
theorem contains_simple {source : SourceId} {span : ByteSpan} {m : PlainNode}
    (h : span.lo ≤ m.node.info.lo ∧ m.node.info.hi ≤ span.hi) :
    contains ⟨source, span⟩ (m.node.span source) = true :=
  contains_iff.mpr ⟨rfl, h⟩

/-- A block that begins behind a simple statement is not around it. -/
theorem not_contains_before {source : SourceId} {outer : Span} {m : PlainNode}
    (h : m.node.info.lo < outer.bytes.lo) : contains outer (m.node.span source) = false := by
  refine Bool.eq_false_iff.mpr fun hcont => ?_
  obtain ⟨-, h1, -⟩ := contains_iff.mp hcont
  change outer.bytes.lo ≤ m.node.info.lo at h1
  omega

/-- A block that ends in front of one is not around it either. -/
theorem not_contains_after {source : SourceId} {outer : Span} {m : PlainNode}
    (h : outer.bytes.hi < m.node.info.hi) : contains outer (m.node.span source) = false := by
  refine Bool.eq_false_iff.mpr fun hcont => ?_
  obtain ⟨-, -, h2⟩ := contains_iff.mp hcont
  change m.node.info.hi ≤ outer.bytes.hi at h2
  omega

/-- In an else clause, between two blocks of its `if`. -/
theorem Located.elseClause {source : SourceId} {span elseSpan : ByteSpan} {l : List Span}
    {m : PlainNode} {n : Nat} {home : Option Nat}
    (hl : ∀ outer ∈ l, contains outer (m.node.span source) = false)
    (hin : elseSpan.lo ≤ m.node.info.lo ∧ m.node.info.hi ≤ elseSpan.hi)
    (hlo : span.lo < elseSpan.lo) (hhi : elseSpan.hi ≤ span.hi) (hle : elseSpan.lo ≤ elseSpan.hi)
    (hsize : span.hi < 2 ^ 32) :
    Located (m.node.span source) (⟨source, span⟩ :: (l ++ [⟨source, elseSpan⟩, ⟨source, span⟩]))
      span.lo span.hi n home (some (n + 1 + l.length)) := by
  -- the else clause begins behind the `if`
  have hsmall : spanSize ⟨source, elseSpan⟩ < spanSize ⟨source, span⟩ := by
    rw [spanSize_eq hle (show elseSpan.hi < 2 ^ 32 by omega),
      spanSize_eq (show span.lo ≤ span.hi by omega) hsize]
    show elseSpan.hi - elseSpan.lo < span.hi - span.lo
    omega
  have htail : FirstSmallest (fun outer => contains outer (m.node.span source) = true) spanSize
      [⟨source, elseSpan⟩, ⟨source, span⟩] 0 ⟨source, elseSpan⟩ := by
    refine FirstSmallest.head (contains_simple hin) fun outer hmem _ => ?_
    rw [List.mem_singleton.mp hmem]
    exact Nat.le_of_lt hsmall
  -- the blocks of the then arm are in front of it in the list
  have hmiddle : FirstSmallest (fun outer => contains outer (m.node.span source) = true) spanSize
      (l ++ [⟨source, elseSpan⟩, ⟨source, span⟩]) (l.length + 0) ⟨source, elseSpan⟩ := by
    refine htail.prepend fun outer hmem hcont => ?_
    rw [hl outer hmem] at hcont
    exact absurd hcont (by decide)
  exact .inr ⟨l.length + 1, ⟨source, elseSpan⟩, by rw [Nat.add_assoc, Nat.add_comm l.length],
    hmiddle.cons fun _ => hsmall, Nat.le_of_lt hlo, hle, hhi⟩

/-- In an arm `t` of the control statement `s`, whose other blocks either have
its span or are not around the simple statement. -/
theorem Located.ofArm {source : SourceId} {s t : Stmt} {f : Option Field} (g : Option Field)
    (span : ByteSpan) (pre post : List Span) {m : PlainNode} {n : Nat} {home h : Option Nat}
    (hs : span = ⟨s.start, s.stop⟩) (hw : (s.toNode f).wellSpanned = true)
    (ht : t.toNode g ∈ (s.toNode f).children) (hstart : span.lo < t.start)
    (hsize : span.hi < 2 ^ 32) (hin : span.lo ≤ m.node.info.lo ∧ m.node.info.hi ≤ span.hi)
    (hpre : ∀ outer ∈ pre, contains outer (m.node.span source) = true → outer = ⟨source, span⟩)
    (hpost : ∀ outer ∈ post, contains outer (m.node.span source) = true → outer = ⟨source, span⟩)
    (hloc : (t.toNode g).wellSpanned = true → t.stop < 2 ^ 32 →
      Located (m.node.span source) (blockSpans source t) t.start t.stop (n + (pre.length + 1))
        (some n) h) :
    Located (m.node.span source) (⟨source, span⟩ :: pre ++ (blockSpans source t ++ post))
      span.lo span.hi n home h := by
  subst hs
  obtain ⟨htw, -, hhi⟩ := Stmt.child_inside hw ht
  have hspan := Node.lo_le_hi hw
  rw [Stmt.toNode_lo, Stmt.toNode_hi] at hspan
  have hstop : t.stop < 2 ^ 32 := Nat.lt_of_le_of_lt hhi hsize
  exact Located.arm (hloc htw hstop) (contains_simple hin) hpre hpost hstart hhi hsize hspan

mutual
/-- **Where a simple statement is located**: its home is the first of the
smallest blocks around its span. -/
theorem homes_located (source : SourceId) (s : Stmt) {f : Option Field}
    (hw : (s.toNode f).wellSpanned = true) (hsp : s.spaced = true) (hsize : s.stop < 2 ^ 32)
    {n : Nat} {home : Option Nat} {m : PlainNode} {h : Option Nat}
    (hm : (m, h) ∈ homes n home s) (hne : m.node.info.lo < m.node.info.hi) :
    Located (m.node.span source) (blockSpans source s) s.start s.stop n home h := by
  have hin := Stmt.simples_inside hw (mem_homes hm)
  cases s with
  | simple m' =>
      cases List.mem_singleton.mp hm
      exact .inl ⟨rfl, fun outer h => absurd h List.not_mem_nil⟩
  | returnStmt _ _ | breakStmt _ | continueStmt _ => exact absurd hm List.not_mem_nil
  | caseStmt span label body =>
      obtain ⟨_, -, heq⟩ := List.mem_map.mp hm
      cases heq
      exact .inl ⟨rfl, fun outer h => absurd h List.not_mem_nil⟩
  | switch span cond bodySpan body =>
      obtain ⟨_, -, heq⟩ := List.mem_map.mp hm
      cases heq
      -- the only block is that of the `switch`
      refine .inr ⟨0, ⟨source, span⟩, rfl, FirstSmallest.head (contains_simple hin) ?_,
        Nat.le_refl _, Node.lo_le_hi hw, Nat.le_refl _⟩
      exact fun outer hmem => absurd hmem List.not_mem_nil
  | compound span body =>
      simp only [Stmt.toNode, namedNode, Node.wellSpanned, Bool.and_eq_true] at hw
      have hb := homesAll_located source body hw.2 hsp hsize hm hne
      exact hb.mono (Nat.le_succ _) (Nat.le_refl _)
  | ifThen span cond thenStmt =>
      simp only [Stmt.spaced, Bool.and_eq_true, decide_eq_true_eq] at hsp
      exact Located.ofArm (some .consequence) span [] [⟨source, span⟩] rfl hw
        (by simp [Stmt.toNode, namedNode]) hsp.1 hsize hin (by simp) (by simp)
        fun ht hstop => homes_located source thenStmt ht hsp.2 hstop hm hne
  | ifElse span cond thenStmt elseSpan elseStmt =>
      obtain ⟨ht, hlo, hhi⟩ := Stmt.child_inside (t := thenStmt) (g := some .consequence) hw
        (by simp [Stmt.toNode, namedNode])
      obtain ⟨hew, helse⟩ := Node.wellSpanned_child
        (c := namedNode .elseClause (some .alternative) elseSpan [elseStmt.toNode none]) hw
        (by simp)
      have hspan := Node.lo_le_hi hw
      have hafter := Stmt.elseClause_after hw
      have hthenSpan := Node.lo_le_hi ht
      rw [Stmt.toNode_lo, Stmt.toNode_hi] at hthenSpan
      simp only [Stmt.spaced, Bool.and_eq_true, decide_eq_true_eq] at hsp
      change span.hi < 2 ^ 32 at hsize
      change thenStmt.stop ≤ span.hi at hhi
      rcases List.mem_append.mp hm with hm | hm
      · -- in the then arm, in front of the else clause
        have hthen := Stmt.simples_inside ht (mem_homes hm)
        refine Located.ofArm (some .consequence) span [] [⟨source, elseSpan⟩, ⟨source, span⟩] rfl hw
          (by simp [Stmt.toNode, namedNode]) hsp.1.1.1 hsize hin (by simp)
          (fun outer hmem hcont => ?_)
          fun ht hstop => homes_located source thenStmt ht hsp.1.1.2 hstop hm hne
        simp only [List.mem_cons, List.not_mem_nil, or_false] at hmem
        rcases hmem with rfl | rfl
        · rw [not_contains_before (show m.node.info.lo < elseSpan.lo by omega)] at hcont
          exact absurd hcont (by decide)
        · rfl
      · -- in the else clause, behind the blocks of the then arm
        obtain ⟨m', hmem, heq⟩ := List.mem_map.mp hm
        cases heq
        obtain ⟨hcw, hclo, hchi⟩ := Node.wellSpanned_child hew (List.mem_singleton_self _)
        rw [Stmt.toNode_lo] at hclo
        rw [Stmt.toNode_hi] at hchi
        have hmin := Stmt.simples_inside hcw hmem
        have helseSpan := Node.lo_le_hi hew
        change elseSpan.lo ≤ elseStmt.start at hclo
        change elseStmt.stop ≤ elseSpan.hi at hchi
        change elseSpan.lo ≤ elseSpan.hi at helseSpan
        rw [← length_blockSpans source thenStmt]
        refine Located.elseClause (fun outer hmem => ?_) ⟨by omega, by omega⟩ (by omega) helse.2
          helseSpan hsize
        have hbefore := blockSpans_inside source thenStmt ht outer hmem
        exact not_contains_after (by omega)
  | forLoop span _ _ _ body | whileLoop span _ body =>
      simp only [Stmt.spaced, Bool.and_eq_true, decide_eq_true_eq] at hsp
      exact Located.ofArm (some .body) span [⟨source, span⟩] [⟨source, span⟩] rfl hw
        (by simp [Stmt.toNode, namedNode]) hsp.1 hsize hin (by simp) (by simp)
        fun hb hstop => homes_located source body hb hsp.2 hstop hm hne
  | doLoop span body cond =>
      simp only [Stmt.spaced, Bool.and_eq_true, decide_eq_true_eq] at hsp
      exact Located.ofArm (some .body) span [] [⟨source, span⟩, ⟨source, span⟩] rfl hw
        (by simp [Stmt.toNode, namedNode]) hsp.1 hsize hin (by simp) (by simp)
        fun hb hstop => homes_located source body hb hsp.2 hstop hm hne

theorem homesAll_located (source : SourceId) (ss : Stmts) {lo hi lo' : Nat}
    (hw : orderedIn lo hi ss.toNodes = true) (hsp : ss.spacedFrom lo' = true)
    (hsize : hi < 2 ^ 32) {n : Nat} {home : Option Nat} {m : PlainNode} {h : Option Nat}
    (hm : (m, h) ∈ homesAll n home ss) (hne : m.node.info.lo < m.node.info.hi) :
    Located (m.node.span source) (blockSpansAll source ss) (lo' + 1) hi n home h := by
  cases ss with
  | nil => exact absurd hm List.not_mem_nil
  | cons s ss =>
      obtain ⟨hlo, hhi, hs, hrest⟩ := orderedIn_cons.mp hw
      simp only [Stmts.spacedFrom, Bool.and_eq_true, decide_eq_true_eq] at hsp
      obtain ⟨⟨hstart, hssp⟩, hrsp⟩ := hsp
      rw [Stmt.toNode_hi] at hhi hrest
      rcases List.mem_append.mp hm with hm | hm
      · -- the blocks of the later statements come after it
        have hin := Stmt.simples_inside hs (mem_homes hm)
        have hloc := homes_located source s hs hssp (by omega) hm hne
        refine (hloc.mono hstart hhi).append fun outer hmem => ?_
        have hafter := blockSpansAll_inside source ss hrest outer hmem
        exact not_contains_before (by omega)
      · -- the blocks of the first statement come before it
        have hin := Stmts.simples_inside hrest (mem_homesAll hm)
        have hloc := homesAll_located source ss hrest hrsp hsize hm hne
        rw [← length_blockSpans source s] at hloc
        refine hloc.prepend fun outer hmem => ?_
        have hbefore := blockSpans_inside source s hs outer hmem
        exact not_contains_after (by omega)
end

end ShaderClippy.ControlFlow
