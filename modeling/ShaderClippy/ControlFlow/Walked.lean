/-
  ShaderClippy.ControlFlow.Walked

  **WHICH STATEMENTS `walk_statement` WALKS, AND ON WHICH BLOCK.**

  `calls` are the recursive calls that `walk_statement` makes on one
  statement, each with the state and the cursor it is made with; `Walked` is
  their closure. In a body without barriers the simple statements that are
  walked, with their cursors, are the `visits` (`walkStatement_reaches`):
  nothing inside an else arm or a `switch`.
-/
import ShaderClippy.ControlFlow.Layout
import ShaderClippy.Syntax.Spans

namespace ShaderClippy.ControlFlow

/-! ## §1. The recursive calls. -/

/-- A call of `walk_statement`: the statement, the state and the cursor. -/
abbrev Call := Node × FunctionBuilder × Nat

/-- The call on a child that may be null. -/
def optionalCall (kid : Option (Node × Walker)) (fb : FunctionBuilder) (current : Nat) :
    List Call :=
  match kid with
  | none => []
  | some k => [(k.1, fb, current)]

/-- The calls of `walkIf`. -/
def ifCalls (ctx : BuildContext) (stmt : Node) (kids : Kids) (fb : FunctionBuilder)
    (condBlock : Nat) : List Call :=
  let (thenNode, elseNode) := ifArms kids
  let (thenBlock, fb) := fb.newBlock ctx stmt
  let fb := fb.addEdge condBlock thenBlock
  let thenCall := optionalCall thenNode fb thenBlock
  let (fb, _) := walkOptional thenNode fb thenBlock
  match elseNode with
  | none => thenCall
  | some elseNode =>
      let (elseBlock, fb) := fb.newBlock ctx elseNode.1
      let fb := fb.addEdge condBlock elseBlock
      thenCall ++ [(elseNode.1, fb, elseBlock)]

/-- The call of `walkLoop`. -/
def loopCalls (ctx : BuildContext) (stmt : Node) (kids : Kids) (fb : FunctionBuilder)
    (preLoop : Nat) : List Call :=
  let (header, fb) := fb.newBlock ctx stmt
  let fb := fb.addEdge preLoop header
  let (body, fb) := fb.newBlock ctx stmt
  let fb := fb.addEdge header body
  optionalCall (loopBody kids true) fb body

/-- The call of `walkDo`. -/
def doCalls (ctx : BuildContext) (stmt : Node) (kids : Kids) (fb : FunctionBuilder)
    (preLoop : Nat) : List Call :=
  let (body, fb) := fb.newBlock ctx stmt
  let fb := fb.addEdge preLoop body
  optionalCall (loopBody kids false) fb body

/-- The calls of `walkCases`. -/
def caseCalls (ctx : BuildContext) (dispatch join : Nat) : Kids → FunctionBuilder → List Call
  | [], _ => []
  | k :: ks, fb =>
      if k.1.kind = .caseStatement || k.1.kind = .defaultStatement then
        let (caseBlock, fb) := fb.newBlock ctx k.1
        let fb := fb.addEdge dispatch caseBlock
        let (fb', caseEnd) := k.2 fb caseBlock
        (k.1, fb, caseBlock) :: caseCalls ctx dispatch join ks (fb'.addEdge caseEnd join)
      else caseCalls ctx dispatch join ks fb

/-- The calls of `walkAll`. -/
def allCalls : Kids → FunctionBuilder → Nat → List Call
  | [], _, _ => []
  | k :: ks, fb, current =>
      let (fb', current') := k.2 fb current
      (k.1, fb, current) :: allCalls ks fb' current'

/-- The calls of `walkByKind`. -/
def callsByKind (ctx : BuildContext) (stmt : Node) (kids : Kids) (fb : FunctionBuilder)
    (current : Nat) : List Call :=
  match stmt.kind with
  | .ifStatement => ifCalls ctx stmt kids fb current
  | .forStatement | .whileStatement => loopCalls ctx stmt kids fb current
  | .doStatement => doCalls ctx stmt kids fb current
  | .switchStatement =>
      let (join, fb) := fb.newBlock ctx stmt
      caseCalls ctx current join kids.named fb
  | .compoundStatement => allCalls kids.named fb current
  | _ => []

/-- The recursive calls of `walk_statement` on a statement. -/
def calls (ctx : BuildContext) : Node → FunctionBuilder → Nat → List Call
  | .mk i cs, fb, current =>
      if i.kind = .returnStatement then []
      else if detectBarrier ctx.bytes (.mk i cs) then []
      else
        callsByKind ctx (.mk i cs) (walkChildren ctx cs)
          (fb.markDiscard ((Node.mk i cs).text ctx.bytes) current) current

/-- The walk of `stmt` from a state with this cursor walks `target`, with the
cursor on `c`. -/
inductive Walked (ctx : BuildContext) (target : Node) (c : Nat) :
    Node → FunctionBuilder → Nat → Prop where
  | here {fb : FunctionBuilder} : Walked ctx target c target fb c
  | call {stmt kid : Node} {fb fb' : FunctionBuilder} {current current' : Nat} :
      (kid, fb', current') ∈ calls ctx stmt fb current → Walked ctx target c kid fb' current' →
        Walked ctx target c stmt fb current

/-! ## §2. The simple statements that are walked. -/

mutual
/-- The simple statements that are walked, each with the cursor and with the
first block of the control statement around it (`home`, where there is
none). -/
def visits (n cur : Nat) (home : Option Nat) : Stmt → List (PlainNode × Nat × Option Nat)
  | .simple m => [(m, cur, home)]
  | .compound _ body => visitsAll n cur home body
  | .ifThen _ _ thenStmt | .ifElse _ _ thenStmt _ _ => visits (n + 1) n (some n) thenStmt
  | .forLoop _ _ _ _ body | .whileLoop _ _ body => visits (n + 2) (n + 1) (some n) body
  | .doLoop _ body _ => visits (n + 1) n (some n) body
  | .returnStmt .. | .breakStmt _ | .continueStmt _ | .switch .. | .caseStmt .. => []

def visitsAll (n cur : Nat) (home : Option Nat) : Stmts → List (PlainNode × Nat × Option Nat)
  | .nil => []
  | .cons s ss => visits n cur home s ++ visitsAll (n + size s) (endBlock n cur s) home ss
end

mutual
/-- They are simple statements of the body. -/
theorem visits_simples {n cur : Nat} {home : Option Nat} (s : Stmt) : ∀ v ∈ visits n cur home s,
    v.1 ∈ s.simples := by
  intro v hv
  cases s with
  | simple m =>
      rw [List.mem_singleton.mp hv]
      exact List.mem_singleton_self m
  | compound span body => exact visitsAll_simples body v hv
  | ifThen span cond thenStmt => exact visits_simples thenStmt v hv
  | ifElse span cond thenStmt elseSpan elseStmt =>
      exact List.mem_append_left _ (visits_simples thenStmt v hv)
  | forLoop span init cond update body => exact visits_simples body v hv
  | whileLoop span cond body => exact visits_simples body v hv
  | doLoop span body cond => exact visits_simples body v hv
  | _ => exact absurd hv List.not_mem_nil

theorem visitsAll_simples {n cur : Nat} {home : Option Nat} (ss : Stmts) :
    ∀ v ∈ visitsAll n cur home ss, v.1 ∈ ss.simples := by
  intro v hv
  cases ss with
  | nil => exact absurd hv List.not_mem_nil
  | cons s ss =>
      rcases List.mem_append.mp hv with hv | hv
      · exact List.mem_append_left _ (visits_simples s v hv)
      · exact List.mem_append_right _ (visitsAll_simples ss v hv)
end

/-! ## §3. The calls, statement by statement. -/

section Calls

variable {ctx : BuildContext} {target : Node} {c : Nat}

/-- Some call of the list walks the target. -/
def SomeWalked (ctx : BuildContext) (target : Node) (c : Nat) (l : List Call) : Prop :=
  ∃ call ∈ l, Walked ctx target c call.1 call.2.1 call.2.2

@[simp] theorem someWalked_nil : ¬ SomeWalked ctx target c [] := by
  rintro ⟨call, h, -⟩
  exact List.not_mem_nil h

theorem someWalked_cons {call : Call} {l : List Call} :
    SomeWalked ctx target c (call :: l)
      ↔ Walked ctx target c call.1 call.2.1 call.2.2 ∨ SomeWalked ctx target c l := by
  unfold SomeWalked
  simp only [List.mem_cons, exists_eq_or_imp]

/-- A node that is not the target walks it through its calls. -/
theorem walked_iff_calls {stmt : Node} {fb : FunctionBuilder} {current : Nat}
    (hne : stmt ≠ target) :
    Walked ctx target c stmt fb current ↔ SomeWalked ctx target c (calls ctx stmt fb current) := by
  constructor
  · intro h
    cases h with
    | here => exact absurd rfl hne
    | call hmem h => exact ⟨_, hmem, h⟩
  · intro ⟨call, hmem, h⟩
    exact .call hmem h

/-- What is neither a `return` nor holds a barrier: the calls of its kind. -/
theorem calls_ofKind {i : NodeInfo} {cs : List Node} (hret : i.kind ≠ .returnStatement)
    (hbar : detectBarrier ctx.bytes (.mk i cs) = false) (fb : FunctionBuilder) (current : Nat) :
    calls ctx (.mk i cs) fb current
      = callsByKind ctx (.mk i cs) (walkChildren ctx cs)
          (fb.markDiscard ((Node.mk i cs).text ctx.bytes) current) current := by
  rw [calls, if_neg hret, hbar]
  rfl

/-- A kind without a branch of its own makes no call. -/
theorem calls_default {stmt : Node}
    (hkind : stmt.kind.isControl = false ∨ stmt.kind = .returnStatement
      ∨ stmt.kind = .breakStatement ∨ stmt.kind = .continueStatement
      ∨ stmt.kind = .caseStatement ∨ stmt.kind = .elseClause)
    (fb : FunctionBuilder) (current : Nat) : calls ctx stmt fb current = [] := by
  obtain ⟨i, cs⟩ := stmt
  rw [Node.kind_mk] at hkind
  rw [calls]
  split
  · rfl
  · split
    · rfl
    · unfold callsByKind
      rw [Node.kind_mk]
      cases hk : i.kind <;> simp_all [NodeKind.isControl]

end Calls

/-! ## §4. What is walked. -/

/-- The walk `W` reaches, among the nodes that are no control statements,
just the statements of the list, with their cursors. -/
structure Reaches (W : Node → Nat → Prop) (vs : List (PlainNode × Nat × Option Nat)) : Prop where
  complete : ∀ v ∈ vs, ∃ g, W (v.1.toNode g) v.2.1
  sound : ∀ target c, target.kind.isControl = false → W target c →
    ∃ v ∈ vs, v.2.1 = c ∧ ∃ g, target = v.1.toNode g

section Reaches

variable {ctx : BuildContext} {vs vs' : List (PlainNode × Nat × Option Nat)}

theorem reaches_nil : Reaches (fun target c => SomeWalked ctx target c []) [] :=
  ⟨fun _ hv => absurd hv List.not_mem_nil, fun _ _ _ h => absurd h someWalked_nil⟩

/-- One call, then others. -/
theorem Reaches.cons {call : Call} {l : List Call}
    (h : Reaches (fun target c => Walked ctx target c call.1 call.2.1 call.2.2) vs)
    (h' : Reaches (fun target c => SomeWalked ctx target c l) vs') :
    Reaches (fun target c => SomeWalked ctx target c (call :: l)) (vs ++ vs') := by
  constructor
  · intro v hv
    rcases List.mem_append.mp hv with hv | hv
    · obtain ⟨g, hg⟩ := h.complete v hv
      exact ⟨g, someWalked_cons.mpr (.inl hg)⟩
    · obtain ⟨g, hg⟩ := h'.complete v hv
      exact ⟨g, someWalked_cons.mpr (.inr hg)⟩
  · intro target c hplain hw
    rcases someWalked_cons.mp hw with hw | hw
    · obtain ⟨v, hv, hfound⟩ := h.sound target c hplain hw
      exact ⟨v, List.mem_append_left _ hv, hfound⟩
    · obtain ⟨v, hv, hfound⟩ := h'.sound target c hplain hw
      exact ⟨v, List.mem_append_right _ hv, hfound⟩

theorem Reaches.single {call : Call}
    (h : Reaches (fun target c => Walked ctx target c call.1 call.2.1 call.2.2) vs) :
    Reaches (fun target c => SomeWalked ctx target c [call]) vs := by
  have hone := h.cons reaches_nil
  rw [List.append_nil] at hone
  exact hone

/-- A control statement walks what its calls walk. -/
theorem Reaches.control {stmt : Node} {fb : FunctionBuilder} {current : Nat}
    (hcontrol : stmt.kind.isControl = true)
    (h : Reaches (fun target c => SomeWalked ctx target c (calls ctx stmt fb current)) vs) :
    Reaches (fun target c => Walked ctx target c stmt fb current) vs := by
  constructor
  · intro v hv
    obtain ⟨g, call, hmem, hw⟩ := h.complete v hv
    exact ⟨g, .call hmem hw⟩
  · intro target c hplain hw
    have hne : stmt ≠ target := by
      intro heq
      rw [← heq, hcontrol] at hplain
      exact absurd hplain (by decide)
    exact h.sound target c hplain ((walked_iff_calls hne).mp hw)

/-- A control statement without calls walks nothing else. -/
theorem reaches_none {stmt : Node} (hcontrol : stmt.kind.isControl = true)
    (hkind : stmt.kind = .returnStatement ∨ stmt.kind = .breakStatement
      ∨ stmt.kind = .continueStatement ∨ stmt.kind = .caseStatement ∨ stmt.kind = .elseClause)
    (fb : FunctionBuilder) (current : Nat) :
    Reaches (fun target c => Walked ctx target c stmt fb current) [] := by
  refine Reaches.control hcontrol ?_
  rw [calls_default (.inr hkind)]
  exact reaches_nil

/-- A simple statement walks itself. -/
theorem reaches_simple (m : PlainNode) (f : Option Field) (fb : FunctionBuilder)
    (current : Nat) (home : Option Nat) :
    Reaches (fun target c => Walked ctx target c (m.toNode f) fb current)
      [(m, current, home)] := by
  have hplain : (m.toNode f).kind.isControl = false :=
    (congrArg NodeKind.isControl (m.toNode_kind f)).trans m.plain
  constructor
  · intro v hv
    rw [List.mem_singleton.mp hv]
    exact ⟨f, .here⟩
  · intro target c _ hw
    refine ⟨_, List.mem_singleton_self _, ?_⟩
    cases hw with
    | here => exact ⟨rfl, f, rfl⟩
    | call hmem _ =>
        rw [calls_default (.inl hplain)] at hmem
        exact absurd hmem List.not_mem_nil

end Reaches

section Parts

variable {ctx : BuildContext} {stmt : Node} {kids : Kids} {fb : FunctionBuilder} {cur : Nat}
  {vs : List (PlainNode × Nat × Option Nat)}

/-- The then arm is walked on the first new block. -/
theorem Reaches.ifThen {t : Node × Walker} (hkids : ifArms kids = (some t, none))
    (ht : ∀ fb', fb'.blocks.length = fb.blocks.length + 1 →
      Reaches (fun target c => Walked ctx target c t.1 fb' fb.blocks.length) vs) :
    Reaches (fun target c => SomeWalked ctx target c (ifCalls ctx stmt kids fb cur)) vs := by
  obtain ⟨fb1, h1, g1⟩ := (Grows.refl fb).newBlock ctx stmt (Nat.add_zero _)
  have hcalls : ifCalls ctx stmt kids fb cur
      = [(t.1, fb1.addEdge cur fb.blocks.length, fb.blocks.length)] := by
    unfold ifCalls
    simp only [hkids, h1, optionalCall]
  rw [hcalls]
  exact Reaches.single (ht _ ((List.length_modify ..).trans g1.length))

/-- The same with an else arm, whose own walk goes nowhere. -/
theorem Reaches.ifElse {t e : Node × Walker} (hkids : ifArms kids = (some t, some e))
    (hkind : e.1.kind = .elseClause)
    (ht : ∀ fb', fb'.blocks.length = fb.blocks.length + 1 →
      Reaches (fun target c => Walked ctx target c t.1 fb' fb.blocks.length) vs) :
    Reaches (fun target c => SomeWalked ctx target c (ifCalls ctx stmt kids fb cur)) vs := by
  obtain ⟨fb1, h1, g1⟩ := (Grows.refl fb).newBlock ctx stmt (Nat.add_zero _)
  have hcalls : ∃ fb2 b, ifCalls ctx stmt kids fb cur
      = [(t.1, fb1.addEdge cur fb.blocks.length, fb.blocks.length), (e.1, fb2, b)] := by
    unfold ifCalls
    simp only [hkids, h1, optionalCall]
    exact ⟨_, _, rfl⟩
  obtain ⟨fb2, b, hcalls⟩ := hcalls
  have helse : Reaches (fun target c => Walked ctx target c e.1 fb2 b) [] :=
    reaches_none (by rw [hkind]; rfl) (.inr (.inr (.inr (.inr hkind)))) fb2 b
  rw [hcalls, ← List.append_nil vs]
  exact Reaches.cons (ht _ ((List.length_modify ..).trans g1.length)) (Reaches.single helse)

/-- The body of a `for` or `while` is walked on the second new block. -/
theorem Reaches.loop {b : Node × Walker} (hkids : loopBody kids true = some b)
    (hb : ∀ fb', fb'.blocks.length = fb.blocks.length + 2 →
      Reaches (fun target c => Walked ctx target c b.1 fb' (fb.blocks.length + 1)) vs) :
    Reaches (fun target c => SomeWalked ctx target c (loopCalls ctx stmt kids fb cur)) vs := by
  obtain ⟨fb1, h1, g1⟩ := (Grows.refl fb).newBlock ctx stmt (Nat.add_zero _)
  have hlen : (fb1.addEdge cur fb.blocks.length).blocks.length = fb.blocks.length + 1 :=
    (List.length_modify ..).trans g1.length
  obtain ⟨fb3, h3, g3⟩ := (Grows.refl (fb1.addEdge cur fb.blocks.length)).newBlock
    (m := fb.blocks.length + 1) ctx stmt hlen
  have hcalls : loopCalls ctx stmt kids fb cur
      = [(b.1, fb3.addEdge fb.blocks.length (fb.blocks.length + 1), fb.blocks.length + 1)] := by
    unfold loopCalls
    simp only [hkids, h1, h3, optionalCall]
  rw [hcalls]
  refine Reaches.single (hb _ ?_)
  show (fb3.blocks.modify _ _).length = _
  rw [List.length_modify, g3.length, hlen]

/-- The body of a `do` is walked on the first. -/
theorem Reaches.doLoop {b : Node × Walker} (hkids : loopBody kids false = some b)
    (hb : ∀ fb', fb'.blocks.length = fb.blocks.length + 1 →
      Reaches (fun target c => Walked ctx target c b.1 fb' fb.blocks.length) vs) :
    Reaches (fun target c => SomeWalked ctx target c (doCalls ctx stmt kids fb cur)) vs := by
  obtain ⟨fb1, h1, g1⟩ := (Grows.refl fb).newBlock ctx stmt (Nat.add_zero _)
  have hcalls : doCalls ctx stmt kids fb cur
      = [(b.1, fb1.addEdge cur fb.blocks.length, fb.blocks.length)] := by
    unfold doCalls
    simp only [hkids, h1, optionalCall]
  rw [hcalls]
  exact Reaches.single (hb _ ((List.length_modify ..).trans g1.length))

/-- Without case statements among them, nothing is walked. -/
theorem caseCalls_none (dispatch join : Nat) : ∀ {l : Kids},
    (∀ kid ∈ l, (kid.1.kind = .caseStatement || kid.1.kind = .defaultStatement) = false) →
      ∀ fb, caseCalls ctx dispatch join l fb = [] := by
  intro l
  induction l with
  | nil => intro _ fb; rfl
  | cons kid l ih =>
      intro hl fb
      rw [caseCalls, if_neg (by rw [hl kid (List.mem_cons_self ..)]; decide)]
      exact ih (fun kid' h => hl kid' (List.mem_cons_of_mem _ h)) fb

end Parts

/-- The one call that a control statement makes, after the discard scan. -/
theorem Reaches.ofKind {ctx : BuildContext} {i : NodeInfo} {cs : List Node} {fb : FunctionBuilder}
    {cur : Nat} {vs : List (PlainNode × Nat × Option Nat)} (hcontrol : i.kind.isControl = true)
    (hret : i.kind ≠ .returnStatement) (hbar : detectBarrier ctx.bytes (.mk i cs) = false)
    (h : ∀ fb', fb'.blocks.length = fb.blocks.length →
      Reaches (fun target c => SomeWalked ctx target c
        (callsByKind ctx (.mk i cs) (walkChildren ctx cs) fb' cur)) vs) :
    Reaches (fun target c => Walked ctx target c (.mk i cs) fb cur) vs := by
  refine Reaches.control hcontrol ?_
  rw [calls_ofKind hret hbar]
  exact h _ (grows_markDiscard fb _ cur).length

mutual
/-- **What a walk reaches**: the visits. -/
theorem walkStatement_reaches (ctx : BuildContext) (s : Stmt) (f : Option Field)
    (h : detectBarrier ctx.bytes (s.toNode f) = false) (fb : FunctionBuilder)
    (cur : Nat) (home : Option Nat) (hcur : cur < fb.blocks.length) :
    Reaches (fun target c => Walked ctx target c (s.toNode f) fb cur)
      (visits fb.blocks.length cur home s) := by
  cases s with
  | simple m => exact reaches_simple m f fb cur home
  | returnStmt span value => exact reaches_none rfl (.inl rfl) fb cur
  | breakStmt span => exact reaches_none rfl (.inr (.inl rfl)) fb cur
  | continueStmt span => exact reaches_none rfl (.inr (.inr (.inl rfl))) fb cur
  | caseStmt span label body => exact reaches_none rfl (.inr (.inr (.inr (.inl rfl)))) fb cur
  | compound span body =>
      refine Reaches.ofKind rfl nofun h fun fb' hlen => ?_
      rw [← hlen] at hcur ⊢
      exact walkStatements_reaches ctx body (detectBarrier_children h) fb' cur home hcur
  | ifThen span cond thenStmt =>
      refine Reaches.ofKind rfl nofun h fun fb' hlen => Reaches.ifThen
        (ifArms_ifThen ctx cond thenStmt) fun fb1 hlen1 => ?_
      have ht := walkStatement_reaches ctx thenStmt (some .consequence)
        (detectBarrier_mem (thenStmt.toNode_kind_ne _) (detectBarrier_children h) (by simp))
        fb1 fb.blocks.length (some fb.blocks.length) (by omega)
      rw [hlen1, hlen] at ht
      rw [hlen]
      exact ht
  | ifElse span cond thenStmt elseSpan elseStmt =>
      refine Reaches.ofKind rfl nofun h fun fb' hlen => Reaches.ifElse
        (ifArms_ifElse ctx cond thenStmt elseSpan elseStmt) rfl fun fb1 hlen1 => ?_
      have ht := walkStatement_reaches ctx thenStmt (some .consequence)
        (detectBarrier_mem (thenStmt.toNode_kind_ne _) (detectBarrier_children h) (by simp))
        fb1 fb.blocks.length (some fb.blocks.length) (by omega)
      rw [hlen1, hlen] at ht
      rw [hlen]
      exact ht
  | forLoop span init cond update body =>
      refine Reaches.ofKind rfl nofun h fun fb' hlen => Reaches.loop
        (loopBody_for ctx body init cond update) fun fb1 hlen1 => ?_
      have hb := walkStatement_reaches ctx body (some .body)
        (detectBarrier_mem (body.toNode_kind_ne _) (detectBarrier_children h) (by simp))
        fb1 (fb.blocks.length + 1) (some fb.blocks.length) (by omega)
      rw [hlen1, hlen] at hb
      rw [hlen]
      exact hb
  | whileLoop span cond body =>
      refine Reaches.ofKind rfl nofun h fun fb' hlen => Reaches.loop
        (loopBody_while ctx cond body) fun fb1 hlen1 => ?_
      have hb := walkStatement_reaches ctx body (some .body)
        (detectBarrier_mem (body.toNode_kind_ne _) (detectBarrier_children h) (by simp))
        fb1 (fb.blocks.length + 1) (some fb.blocks.length) (by omega)
      rw [hlen1, hlen] at hb
      rw [hlen]
      exact hb
  | doLoop span body cond =>
      refine Reaches.ofKind rfl nofun h fun fb' hlen => Reaches.doLoop
        (loopBody_do ctx cond body) fun fb1 hlen1 => ?_
      have hb := walkStatement_reaches ctx body (some .body)
        (detectBarrier_mem (body.toNode_kind_ne _) (detectBarrier_children h) (by simp))
        fb1 fb.blocks.length (some fb.blocks.length) (by omega)
      rw [hlen1, hlen] at hb
      rw [hlen]
      exact hb
  | switch span cond bodySpan body =>
      refine Reaches.ofKind rfl nofun h fun fb' hlen => ?_
      have hcalls : callsByKind ctx ((Stmt.switch span cond bodySpan body).toNode f)
          (walkChildren ctx [cond.toNode (some .condition),
            namedNode .compoundStatement (some .body) bodySpan body.toNodes]) fb' cur = [] :=
        caseCalls_none _ _ (switch_noCase ctx cond bodySpan _) _
      have hnone : Reaches (fun target c => SomeWalked ctx target c []) [] := reaches_nil
      rw [← hcalls] at hnone
      exact hnone

theorem walkStatements_reaches (ctx : BuildContext) (ss : Stmts)
    (h : detectBarrierAny ctx.bytes ss.toNodes = false) (fb : FunctionBuilder) (cur : Nat)
    (home : Option Nat) (hcur : cur < fb.blocks.length) :
    Reaches
      (fun target c => SomeWalked ctx target c
        (allCalls (walkChildren ctx ss.toNodes).named fb cur))
      (visitsAll fb.blocks.length cur home ss) := by
  cases ss with
  | nil => exact reaches_nil
  | cons s ss =>
      have hbar := detectBarrier_mem (s.toNode_kind_ne _) h (List.mem_cons_self ..)
      have hrest : detectBarrierAny ctx.bytes ss.toNodes = false := by
        rw [Stmts.toNodes, detectBarrierAny, Bool.or_eq_false_iff] at h
        exact h.2
      obtain ⟨fb1, h1, g1, e1⟩ := walkStatement_layout ctx s none hbar fb cur hcur
      have hs := walkStatement_reaches ctx s none hbar fb cur home hcur
      have hss := walkStatements_reaches ctx ss hrest fb1 (endBlock fb.blocks.length cur s) home
        (by rw [g1.length]; exact e1)
      rw [g1.length] at hss
      rw [named_walkChildren_cons, allCalls]
      simp only [withWalk, h1]
      exact hs.cons hss
end

end ShaderClippy.ControlFlow
