/-
  ShaderClippy.ControlFlow.Executions

  **THE EXECUTIONS OF A FUNCTION BODY, AND THE BLOCKS THEY PASS.**

  `prog` is the control skeleton of a statement: what runs, in which order,
  which decisions are free. Its labels (`Visit`) also say in which block the
  code of the step sits, following the cursor of `walk_statement`: `n` blocks
  exist, the cursor is on `cur`. Inside an else arm the cursor does not move
  (`fixed`).

  The graph has no edge for a `break` out of a loop, none for a `continue`
  (unless the loop body's walk ends in its block) and none into a `switch`.
  Such steps are labelled `modelled := false`; up to the first of them every
  execution follows the edges of `Layout.edges` (`prog_triple`).
-/
import ShaderClippy.ControlFlow.Layout
import ShaderClippy.Lib.Structured

namespace ShaderClippy.ControlFlow

open Structured

/-! ## §1. The control skeleton. -/

/-- One step of an execution: the block, the code that runs there (none where
control only enters the block), and whether the graph has an edge for leaving
the step. -/
structure Visit where
  block : Nat
  code : Option Node
  modelled : Bool

/-- Code runs in block `b`. -/
def run (b : Nat) (code : PlainNode) : Visit := ⟨b, some code.node, true⟩

/-- Control enters block `b`. -/
def enter (b : Nat) : Visit := ⟨b, none, true⟩

/-- A jump from block `b`, when the graph leads from `b` to where `b'` leads. -/
def leave (b : Nat) (code : Stmt) (b' : Option Nat) : Visit :=
  ⟨b, some (code.toNode none), decide (b' = some b)⟩

/-- The block of a statement's part. -/
def spot (fixed : Bool) (cur b : Nat) : Nat := if fixed then cur else b

/-- Where a `break` of a loop may come from. -/
def breakSource (fixed : Bool) (cur : Nat) : Option Nat := if fixed then some cur else none

/-- The steps of some parts in block `b`. -/
def runs (b : Nat) (parts : Option PlainNode) : List Visit := parts.toList.map (run b)

/-- Into block `b`, then `p`. -/
def armProg (b : Nat) (p : Prog Visit) : Prog Visit := .seq (.point (enter b)) p

/-- A loop: `first`, then any number of turns, then on to block `exitBlock`. -/
def loopProg (first turn : Prog Visit) (exitBlock : Nat) : Prog Visit :=
  .seq (.catching .brk (.seq first (.iter turn))) (.point (enter exitBlock))

/-- One turn: the body from block `b` on, then `again`. -/
def turnProg (b : Nat) (body again : Prog Visit) : Prog Visit :=
  armProg b (.seq (.catching .cont body) again)

/-- Is this the `default:` label? -/
def isDefaultCase : Stmt → Bool
  | .caseStmt _ none _ => true
  | _ => false

/-- Is this a label of a `switch`? -/
def isCase : Stmt → Bool
  | .caseStmt .. => true
  | _ => false

mutual
/-- **The skeleton of a statement.**  `brk` and `cont`: the block from which
a `break` or `continue` of the enclosing construct is modelled. -/
def prog (fixed : Bool) (n cur : Nat) (brk cont : Option Nat) : Stmt → Prog Visit
  | .simple code => .point (run cur code)
  | .returnStmt span value =>
      .seq (.point (leave cur (.returnStmt span value) (some cur))) (.jump .ret)
  | .breakStmt span => .seq (.point (leave cur (.breakStmt span) brk)) (.jump .brk)
  | .continueStmt span => .seq (.point (leave cur (.continueStmt span) cont)) (.jump .cont)
  | .compound _ body => progAll fixed n cur brk cont body
  | .ifThen _ cond thenStmt =>
      let thenBlock := spot fixed cur n
      .seq (.point (run cur cond))
        (.seq (.choice (armProg thenBlock (prog fixed (n + 1) thenBlock brk cont thenStmt)) .skip)
          (.point (enter (spot fixed cur (n + 1 + size thenStmt)))))
  | .ifElse _ cond thenStmt _ elseStmt =>
      let thenBlock := spot fixed cur n
      let elseBlock := spot fixed cur (n + 1 + size thenStmt)
      .seq (.point (run cur cond))
        (.seq (.choice (armProg thenBlock (prog fixed (n + 1) thenBlock brk cont thenStmt))
            (armProg elseBlock (prog true n elseBlock brk cont elseStmt)))
          (.point (enter (spot fixed cur (n + 1 + size thenStmt + 1)))))
  | .forLoop _ init cond update body =>
      let header := spot fixed cur n
      let bodyBlock := spot fixed cur (n + 1)
      let bodyEnd := spot fixed cur (endBlock (n + 2) (n + 1) body)
      loopProg (Prog.points (enter header :: (runs header init ++ runs header cond)))
        (turnProg bodyBlock
          (prog fixed (n + 2) bodyBlock (breakSource fixed cur) (some bodyEnd) body)
          (Prog.points (enter header :: (runs header update ++ runs header cond))))
        (spot fixed cur (n + 2 + size body))
  | .whileLoop _ cond body =>
      let header := spot fixed cur n
      let bodyBlock := spot fixed cur (n + 1)
      let bodyEnd := spot fixed cur (endBlock (n + 2) (n + 1) body)
      loopProg (Prog.points [enter header, run header cond])
        (turnProg bodyBlock
          (prog fixed (n + 2) bodyBlock (breakSource fixed cur) (some bodyEnd) body)
          (Prog.points [enter header, run header cond]))
        (spot fixed cur (n + 2 + size body))
  | .doLoop _ body cond =>
      let bodyBlock := spot fixed cur n
      let bodyEnd := spot fixed cur (endBlock (n + 1) n body)
      let turn := turnProg bodyBlock
        (prog fixed (n + 1) bodyBlock (breakSource fixed cur) (some bodyEnd) body)
        (Prog.points [run (spot fixed cur (n + 1 + size body)) cond])
      loopProg turn turn (spot fixed cur (n + 1 + size body + 1))
  | .switch _ cond _ body =>
      let join := spot fixed cur n
      .seq (.point ⟨cur, some cond.node, fixed⟩)
        (.seq (.catching .brk (progCases join cont (progDefault join cont body) body))
          (.point (enter join)))
  | .caseStmt _ label body =>
      -- The walk does not enter a label outside a `switch` either.
      .seq (Prog.points (runs cur label)) (progAll true n cur brk cont body)

/-- One statement after another. -/
def progAll (fixed : Bool) (n cur : Nat) (brk cont : Option Nat) : Stmts → Prog Visit
  | .nil => .skip
  | .cons s ss => .seq (prog fixed n cur brk cont s)
      (progAll fixed (n + size s) (spot fixed cur (endBlock n cur s)) brk cont ss)

/-- The contents of a `switch`: from some label on, or `fallback`. -/
def progCases (b : Nat) (cont : Option Nat) (fallback : Prog Visit) : Stmts → Prog Visit
  | .nil => fallback
  | .cons s ss =>
      if isCase s then
        .choice (.seq (prog true 0 b (some b) cont s) (progAll true 0 b (some b) cont ss))
          (progCases b cont fallback ss)
      else progCases b cont fallback ss

/-- Without a matching label: from `default:` on, or past the `switch`. -/
def progDefault (b : Nat) (cont : Option Nat) : Stmts → Prog Visit
  | .nil => .skip
  | .cons s ss =>
      if isDefaultCase s then
        .seq (prog true 0 b (some b) cont s) (progAll true 0 b (some b) cont ss)
      else progDefault b cont ss
end

/-! ## §2. Following the edges. -/

/-- Stay, or follow an edge. -/
def Link (E : Nat → Nat → Prop) (a b : Nat) : Prop := a = b ∨ E a b

/-- The monitor of `E`: it knows the block of the last step, and stops
watching after a step that is not modelled. -/
def edgeMonitor (E : Nat → Nat → Prop) : Monitor Visit (Option Nat) where
  ok s l := ∀ b, s = some b → Link E b l.block
  next s l := if s.isSome && l.modelled then some l.block else none

/-- If watching, then at the block `t` names. -/
def Within (t : Option Nat) (s : Option Nat) : Prop := ∀ b, s = some b → t = some b

/-- If watching, then at `a`. -/
def At (a : Nat) : Option Nat → Prop := Within (some a)

/-- If watching, then where block `b` can be entered. -/
def Ready (E : Nat → Nat → Prop) (b : Nat) (s : Option Nat) : Prop := ∀ a, s = some a → Link E a b

/-- Where jumps leave from. -/
def Leaves (brk cont : Option Nat) : Jump → Option Nat → Prop
  | .brk => Within brk
  | .cont => Within cont
  | .ret => fun _ => True

section Rules

variable {E : Nat → Nat → Prop} {a b x h : Nat} {brk cont src : Option Nat}
  {P N : Option Nat → Prop} {J : Jump → Option Nat → Prop} {p first turn body again : Prog Visit}

theorem Link.refl (a : Nat) : Link E a a := Or.inl rfl

theorem At.ready (hab : Link E a b) (s : Option Nat) (hs : At a s) : Ready E b s := by
  intro c hc
  cases hs c hc
  exact hab

/-- A step in a block that can be entered. -/
theorem step_triple {code : Option Node} :
    Triple (edgeMonitor E) (Ready E b) (.point ⟨b, code, true⟩) (At b) J := by
  apply Triple.point
  intro s hs
  refine ⟨hs, fun c hc => ?_⟩
  unfold edgeMonitor at hc
  cases s with
  | none => exact absurd hc (by simp)
  | some a => simpa using hc

/-- A step in the block reached. -/
theorem stay_triple {code : Option Node} :
    Triple (edgeMonitor E) (At b) (.point ⟨b, code, true⟩) (At b) J :=
  step_triple.conseq (At.ready (Link.refl b)) (fun _ h => h) (fun _ _ h => h)

/-- A step before a jump. -/
theorem leave_triple {code : Stmt} :
    Triple (edgeMonitor E) (At b) (.point (leave b code brk)) (Within brk) J := by
  apply Triple.point
  intro s hs
  refine ⟨At.ready (Link.refl b) s hs, fun c hc => ?_⟩
  unfold edgeMonitor leave at hc
  by_cases hbrk : brk = some b
  · simp only [hbrk, decide_true, Bool.and_true] at hc
    cases s with
    | none => exact absurd hc (by simp)
    | some a =>
        rw [hbrk]
        simpa using hc
  · simp [hbrk] at hc

theorem points_triple {ls : List Visit} (hl : ∀ l ∈ ls, l.block = b ∧ l.modelled = true) :
    Triple (edgeMonitor E) (At b) (Prog.points ls) (At b) J := by
  induction ls with
  | nil => exact Triple.skip
  | cons l ls ih =>
      obtain ⟨hb, hm⟩ := hl l (List.mem_cons_self ..)
      obtain ⟨block, code, modelled⟩ := l
      cases hb
      cases hm
      exact Triple.seq stay_triple (ih fun l' h' => hl l' (List.mem_cons_of_mem _ h'))

theorem runs_mem {part : Option PlainNode} {l : Visit} (hl : l ∈ runs b part) :
    l.block = b ∧ l.modelled = true := by
  unfold runs at hl
  obtain ⟨code, -, rfl⟩ := List.mem_map.mp hl
  exact ⟨rfl, rfl⟩

/-- A step in a block that an edge leads to. -/
theorem link_triple {code : Option Node} (hab : Link E a b) :
    Triple (edgeMonitor E) (At a) (.point ⟨b, code, true⟩) (At b) J :=
  step_triple.conseq (At.ready hab) (fun _ h => h) (fun _ _ h => h)

/-- Into a block, then the parts that run there. -/
theorem header_triple (part part' : Option PlainNode) (hab : Link E a b)
    (J : Jump → Option Nat → Prop) :
    Triple (edgeMonitor E) (At a)
      (Prog.points (enter b :: (runs b part ++ runs b part'))) (At b) J := by
  refine Triple.seq (link_triple hab) (points_triple fun l hl => ?_)
  cases List.mem_append.mp hl with
  | inl h => exact runs_mem h
  | inr h => exact runs_mem h

theorem test_triple (code : PlainNode) (hab : Link E a b) (J : Jump → Option Nat → Prop) :
    Triple (edgeMonitor E) (At a) (Prog.points [run b code]) (At b) J :=
  Triple.seq (link_triple hab) Triple.skip

theorem arm_triple (hab : Link E a b) (hp : Triple (edgeMonitor E) (At b) p N J) :
    Triple (edgeMonitor E) (At a) (armProg b p) N J :=
  Triple.seq (link_triple hab) hp

/-- A loop body: a modelled `continue` leaves it where its walk ends. -/
theorem turn_triple (cont : Option Nat) (hab : Link E a b)
    (hbody : Triple (edgeMonitor E) (At b) body (At x) (Leaves src (some x)))
    (hagain : Triple (edgeMonitor E) (At x) again N (Leaves src cont)) :
    Triple (edgeMonitor E) (At a) (turnProg b body again) N (Leaves src cont) := by
  refine arm_triple hab (Triple.seq (Q := At x) (Triple.catching hbody (fun _ h => h) ?_) hagain)
  intro k s hk hs
  cases k with
  | brk => exact hs
  | cont => exact absurd rfl hk
  | ret => exact trivial

/-- A loop: the header leads to the exit. -/
theorem loop_triple (hfirst : Triple (edgeMonitor E) P first (At h) (Leaves src cont))
    (hturn : Triple (edgeMonitor E) (At h) turn (At h) (Leaves src cont)) (hx : Link E h x)
    (hsrc : ∀ c, src = some c → Link E c x) :
    Triple (edgeMonitor E) P (loopProg first turn x) (At x) (Leaves brk cont) := by
  have hall : Triple (edgeMonitor E) P (.seq first (.iter turn)) (Ready E x) (Leaves src cont) :=
    Triple.seq hfirst (hturn.iter.conseq (fun _ h => h) (At.ready hx) (fun _ _ h => h))
  refine Triple.seq (Q := Ready E x) (Triple.catching hall ?_ ?_) step_triple
  · intro s hs c hc
    exact hsrc c (hs c hc)
  · intro k s hk hs
    cases k with
    | brk => exact absurd rfl hk
    | cont => exact hs
    | ret => exact trivial

theorem break_triple {code : Stmt} :
    Triple (edgeMonitor E) (At b) (.seq (.point (leave b code brk)) (.jump .brk)) N
      (Leaves brk cont) :=
  Triple.seq leave_triple (Triple.jump fun _ h => h)

theorem continue_triple {code : Stmt} :
    Triple (edgeMonitor E) (At b) (.seq (.point (leave b code cont)) (.jump .cont)) N
      (Leaves brk cont) :=
  Triple.seq leave_triple (Triple.jump fun _ h => h)

theorem return_triple {code : Stmt} {b' : Option Nat} :
    Triple (edgeMonitor E) (At b) (.seq (.point (leave b code b')) (.jump .ret)) N
      (Leaves brk cont) :=
  Triple.seq leave_triple (Triple.jump fun _ _ => trivial)

/-- The condition, one of two arms, the join. -/
theorem branch_triple {q : Prog Visit} {code : PlainNode} {c d : Nat} (hcx : Link E c x)
    (hdx : Link E d x) (hp : Triple (edgeMonitor E) (At a) p (At c) (Leaves brk cont))
    (hq : Triple (edgeMonitor E) (At a) q (At d) (Leaves brk cont)) :
    Triple (edgeMonitor E) (At a)
      (.seq (.point (run a code)) (.seq (.choice p q) (.point (enter x)))) (At x)
      (Leaves brk cont) := by
  have hp' := hp.conseq (fun _ h => h) (At.ready hcx) fun _ _ h => h
  have hq' := hq.conseq (fun _ h => h) (At.ready hdx) fun _ _ h => h
  exact Triple.seq stay_triple (Triple.seq (Triple.choice hp' hq') step_triple)

end Rules

/-- Whatever runs unwatched is accepted and stays unwatched. -/
theorem unwatched_triple {E : Nat → Nat → Prop} {p : Prog Visit} :
    Triple (edgeMonitor E) (· = none) p (· = none) fun _ => (· = none) := by
  have hrun : ∀ tr : List Visit,
      (edgeMonitor E).Accepts none tr ∧ (edgeMonitor E).final none tr = none := by
    intro tr
    induction tr with
    | nil => exact ⟨trivial, rfl⟩
    | cons l tr ih => exact ⟨⟨nofun, ih.1⟩, ih.2⟩
  intro s tr o hs _
  cases hs
  exact ⟨(hrun tr).1, fun _ => (hrun tr).2, fun _ _ => (hrun tr).2⟩

/-! ## §3. Inside an else arm. -/

section Fixed

variable {E : Nat → Nat → Prop}

mutual
/-- Where the cursor does not move, every step stays in the block. -/
theorem prog_fixed (n b : Nat) (brk cont : Option Nat) (s : Stmt) :
    Triple (edgeMonitor E) (At b) (prog true n b brk cont s) (At b) (Leaves brk cont) := by
  have hb : Link E b b := Link.refl b
  have hsrc : ∀ c, some b = some c → Link E c b := by
    intro c hc
    cases hc
    exact Link.refl b
  cases s with
  | simple code => exact stay_triple
  | returnStmt span value => exact return_triple
  | breakStmt span => exact break_triple
  | continueStmt span => exact continue_triple
  | compound span body => exact progAll_fixed n b brk cont body
  | ifThen span cond thenStmt =>
      have ht := prog_fixed (n + 1) b brk cont thenStmt
      exact branch_triple hb hb (arm_triple hb ht) Triple.skip
  | ifElse span cond thenStmt elseSpan elseStmt =>
      have ht := prog_fixed (n + 1) b brk cont thenStmt
      have he := prog_fixed n b brk cont elseStmt
      exact branch_triple hb hb (arm_triple hb ht) (arm_triple hb he)
  | forLoop span init cond update body =>
      have hbody := prog_fixed (n + 2) b (some b) (some b) body
      exact loop_triple (header_triple init cond hb _)
        (turn_triple cont hb hbody (header_triple update cond hb _)) hb hsrc
  | whileLoop span cond body =>
      have hbody := prog_fixed (n + 2) b (some b) (some b) body
      exact loop_triple (header_triple none (some cond) hb _)
        (turn_triple cont hb hbody (header_triple none (some cond) hb _)) hb hsrc
  | doLoop span body cond =>
      have hbody := prog_fixed (n + 1) b (some b) (some b) body
      have hturn := turn_triple cont hb hbody (test_triple cond hb _)
      exact loop_triple hturn hturn hb hsrc
  | switch span cond bodySpan body =>
      have hbody := progCases_fixed b cont body (progDefault_fixed b cont body)
      refine Triple.seq stay_triple (Triple.seq (Q := At b)
        (Triple.catching hbody (fun _ h => h) ?_) stay_triple)
      intro k s hk hs
      cases k with
      | brk => exact absurd rfl hk
      | cont => exact hs
      | ret => exact trivial
  | caseStmt span label body =>
      exact Triple.seq (points_triple fun l hl => runs_mem hl) (progAll_fixed n b brk cont body)

theorem progAll_fixed (n b : Nat) (brk cont : Option Nat) (ss : Stmts) :
    Triple (edgeMonitor E) (At b) (progAll true n b brk cont ss) (At b) (Leaves brk cont) := by
  cases ss with
  | nil => exact Triple.skip
  | cons s ss =>
      exact Triple.seq (prog_fixed n b brk cont s) (progAll_fixed (n + size s) b brk cont ss)

theorem progCases_fixed (b : Nat) (cont : Option Nat) (ss : Stmts) {fallback : Prog Visit}
    (hf : Triple (edgeMonitor E) (At b) fallback (At b) (Leaves (some b) cont)) :
    Triple (edgeMonitor E) (At b) (progCases b cont fallback ss) (At b)
      (Leaves (some b) cont) := by
  cases ss with
  | nil => exact hf
  | cons s ss =>
      have hrest := progCases_fixed b cont ss hf
      unfold progCases
      split
      · exact Triple.choice (Triple.seq (prog_fixed 0 b (some b) cont s)
          (progAll_fixed 0 b (some b) cont ss)) hrest
      · exact hrest

theorem progDefault_fixed (b : Nat) (cont : Option Nat) (ss : Stmts) :
    Triple (edgeMonitor E) (At b) (progDefault b cont ss) (At b) (Leaves (some b) cont) := by
  cases ss with
  | nil => exact Triple.skip
  | cons s ss =>
      unfold progDefault
      split
      · exact Triple.seq (prog_fixed 0 b (some b) cont s) (progAll_fixed 0 b (some b) cont ss)
      · exact progDefault_fixed b cont ss
end

end Fixed

/-! ## §4. Everywhere else. -/

section Walked

variable {E : Nat → Nat → Prop}

mutual
/-- **Every execution of a statement follows its edges**, as long as its
steps are modelled, and ends where the cursor ends. -/
theorem prog_triple (n cur : Nat) (brk cont : Option Nat) (s : Stmt)
    (hE : ∀ u v, (u, v) ∈ edges n cur s → E u v) :
    Triple (edgeMonitor E) (At cur) (prog false n cur brk cont s) (At (endBlock n cur s))
      (Leaves brk cont) := by
  have hnone : ∀ x c, (none : Option Nat) = some c → Link E c x := fun _ _ => nofun
  cases s with
  | simple code => exact stay_triple
  | returnStmt span value => exact return_triple
  | breakStmt span => exact break_triple
  | continueStmt span => exact continue_triple
  | compound span body => exact progAll_triple n cur brk cont body hE
  | ifThen span cond thenStmt =>
      have ht := prog_triple (n + 1) n brk cont thenStmt fun u v h => hE u v (by simp [edges, h])
      have h1 : Link E cur n := .inr (hE _ _ (by simp [edges]))
      have h2 : Link E (endBlock (n + 1) n thenStmt) (n + 1 + size thenStmt) :=
        .inr (hE _ _ (by simp [edges]))
      have h3 : Link E cur (n + 1 + size thenStmt) := .inr (hE _ _ (by simp [edges]))
      exact branch_triple h2 h3 (arm_triple h1 ht) Triple.skip
  | ifElse span cond thenStmt elseSpan elseStmt =>
      have ht := prog_triple (n + 1) n brk cont thenStmt fun u v h => hE u v (by simp [edges, h])
      have he := prog_fixed (E := E) n (n + 1 + size thenStmt) brk cont elseStmt
      have h1 : Link E cur n := .inr (hE _ _ (by simp [edges]))
      have h2 : Link E (endBlock (n + 1) n thenStmt) (n + 1 + size thenStmt + 1) :=
        .inr (hE _ _ (by simp [edges]))
      have h3 : Link E cur (n + 1 + size thenStmt) := .inr (hE _ _ (by simp [edges]))
      have h4 : Link E (n + 1 + size thenStmt) (n + 1 + size thenStmt + 1) :=
        .inr (hE _ _ (by simp [edges]))
      exact branch_triple h2 h4 (arm_triple h1 ht) (arm_triple h3 he)
  | forLoop span init cond update body =>
      have hbody := prog_triple (n + 2) (n + 1) none (some (endBlock (n + 2) (n + 1) body)) body
        fun u v h => hE u v (by simp [edges, h])
      have h1 : Link E cur n := .inr (hE _ _ (by simp [edges]))
      have h2 : Link E n (n + 1) := .inr (hE _ _ (by simp [edges]))
      have h3 : Link E (endBlock (n + 2) (n + 1) body) n := .inr (hE _ _ (by simp [edges]))
      have h4 : Link E n (n + 2 + size body) := .inr (hE _ _ (by simp [edges]))
      exact loop_triple (header_triple init cond h1 _)
        (turn_triple cont h2 hbody (header_triple update cond h3 _)) h4 (hnone _)
  | whileLoop span cond body =>
      have hbody := prog_triple (n + 2) (n + 1) none (some (endBlock (n + 2) (n + 1) body)) body
        fun u v h => hE u v (by simp [edges, h])
      have h1 : Link E cur n := .inr (hE _ _ (by simp [edges]))
      have h2 : Link E n (n + 1) := .inr (hE _ _ (by simp [edges]))
      have h3 : Link E (endBlock (n + 2) (n + 1) body) n := .inr (hE _ _ (by simp [edges]))
      have h4 : Link E n (n + 2 + size body) := .inr (hE _ _ (by simp [edges]))
      exact loop_triple (header_triple none (some cond) h1 _)
        (turn_triple cont h2 hbody (header_triple none (some cond) h3 _)) h4 (hnone _)
  | doLoop span body cond =>
      have hbody := prog_triple (n + 1) n none (some (endBlock (n + 1) n body)) body
        fun u v h => hE u v (by simp [edges, h])
      have h1 : Link E cur n := .inr (hE _ _ (by simp [edges]))
      have h2 : Link E (endBlock (n + 1) n body) (n + 1 + size body) :=
        .inr (hE _ _ (by simp [edges]))
      have h3 : Link E (n + 1 + size body) n := .inr (hE _ _ (by simp [edges]))
      have h4 : Link E (n + 1 + size body) (n + 1 + size body + 1) := .inr (hE _ _ (by simp [edges]))
      have hagain := test_triple cond h2 (Leaves none cont)
      exact loop_triple (turn_triple cont h1 hbody hagain) (turn_triple cont h3 hbody hagain) h4
        (hnone _)
  | switch span cond bodySpan body =>
      -- The dispatch step is not modelled: nothing after it is watched.
      refine Triple.seq (Q := (· = none)) (Triple.point fun s hs => ⟨At.ready (Link.refl cur) s hs, ?_⟩)
        (unwatched_triple.conseq (fun _ h => h) (fun s h => ?_) fun j s h => ?_)
      · simp [edgeMonitor]
      · rw [h]
        exact nofun
      · rw [h]
        cases j with
        | brk => exact nofun
        | cont => exact nofun
        | ret => exact trivial
  | caseStmt span label body =>
      exact Triple.seq (points_triple fun l hl => runs_mem hl) (progAll_fixed n cur brk cont body)

theorem progAll_triple (n cur : Nat) (brk cont : Option Nat) (ss : Stmts)
    (hE : ∀ u v, (u, v) ∈ edgesAll n cur ss → E u v) :
    Triple (edgeMonitor E) (At cur) (progAll false n cur brk cont ss) (At (endBlockAll n cur ss))
      (Leaves brk cont) := by
  cases ss with
  | nil => exact Triple.skip
  | cons s ss =>
      have hs := prog_triple n cur brk cont s fun u v h => hE u v (by simp [edgesAll, h])
      have hss := progAll_triple (n + size s) (endBlock n cur s) brk cont ss
        fun u v h => hE u v (by simp [edgesAll, h])
      exact Triple.seq hs hss
end

end Walked

end ShaderClippy.ControlFlow
