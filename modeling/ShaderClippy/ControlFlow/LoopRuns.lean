/-
  ShaderClippy.ControlFlow.LoopRuns

  **ONE RUN OF A LOOP.**

  Two evaluations belong to one run of a loop if the loop is not entered anew
  between them. `withEntries` puts a mark in front of every loop of a body: a
  statement that does nothing but show in the trace that the loop is entered
  (`withEntries_alike`).
-/
import ShaderClippy.ControlFlow.Evaluation
import ShaderClippy.Lib.Hiding

namespace ShaderClippy.ControlFlow.Evaluation

open Structured

/-! ## §1. Marks. -/

def entryKind : NodeKind := .other "loop_entry".toList

/-- The mark of the loop with that span. -/
def entryMark (span : ByteSpan) : PlainNode := ⟨namedNode entryKind none span [], rfl, rfl⟩

/-- A loop behind its mark. -/
def marked (span : ByteSpan) (loop : Stmt) : Stmt :=
  .compound span (.cons (.simple (entryMark span)) (.cons loop .nil))

mutual
/-- The statement with marks. -/
def withEntries : Stmt → Stmt
  | .simple code => .simple code
  | .returnStmt span value => .returnStmt span value
  | .breakStmt span => .breakStmt span
  | .continueStmt span => .continueStmt span
  | .compound span body => .compound span (withEntriesAll body)
  | .ifThen span cond thenStmt => .ifThen span cond (withEntries thenStmt)
  | .ifElse span cond thenStmt elseSpan elseStmt =>
      .ifElse span cond (withEntries thenStmt) elseSpan (withEntries elseStmt)
  | .forLoop span init cond update body => marked span (.forLoop span init cond update (withEntries body))
  | .whileLoop span cond body => marked span (.whileLoop span cond (withEntries body))
  | .doLoop span body cond => marked span (.doLoop span (withEntries body) cond)
  | .switch span cond bodySpan body => .switch span cond bodySpan (withEntriesAll body)
  | .caseStmt span label body => .caseStmt span label (withEntriesAll body)

def withEntriesAll : Stmts → Stmts
  | .nil => .nil
  | .cons s ss => .cons (withEntries s) (withEntriesAll ss)
end

/-- The step is a mark. -/
def isEntry : Step → Bool
  | .value n => n.kind == entryKind
  | .store _ | .declare _ => false

/-- The step is the mark of that loop. -/
def enters (loop : Node) : Step → Bool
  | .value n => n.kind == entryKind && n.info.lo == loop.info.lo && n.info.hi == loop.info.hi
  | .store _ | .declare _ => false

/-! ## §2. What the marks change. -/

/-- The steps of a part, wherever its blocks are. -/
abbrev stepsOf (p : Prog Visit) : Prog Step := p.bind visitSteps

theorem mark_hidden (cur : Nat) (span : ByteSpan) : Hidden isEntry (visitSteps (run cur (entryMark span))) :=
  hidden_skip.seq ((hidden_point rfl).seq hidden_skip)

/-- The blocks of points do not matter. -/
theorem stepsOf_points {vs vs' : List Visit} (h : vs.map Visit.code = vs'.map Visit.code) :
    stepsOf (Prog.points vs) = stepsOf (Prog.points vs') := by
  induction vs generalizing vs' with
  | nil =>
      cases vs' with
      | nil => rfl
      | cons v' vs' => cases h
  | cons v vs ih =>
      cases vs' with
      | nil => cases h
      | cons v' vs' =>
          obtain ⟨hcode, hrest⟩ := List.cons.inj h
          have hstep : visitSteps v = visitSteps v' := by
            unfold visitSteps
            rw [hcode]
          show Prog.seq (visitSteps v) (stepsOf (Prog.points vs))
            = Prog.seq (visitSteps v') (stepsOf (Prog.points vs'))
          rw [hstep, ih hrest]

theorem points_alike {vs vs' : List Visit} (h : vs.map Visit.code = vs'.map Visit.code) :
    Alike isEntry (stepsOf (Prog.points vs)) (stepsOf (Prog.points vs')) := by
  rw [stepsOf_points h]
  exact .refl _

section Alike

variable {first first' turn turn' body body' again again' p p' : Prog Visit}

theorem arm_alike (b b' : Nat) (h : Alike isEntry (stepsOf p) (stepsOf p')) :
    Alike isEntry (stepsOf (armProg b p)) (stepsOf (armProg b' p')) := (Alike.refl .skip).seq h

theorem turn_alike (b b' : Nat) (hbody : Alike isEntry (stepsOf body) (stepsOf body'))
    (hagain : stepsOf again = stepsOf again') :
    Alike isEntry (stepsOf (turnProg b body again)) (stepsOf (turnProg b' body' again')) := by
  refine arm_alike b b' ((hbody.catching .cont).seq ?_)
  show Alike isEntry (stepsOf again) (stepsOf again')
  rw [hagain]
  exact .refl _

theorem loop_alike (b b' : Nat) (hfirst : Alike isEntry (stepsOf first) (stepsOf first'))
    (hturn : Alike isEntry (stepsOf turn) (stepsOf turn')) :
    Alike isEntry (stepsOf (loopProg first turn b)) (stepsOf (loopProg first' turn' b')) :=
  ((hfirst.seq hturn.iter).catching .brk).seq (.refl .skip)

end Alike

/-- The mark in front is not seen. -/
theorem marked_alike {p : Prog Step} {loop : Stmt} (span : ByteSpan)
    (h : ∀ fixed n cur brk cont, Alike isEntry p (stepsOf (prog fixed n cur brk cont loop)))
    (fixed : Bool) (n cur : Nat) (brk cont : Option Nat) :
    Alike isEntry p (stepsOf (prog fixed n cur brk cont (marked span loop))) := by
  unfold marked
  rw [prog, progAll, progAll, progAll]
  exact ((h _ _ _ _ _).trans (alike_seq_skip _).symm).trans (alike_seq_hidden (mark_hidden cur span) _).symm

theorem isCase_withEntries (s : Stmt) : isCase (withEntries s) = isCase s := by
  cases s <;> rfl

theorem isDefaultCase_withEntries (s : Stmt) : isDefaultCase (withEntries s) = isDefaultCase s := by
  cases s with
  | caseStmt span label body => cases label <;> rfl
  | _ => rfl

mutual
/-- **The marks are all that changes**, for a statement anywhere. -/
theorem prog_alike : ∀ (s : Stmt) (fixed : Bool) (n cur : Nat) (brk cont : Option Nat) (fixed' : Bool)
    (n' cur' : Nat) (brk' cont' : Option Nat),
    Alike isEntry (stepsOf (prog fixed n cur brk cont s)) (stepsOf (prog fixed' n' cur' brk' cont' (withEntries s)))
  | .simple code, _, _, _, _, _, _, _, _, _, _ => by
      rw [withEntries, prog, prog]
      exact .refl _
  | .returnStmt span value, _, _, _, _, _, _, _, _, _, _ => by
      rw [withEntries, prog, prog]
      exact .refl _
  | .breakStmt span, _, _, _, _, _, _, _, _, _, _ => by
      rw [withEntries, prog, prog]
      exact .refl _
  | .continueStmt span, _, _, _, _, _, _, _, _, _, _ => by
      rw [withEntries, prog, prog]
      exact .refl _
  | .compound span body, _, _, _, _, _, _, _, _, _, _ => by
      rw [withEntries, prog, prog]
      exact progAll_alike body _ _ _ _ _ _ _ _ _ _
  | .ifThen span cond thenStmt, _, _, _, _, _, _, _, _, _, _ => by
      rw [withEntries, prog, prog]
      exact (Alike.refl _).seq (((arm_alike _ _ (prog_alike thenStmt _ _ _ _ _ _ _ _ _ _)).choice
        (.refl .skip)).seq (.refl .skip))
  | .ifElse span cond thenStmt elseSpan elseStmt, _, _, _, _, _, _, _, _, _, _ => by
      rw [withEntries, prog, prog]
      exact (Alike.refl _).seq (((arm_alike _ _ (prog_alike thenStmt _ _ _ _ _ _ _ _ _ _)).choice
        (arm_alike _ _ (prog_alike elseStmt _ _ _ _ _ _ _ _ _ _))).seq (.refl .skip))
  | .forLoop span init cond update body, _, _, _, _, _, fixed', n', cur', brk', cont' => by
      rw [withEntries]
      refine marked_alike span (fun fixed n cur brk cont => ?_) fixed' n' cur' brk' cont'
      rw [prog, prog]
      refine loop_alike _ _ (points_alike ?_)
        (turn_alike _ _ (prog_alike body _ _ _ _ _ _ _ _ _ _) (stepsOf_points ?_))
      · cases init <;> cases cond <;> rfl
      · cases update <;> cases cond <;> rfl
  | .whileLoop span cond body, _, _, _, _, _, fixed', n', cur', brk', cont' => by
      rw [withEntries]
      refine marked_alike span (fun fixed n cur brk cont => ?_) fixed' n' cur' brk' cont'
      rw [prog, prog]
      exact loop_alike _ _ (.refl _) (turn_alike _ _ (prog_alike body _ _ _ _ _ _ _ _ _ _) rfl)
  | .doLoop span body cond, _, _, _, _, _, fixed', n', cur', brk', cont' => by
      rw [withEntries]
      refine marked_alike span (fun fixed n cur brk cont => ?_) fixed' n' cur' brk' cont'
      rw [prog, prog]
      refine loop_alike _ _ ?_ ?_ <;> exact turn_alike _ _ (prog_alike body _ _ _ _ _ _ _ _ _ _) rfl
  | .switch span cond bodySpan body, _, _, _, _, _, _, _, _, _, _ => by
      rw [withEntries, prog, prog]
      exact (Alike.refl _).seq (((progCases_alike body _ _ _ _ (progDefault_alike body _ _ _ _)).catching .brk).seq
        (.refl .skip))
  | .caseStmt span label body, _, _, _, _, _, _, _, _, _, _ => by
      rw [withEntries, prog, prog]
      refine Alike.seq (points_alike ?_) (progAll_alike body _ _ _ _ _ _ _ _ _ _)
      cases label <;> rfl

theorem progAll_alike : ∀ (ss : Stmts) (fixed : Bool) (n cur : Nat) (brk cont : Option Nat) (fixed' : Bool)
    (n' cur' : Nat) (brk' cont' : Option Nat),
    Alike isEntry (stepsOf (progAll fixed n cur brk cont ss))
      (stepsOf (progAll fixed' n' cur' brk' cont' (withEntriesAll ss)))
  | .nil, _, _, _, _, _, _, _, _, _, _ => by
      rw [withEntriesAll, progAll, progAll]
      exact .refl _
  | .cons s ss, _, _, _, _, _, _, _, _, _, _ => by
      rw [withEntriesAll, progAll, progAll]
      exact (prog_alike s _ _ _ _ _ _ _ _ _ _).seq (progAll_alike ss _ _ _ _ _ _ _ _ _ _)

theorem progCases_alike : ∀ (ss : Stmts) (b : Nat) (cont : Option Nat) (b' : Nat) (cont' : Option Nat)
    {fallback fallback' : Prog Visit}, Alike isEntry (stepsOf fallback) (stepsOf fallback') →
    Alike isEntry (stepsOf (progCases b cont fallback ss)) (stepsOf (progCases b' cont' fallback' (withEntriesAll ss)))
  | .nil, _, _, _, _, _, _, h => by
      rw [withEntriesAll, progCases, progCases]
      exact h
  | .cons s ss, b, cont, b', cont', _, _, h => by
      rw [withEntriesAll, progCases, progCases, isCase_withEntries]
      split
      · exact ((prog_alike s _ _ _ _ _ _ _ _ _ _).seq (progAll_alike ss _ _ _ _ _ _ _ _ _ _)).choice
          (progCases_alike ss b cont b' cont' h)
      · exact progCases_alike ss b cont b' cont' h

theorem progDefault_alike : ∀ (ss : Stmts) (b : Nat) (cont : Option Nat) (b' : Nat) (cont' : Option Nat),
    Alike isEntry (stepsOf (progDefault b cont ss)) (stepsOf (progDefault b' cont' (withEntriesAll ss)))
  | .nil, _, _, _, _ => by
      rw [withEntriesAll, progDefault, progDefault]
      exact .refl _
  | .cons s ss, b, cont, b', cont' => by
      rw [withEntriesAll, progDefault, progDefault, isDefaultCase_withEntries]
      split
      · exact (prog_alike s _ _ _ _ _ _ _ _ _ _).seq (progAll_alike ss _ _ _ _ _ _ _ _ _ _)
      · exact progDefault_alike ss b cont b' cont'
end

/-- **Apart from the marks the body does the same.** -/
theorem withEntries_alike (body : Stmt) : Alike isEntry (bodySteps body) (bodySteps (withEntries body)) :=
  prog_alike body _ _ _ _ _ _ _ _ _ _

end ShaderClippy.ControlFlow.Evaluation
