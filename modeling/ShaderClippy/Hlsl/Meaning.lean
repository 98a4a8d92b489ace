/-
  ShaderClippy.Hlsl.Meaning

  **THE MEANING OF AN EXPRESSION, NODE BY NODE.**

  An `Algebra` says what every kind of node means in terms of its operands; the
  meaning of a tree follows. Two nodes of the same meaning may stand for each
  other in every context (`value_plug_congr`), and the blanks of a tree do not
  count (`meaning_withLead`).
-/
import ShaderClippy.Hlsl.Call

namespace ShaderClippy.Hlsl

variable {V : Type}

/-! ## §1. Algebras. -/

/-- What is called: a function by its name, a method of a value, or a value. -/
inductive Callee (V : Type) where
  | name (t : Text)
  | method (receiver : V) (t : Text)
  | value (v : V)

/-- The meaning of the nodes; tokens are given by their texts. -/
structure Algebra (V : Type) where
  atom : Text → V
  unary : Text → V → V
  cast : Text → V → V
  binary : Text → V → V → V
  cond : V → V → V → V
  step : V → Text → V
  member : V → Text → V
  call : Callee V → List V → V
  index : V → V → V

/-- What a node stands for: its value, the arguments it is between the
parentheses of a call, and the callee it is in front of them. -/
structure Meaning (V : Type) where
  value : V
  args : List V
  callee : Callee V

/-- A node that is one argument, and no function by its name. -/
def Meaning.ofValue (v : V) : Meaning V := ⟨v, [v], .value v⟩

def meaning (A : Algebra V) : Expr → Meaning V
  | .atom t => ⟨A.atom t.body, [A.atom t.body], .name t.body⟩
  | .paren _ e _ => .ofValue (meaning A e).value
  | .construct type _ args _ => .ofValue (A.call (.name type.body) (meaning A args).args)
  | .unary (.op t) e => .ofValue (A.unary t.body (meaning A e).value)
  | .unary (.cast _ type _) e => .ofValue (A.cast type.body (meaning A e).value)
  | .binary x op y =>
      let v := A.binary op.body (meaning A x).value (meaning A y).value
      if op.body = [','] then ⟨v, (meaning A x).args ++ [(meaning A y).value], .value v⟩ else .ofValue v
  | .cond c _ a _ b => .ofValue (A.cond (meaning A c).value (meaning A a).value (meaning A b).value)
  | .suffix e (.step t) => .ofValue (A.step (meaning A e).value t.body)
  | .suffix e (.member _ name) =>
      let v := A.member (meaning A e).value name.body
      ⟨v, [v], .method (meaning A e).value name.body⟩
  | .suffix e (.nullary _ _) => .ofValue (A.call (meaning A e).callee [])
  | .apply e l i _ =>
      if l.body = ['('] then .ofValue (A.call (meaning A e).callee (meaning A i).args)
      else .ofValue (A.index (meaning A e).value (meaning A i).value)

/-- The value of an expression. -/
def Expr.value (A : Algebra V) (e : Expr) : V := (meaning A e).value

theorem value_binary (A : Algebra V) (x : Expr) (op : Token) (y : Expr) :
    (Expr.binary x op y).value A = A.binary op.body (x.value A) (y.value A) := by
  rw [Expr.value, meaning]
  split <;> rfl

/-- The arguments are those of the comma. -/
theorem meaning_args (A : Algebra V) (e : Expr) :
    (meaning A e).args = (arguments e).map (Expr.value A) := by
  induction e with
  | binary x op y ihx _ =>
      by_cases hop : op.body = [',']
      · simp only [meaning, arguments, hop, if_true, ihx, List.map_append, List.map_singleton]
        rfl
      · simp [meaning, arguments, hop, Expr.value, Meaning.ofValue]
  | unary p e => cases p <;> rfl
  | suffix e s => cases s <;> rfl
  | apply e l i r =>
      show (meaning A (.apply e l i r)).args = [(meaning A (.apply e l i r)).value]
      rw [meaning]
      split <;> rfl
  | _ => rfl

/-! ## §2. One node for another. -/

/-- The blanks in front of a node do not count. -/
theorem meaning_withLead (A : Algebra V) (lead : Text) (e : Expr) :
    meaning A (e.withLead lead) = meaning A e := by
  induction e with
  | unary p e => cases p <;> rfl
  | binary x op y ih _ => simp only [Expr.withLead, meaning, ih]
  | cond c q a k b ih _ _ => simp only [Expr.withLead, meaning, ih]
  | suffix e s ih => cases s <;> simp only [Expr.withLead, meaning, ih]
  | apply e l i r ih _ => simp only [Expr.withLead, meaning, ih]
  | _ => rfl

theorem value_withLead (A : Algebra V) (lead : Text) (e : Expr) :
    (e.withLead lead).value A = e.value A := by
  rw [Expr.value, meaning_withLead, Expr.value]

/-- Two nodes of one value that are the same arguments. -/
def SameValue (A : Algebra V) (e e' : Expr) : Prop :=
  (meaning A e).value = (meaning A e').value ∧ (meaning A e).args = (meaning A e').args

/-- Two operators of one value, neither a comma, are the same arguments. -/
theorem sameValue_binary {A : Algebra V} {x y x' y' : Expr} {op : Token} (hop : op.body ≠ [','])
    (h : (Expr.binary x op y).value A = (Expr.binary x' op y').value A) :
    SameValue A (.binary x op y) (.binary x' op y') := by
  refine ⟨h, ?_⟩
  rw [meaning_args, meaning_args, arguments, if_neg hop, arguments, if_neg hop, List.map_singleton,
    List.map_singleton, h]

/-- A frame that asks for less than a postfix sees its hole by its value only. -/
theorem meaning_fill_congr {A : Algebra V} {e e' : Expr} (h : SameValue A e e') {f : Frame}
    (hf : f.need isType < kPostfix) : meaning A (f.fill e) = meaning A (f.fill e') := by
  have ⟨hv, ha⟩ := h
  cases f with
  | unary p => cases p <;> simp only [Frame.fill, meaning, hv]
  | left op y => simp only [Frame.fill, meaning, hv, ha]
  | right x op => simp only [Frame.fill, meaning, hv]
  | suffix s => exact absurd hf (Nat.lt_irrefl _)
  | callee l i r => exact absurd hf (Nat.lt_irrefl _)
  | _ => simp only [Frame.fill, meaning, hv, ha]

/-- Equal meanings in one context have equal meanings. -/
theorem meaning_plug_congr {A : Algebra V} {e e' : Expr} (h : meaning A e = meaning A e') (c : Ctx) :
    meaning A (c.plug e) = meaning A (c.plug e') := by
  induction c generalizing e e' with
  | nil => exact h
  | cons f c ih =>
      refine ih ?_
      cases f with
      | unary p => cases p <;> simp only [Frame.fill, meaning, h]
      | suffix s => cases s <;> simp only [Frame.fill, meaning, h]
      | _ => simp only [Frame.fill, meaning, h]

/-- **A node of the same value may stand in every place** but that of a
function. -/
theorem value_plug_congr {isType : Text → Bool} {A : Algebra V} {e e' : Expr} (h : SameValue A e e')
    {c : Ctx} (hneed : c.need isType < kPostfix) : (c.plug e).value A = (c.plug e').value A := by
  cases c with
  | nil => exact h.1
  | cons f c =>
      exact congrArg Meaning.value (meaning_plug_congr (meaning_fill_congr h hneed) c)

end ShaderClippy.Hlsl
