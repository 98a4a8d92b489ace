/-
  ShaderClippy.Hlsl.Effects

  **WHAT THE EVALUATION OF AN EXPRESSION DOES.**

  Assignments, updates and calls of functions that do something are the effects
  of an expression. HLSL evaluates all operands of a node, those of `&&`, `||`
  and `?:` too, so the effects can be listed from the tree, and a tree with
  two copies of an operand has its effects twice.

  Which functions do something is up to the shader; `Functions` says so, and
  that the intrinsics and constructors the rules look at do not.
-/
import ShaderClippy.Hlsl.Call

namespace ShaderClippy.Hlsl

open Munch (LexOK render)

/-! ## §1. Effects. -/

/-- Three components of a vector, by the name of the type. -/
def vector3Names : List Text :=
  ["float3", "half3", "int3", "uint3", "min16float3"].map String.toList

/-- The functions whose calls have an effect. The intrinsics `cross` and `lerp`
and the constructors of vectors have none. -/
structure Functions where
  effectful : Text → Bool
  cross_pure : effectful ['c', 'r', 'o', 's', 's'] = false
  lerp_pure : effectful ['l', 'e', 'r', 'p'] = false
  vector3_pure : ∀ name ∈ vector3Names, effectful name = false

inductive Effect where
  | assign (op : Text)
  | update (op : Text)
  | call (function : Text)
  deriving DecidableEq

variable (F : Functions) (isType : Text → Bool)

/-- The effect of a call, besides those of its arguments. -/
def Functions.onCall (function : Text) : List Effect :=
  if F.effectful function then [.call function] else []

/-- The effect of an operator in front of its operand. -/
def unaryEffect (t : Token) : List Effect :=
  if kind isType t = .step then [.update t.body] else []

/-- The effect of an operator between its operands. -/
def binaryEffect (op : Token) : List Effect :=
  if (kind isType op).prec = some kAssign then [.assign op.body] else []

/-- The effects of an expression, in the order of its text. -/
def Expr.effects : Expr → List Effect
  | .atom _ => []
  | .paren _ e _ => e.effects
  | .construct _ _ args _ => args.effects
  | .unary (.op t) e => unaryEffect isType t ++ e.effects
  | .unary (.cast ..) e => e.effects
  | .binary x op y => x.effects ++ binaryEffect isType op ++ y.effects
  | .cond c _ a _ b => c.effects ++ a.effects ++ b.effects
  | .suffix e (.step t) => e.effects ++ [.update t.body]
  | .suffix e (.member ..) => e.effects
  | .suffix e (.nullary ..) => e.effects ++ F.onCall (nodeText e)
  -- a subscript has no effect of its own
  | .apply e l i _ =>
      e.effects ++ i.effects ++ if l.body = ['('] then F.onCall (nodeText e) else []

/-! ## §2. Blanks, arguments, names. -/

variable {F isType}

/-- The blanks in front of a node do not count. -/
theorem effects_withLead (lead : Text) (e : Expr) :
    (e.withLead lead).effects F isType = e.effects F isType := by
  induction e with
  | unary p e => cases p <;> rfl
  | binary x op y ih _ => simp only [Expr.withLead, Expr.effects, ih]
  | cond c q a k b ih _ _ => simp only [Expr.withLead, Expr.effects, ih]
  | suffix e s ih => cases s <;> simp only [Expr.withLead, Expr.effects, ih, nodeText_withLead]
  | apply e l i r ih _ => simp only [Expr.withLead, Expr.effects, ih, nodeText_withLead]
  | _ => rfl

theorem binaryEffect_comma {op : Token} (h : op.body = [',']) : binaryEffect isType op = [] := by
  have hkind : kind isType op = .operator kComma := by
    rw [kind, h]
    rfl
  rw [binaryEffect, hkind]
  rfl

/-- The effects of an argument list are those of the arguments. -/
theorem effects_arguments (i : Expr) :
    i.effects F isType = (arguments i).flatMap (Expr.effects F isType) := by
  induction i with
  | binary x op y ihx _ =>
      rw [arguments]
      split
      case isTrue hcomma =>
        rw [Expr.effects, binaryEffect_comma hcomma, ihx, List.append_nil, List.flatMap_append,
          List.flatMap_singleton]
      case isFalse => rw [List.flatMap_singleton]
  | _ => simp [arguments]

/-- A node of one token has no effects. -/
theorem effects_of_single {e : Expr} (h : e.toks.length = 1) : e.effects F isType = [] := by
  have hpos : ∀ x : Expr, 0 < x.toks.length := fun x => List.length_pos_iff.mpr x.toks_ne_nil
  cases e with
  | atom => rfl
  | paren l e r => simp [Expr.toks] at h
  | construct => simp [Expr.toks] at h
  | unary p e =>
      have he := hpos e
      cases p <;> simp only [Expr.toks, Prefix.toks, List.length_append, List.length_cons] at h <;> omega
  | binary x op y =>
      have hx := hpos x
      simp only [Expr.toks, List.length_append, List.length_cons] at h
      omega
  | cond c q a k b =>
      have hc := hpos c
      simp only [Expr.toks, List.length_append, List.length_cons] at h
      omega
  | suffix e s =>
      have he := hpos e
      cases s <;> simp only [Expr.toks, Suffix.toks, List.length_append, List.length_cons] at h <;> omega
  | apply e l i r =>
      have he := hpos e
      simp only [Expr.toks, List.length_append, List.length_cons] at h
      omega

/-- A node that is written as one word is one token. -/
theorem toks_of_word {e : Expr} (he : LexOK rules e.toks) {w : Text} (hw : Munch.IsToken rules w)
    (htext : nodeText e = w) : e.toks.length = 1 := by
  have hblank : ∀ c ∈ ([] : Text), rules.space c = true := fun c hc => absurd hc List.not_mem_nil
  cases htoks : e.toks with
  | nil => exact absurd htoks e.toks_ne_nil
  | cons t ts =>
      rw [htoks] at he
      rw [nodeText, htoks, setLead] at htext
      -- the text is read in one way only
      have hnode : Munch.lex rules w = some (⟨[], t.body⟩ :: ts, []) :=
        Munch.lex_iff.mpr ⟨⟨hblank, he.2⟩, hblank, by rw [htext, List.append_nil]⟩
      have hword : Munch.lex rules w = some ([⟨[], w⟩], []) :=
        Munch.lex_iff.mpr ⟨⟨hblank, hw, Munch.stops_nil _, trivial⟩, hblank, by simp [Munch.Lexeme.text]⟩
      rw [hword] at hnode
      cases hnode
      rfl

/-- The arguments of a node, none if it is no call. -/
def operands (node : Expr) : List Expr := ((callOf node).map Call.args).getD []

/-- **A call of a function without effects** has those of its arguments. -/
theorem effects_call {node : Expr} (hnode : Part isType node) {call : Call}
    (hcall : callOf node = some call) {w : Text} (hw : Munch.IsToken rules w)
    (hname : nodeText call.function = w) (hpure : F.effectful w = false) :
    node.effects F isType = call.args.flatMap (Expr.effects F isType) := by
  cases node with
  | apply f l i r =>
      rw [callOf] at hcall
      split at hcall
      case isTrue hparen =>
        cases hcall
        have hf : Part isType f := Part.fill (f := .callee l i r) hnode
        rw [Expr.effects, effects_of_single (toks_of_word hf.2 hw hname), if_pos hparen,
          Functions.onCall, hname, hpure, effects_arguments]
        simp
      case isFalse => cases hcall
  | construct type l args r =>
      cases hcall
      rw [Expr.effects, effects_arguments]
  -- a call without arguments is parsed as a suffix
  | suffix f s =>
      cases s with
      | nullary l r =>
          cases hcall
          have hf : Part isType f := Part.fill (f := .suffix (.nullary l r)) hnode
          rw [Expr.effects, effects_of_single (toks_of_word hf.2 hw hname), Functions.onCall, hname,
            hpure]
          rfl
      | step => cases hcall
      | member => cases hcall
  | _ => cases hcall

end ShaderClippy.Hlsl
