/-
  ShaderClippy.Hlsl.Expr

  **EXPRESSIONS, WITH ALL THEIR TOKENS.**

  A tree keeps every token of its text, so `toks` prints it back.
  `WellFormed` is the grammar: every operand binds as tightly as its place asks
  for. A context (`Ctx`) is what is around a node; filling it is well formed
  exactly if the context is, the node is, and the node binds tightly enough
  (`wellFormed_plug`).

  Arguments are one expression with commas at its top.
-/
import ShaderClippy.Hlsl.Token

namespace ShaderClippy.Hlsl

/-! ## §1. Trees. -/

/-- What stands in front of an operand. -/
inductive Prefix where
  | op (t : Token)
  | cast (l type r : Token)
  deriving DecidableEq

/-- What stands behind an operand, with no expression in it. -/
inductive Suffix where
  | step (t : Token)
  | member (dot name : Token)
  | nullary (l r : Token)
  deriving DecidableEq

inductive Expr where
  | atom (t : Token)
  | paren (l : Token) (e : Expr) (r : Token)
  | construct (type l : Token) (args : Expr) (r : Token)
  | unary (p : Prefix) (e : Expr)
  | binary (x : Expr) (op : Token) (y : Expr)
  | cond (c : Expr) (q : Token) (a : Expr) (k : Token) (b : Expr)
  | suffix (e : Expr) (s : Suffix)
  | apply (e : Expr) (l : Token) (i : Expr) (r : Token)
  deriving DecidableEq

def Prefix.toks : Prefix → List Token
  | .op t => [t]
  | .cast l type r => [l, type, r]

def Suffix.toks : Suffix → List Token
  | .step t => [t]
  | .member dot name => [dot, name]
  | .nullary l r => [l, r]

/-- The tokens of a tree. -/
def Expr.toks : Expr → List Token
  | .atom t => [t]
  | .paren l e r => l :: (e.toks ++ [r])
  | .construct type l args r => type :: l :: (args.toks ++ [r])
  | .unary p e => p.toks ++ e.toks
  | .binary x op y => x.toks ++ op :: y.toks
  | .cond c q a k b => c.toks ++ q :: (a.toks ++ k :: b.toks)
  | .suffix e s => e.toks ++ s.toks
  | .apply e l i r => e.toks ++ l :: (i.toks ++ [r])

/-- Every expression has a token. -/
theorem Expr.toks_ne_nil (e : Expr) : e.toks ≠ [] := by
  induction e with
  | atom => simp [toks]
  | paren => simp [toks]
  | construct => simp [toks]
  | unary p e ih => cases p <;> simp [toks, Prefix.toks]
  | binary => simp [toks]
  | cond => simp [toks]
  | suffix e s ih => simp [toks, ih]
  | apply => simp [toks]

/-! ## §2. The grammar. -/

variable (isType : Text → Bool)

abbrev kind (t : Token) : Kind := kindOf isType t.body

def kConditional : Nat := 2
def kUnary : Nat := 14
def kPostfix : Nat := 15
def kPrimary : Nat := 16

/-- How tightly an expression binds. -/
def Expr.level : Expr → Nat
  | .atom _ => kPrimary
  | .paren .. => kPrimary
  | .construct .. => kPrimary
  | .unary .. => kUnary
  | .binary _ op _ => (kind isType op).prec.elim 0 Prec.level
  | .cond .. => kConditional
  | .suffix .. => kPostfix
  | .apply .. => kPostfix

/-- A call or a subscript. -/
def Brackets (l r : Token) : Prop :=
  (kind isType l = .openParen ∧ kind isType r = .closeParen)
    ∨ (kind isType l = .openBracket ∧ kind isType r = .closeBracket)

def Prefix.WellFormed : Prefix → Prop
  | .op t => (kind isType t).isUnary = true
  | .cast l type r =>
      kind isType l = .openParen ∧ kind isType type = .type ∧ kind isType r = .closeParen

def Suffix.WellFormed : Suffix → Prop
  | .step t => kind isType t = .step
  | .member dot name => kind isType dot = .dot ∧ (kind isType name).isWord = true
  | .nullary l r => kind isType l = .openParen ∧ kind isType r = .closeParen

/-- The grammar of expressions. -/
def Expr.WellFormed : Expr → Prop
  | .atom t => kind isType t = .name ∨ kind isType t = .number
  | .paren l e r => kind isType l = .openParen ∧ e.WellFormed ∧ kind isType r = .closeParen
  | .construct type l args r =>
      kind isType type = .type ∧ kind isType l = .openParen ∧ args.WellFormed
        ∧ kind isType r = .closeParen
  | .unary p e => p.WellFormed isType ∧ e.WellFormed ∧ kUnary ≤ e.level isType
  | .binary x op y =>
      ∃ p, (kind isType op).prec = some p ∧ x.WellFormed ∧ p.left ≤ x.level isType
        ∧ y.WellFormed ∧ p.right ≤ y.level isType
  | .cond c q a k b =>
      kind isType q = .question ∧ kind isType k = .colon ∧ c.WellFormed ∧ 3 ≤ c.level isType
        ∧ a.WellFormed ∧ b.WellFormed ∧ 1 ≤ b.level isType
  | .suffix e s => e.WellFormed ∧ kPostfix ≤ e.level isType ∧ s.WellFormed isType
  | .apply e l i r => e.WellFormed ∧ kPostfix ≤ e.level isType ∧ i.WellFormed ∧ Brackets isType l r

/-- An operator expression has the level of its operator. -/
theorem level_binary {op : Token} {p : Prec} (h : (kind isType op).prec = some p) (x y : Expr) :
    (Expr.binary x op y).level isType = p.level := by
  rw [Expr.level, h]
  rfl

/-! ## §3. Contexts. -/

/-- One node around a hole. -/
inductive Frame where
  | paren (l r : Token)
  | construct (type l r : Token)
  | unary (p : Prefix)
  | left (op : Token) (y : Expr)
  | right (x : Expr) (op : Token)
  | test (q : Token) (a : Expr) (k : Token) (b : Expr)
  | consequence (c : Expr) (q k : Token) (b : Expr)
  | alternative (c : Expr) (q : Token) (a : Expr) (k : Token)
  | suffix (s : Suffix)
  | callee (l : Token) (i : Expr) (r : Token)
  | argument (e : Expr) (l r : Token)

namespace Frame

/-- The node with the hole filled. -/
def fill : Frame → Expr → Expr
  | .paren l r, e => .paren l e r
  | .construct type l r, e => .construct type l e r
  | .unary p, e => .unary p e
  | .left op y, e => .binary e op y
  | .right x op, e => .binary x op e
  | .test q a k b, e => .cond e q a k b
  | .consequence c q k b, e => .cond c q e k b
  | .alternative c q a k, e => .cond c q a k e
  | .suffix s, e => .suffix e s
  | .callee l i r, e => .apply e l i r
  | .argument f l r, e => .apply f l e r

/-- The tokens of the node in front of the hole. -/
def before : Frame → List Token
  | .paren l _ => [l]
  | .construct type l _ => [type, l]
  | .unary p => p.toks
  | .left _ _ => []
  | .right x op => x.toks ++ [op]
  | .test _ _ _ _ => []
  | .consequence c q _ _ => c.toks ++ [q]
  | .alternative c q a k => c.toks ++ q :: (a.toks ++ [k])
  | .suffix _ => []
  | .callee _ _ _ => []
  | .argument f l _ => f.toks ++ [l]

/-- The tokens of the node behind the hole. -/
def after : Frame → List Token
  | .paren _ r => [r]
  | .construct _ _ r => [r]
  | .unary _ => []
  | .left op y => op :: y.toks
  | .right _ _ => []
  | .test q a k b => q :: (a.toks ++ k :: b.toks)
  | .consequence _ _ k b => k :: b.toks
  | .alternative _ _ _ _ => []
  | .suffix s => s.toks
  | .callee l i r => l :: (i.toks ++ [r])
  | .argument _ _ r => [r]

theorem toks_fill (f : Frame) (e : Expr) : (f.fill e).toks = f.before ++ e.toks ++ f.after := by
  cases f <;> simp [fill, before, after, Expr.toks]

/-- How tightly the filled node binds, whatever the hole is filled with. -/
def level : Frame → Nat
  | .paren _ _ => kPrimary
  | .construct _ _ _ => kPrimary
  | .unary _ => kUnary
  | .left op _ => (kind isType op).prec.elim 0 Prec.level
  | .right _ op => (kind isType op).prec.elim 0 Prec.level
  | .test _ _ _ _ => kConditional
  | .consequence _ _ _ _ => kConditional
  | .alternative _ _ _ _ => kConditional
  | .suffix _ => kPostfix
  | .callee _ _ _ => kPostfix
  | .argument _ _ _ => kPostfix

theorem level_fill (f : Frame) (e : Expr) : (f.fill e).level isType = f.level isType := by
  cases f <;> rfl

/-- How tightly the hole asks its content to bind. -/
def need : Frame → Nat
  | .paren _ _ => 0
  | .construct _ _ _ => 0
  | .unary _ => kUnary
  | .left op _ => (kind isType op).prec.elim 0 Prec.left
  | .right _ op => (kind isType op).prec.elim 0 Prec.right
  | .test _ _ _ _ => 3
  | .consequence _ _ _ _ => 0
  | .alternative _ _ _ _ => 1
  | .suffix _ => kPostfix
  | .callee _ _ _ => kPostfix
  | .argument _ _ _ => 0

/-- The rest of the node is well formed. -/
def WellFormed : Frame → Prop
  | .paren l r => kind isType l = .openParen ∧ kind isType r = .closeParen
  | .construct type l r =>
      kind isType type = .type ∧ kind isType l = .openParen ∧ kind isType r = .closeParen
  | .unary p => p.WellFormed isType
  | .left op y =>
      ∃ p, (kind isType op).prec = some p ∧ y.WellFormed isType ∧ p.right ≤ y.level isType
  | .right x op =>
      ∃ p, (kind isType op).prec = some p ∧ x.WellFormed isType ∧ p.left ≤ x.level isType
  | .test q a k b =>
      kind isType q = .question ∧ kind isType k = .colon ∧ a.WellFormed isType
        ∧ b.WellFormed isType ∧ 1 ≤ b.level isType
  | .consequence c q k b =>
      kind isType q = .question ∧ kind isType k = .colon ∧ c.WellFormed isType
        ∧ 3 ≤ c.level isType ∧ b.WellFormed isType ∧ 1 ≤ b.level isType
  | .alternative c q a k =>
      kind isType q = .question ∧ kind isType k = .colon ∧ c.WellFormed isType
        ∧ 3 ≤ c.level isType ∧ a.WellFormed isType
  | .suffix s => s.WellFormed isType
  | .callee l i r => i.WellFormed isType ∧ Brackets isType l r
  | .argument f l r => f.WellFormed isType ∧ kPostfix ≤ f.level isType ∧ Brackets isType l r

/-- A filled frame is well formed when its hole holds an expression of the level it needs. -/
theorem wellFormed_fill (f : Frame) (e : Expr) :
    (f.fill e).WellFormed isType ↔
      f.WellFormed isType ∧ e.WellFormed isType ∧ f.need isType ≤ e.level isType := by
  cases f with
  | left op y =>
      simp only [fill, Expr.WellFormed, WellFormed, need]
      constructor
      · rintro ⟨p, hp, he, hle, hy, hley⟩
        rw [hp]
        exact ⟨⟨p, rfl, hy, hley⟩, he, hle⟩
      · rintro ⟨⟨p, hp, hy, hley⟩, he, hle⟩
        rw [hp] at hle
        exact ⟨p, hp, he, hle, hy, hley⟩
  | right x op =>
      simp only [fill, Expr.WellFormed, WellFormed, need]
      constructor
      · rintro ⟨p, hp, hx, hlex, he, hle⟩
        rw [hp]
        exact ⟨⟨p, rfl, hx, hlex⟩, he, hle⟩
      · rintro ⟨⟨p, hp, hx, hlex⟩, he, hle⟩
        rw [hp] at hle
        exact ⟨p, hp, hx, hlex, he, hle⟩
  | _ =>
      simp only [fill, Expr.WellFormed, WellFormed, need] <;> grind

end Frame

/-- What is around a node, the nearest first. -/
abbrev Ctx := List Frame

namespace Ctx

/-- The root, with the node in its place. -/
def plug : Ctx → Expr → Expr
  | [], e => e
  | f :: c, e => plug c (f.fill e)

def before : Ctx → List Token
  | [] => []
  | f :: c => before c ++ f.before

def after : Ctx → List Token
  | [] => []
  | f :: c => f.after ++ after c

theorem toks_plug (c : Ctx) (e : Expr) : (c.plug e).toks = c.before ++ e.toks ++ c.after := by
  induction c generalizing e with
  | nil => simp [plug, before, after]
  | cons f c ih => simp [plug, before, after, ih, Frame.toks_fill]

/-- How tightly the hole asks its content to bind. -/
def need : Ctx → Nat
  | [] => 0
  | f :: _ => f.need isType

/-- The tree around the node is well formed. -/
def WellFormed : Ctx → Prop
  | [] => True
  | f :: c => f.WellFormed isType ∧ need isType c ≤ f.level isType ∧ WellFormed c

/-- **What a hole asks for**: the tree is well formed exactly if the context is,
the node is, and the node binds tightly enough. -/
theorem wellFormed_plug (c : Ctx) (e : Expr) :
    (c.plug e).WellFormed isType ↔
      c.WellFormed isType ∧ e.WellFormed isType ∧ c.need isType ≤ e.level isType := by
  induction c generalizing e with
  | nil => simp [plug, WellFormed, need]
  | cons f c ih =>
      rw [plug, ih, Frame.wellFormed_fill, Frame.level_fill, WellFormed, need]
      tauto

end Ctx

end ShaderClippy.Hlsl
