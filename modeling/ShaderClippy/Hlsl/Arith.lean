/-
  ShaderClippy.Hlsl.Arith

  **ARITHMETIC OVER `int`, `uint` AND `float`.**

  Operands of different types are converted to the greater one; integers wrap
  at 32 bits and their division truncates; a float is a number of an ordered
  field, without rounding. What is no arithmetic has no value.
-/
import Mathlib
import ShaderClippy.Hlsl.Meaning

namespace ShaderClippy.Hlsl

/-! ## §1. Scalars. -/

inductive Scalar where
  | int
  | uint
  | float
  deriving DecidableEq

/-- The usual arithmetic conversions: `int`, then `uint`, then `float`. -/
def Scalar.join : Scalar → Scalar → Scalar
  | .float, _ => .float
  | _, .float => .float
  | .uint, _ => .uint
  | _, .uint => .uint
  | .int, .int => .int

/-- The common type does not depend on the order of the operands. -/
theorem Scalar.join_comm (t u : Scalar) : t.join u = u.join t := by
  cases t <;> cases u <;> rfl

theorem Scalar.join_self (t : Scalar) : t.join t = t := by
  cases t <;> rfl

inductive Value (K : Type) where
  | int (n : BitVec 32)
  | uint (n : BitVec 32)
  | float (x : K)
  deriving DecidableEq

namespace Value

variable {K : Type}

def type : Value K → Scalar
  | .int _ => .int
  | .uint _ => .uint
  | .float _ => .float

/-- The bits of an integer. -/
def bits : Value K → BitVec 32
  | .int n => n
  | .uint n => n
  | .float _ => 0

variable [Field K]

def toFloat : Value K → K
  | .int n => n.toInt
  | .uint n => n.toNat
  | .float x => x

/-- Conversion to a greater type. -/
def convert (t : Scalar) (v : Value K) : Value K :=
  match t with
  | .int => .int v.bits
  | .uint => .uint v.bits
  | .float => .float v.toFloat

@[simp] theorem type_convert (t : Scalar) (v : Value K) : (v.convert t).type = t := by
  cases t <;> rfl

@[simp] theorem convert_type (v : Value K) : v.convert v.type = v := by
  cases v <;> rfl

end Value

/-! ## §2. Operators. -/

/-- A binary operator at each of the types. -/
structure ArithOp (K : Type) where
  int : BitVec 32 → BitVec 32 → Value K
  uint : BitVec 32 → BitVec 32 → Value K
  float : K → K → Value K

namespace ArithOp

variable {K : Type} [Field K]

/-- Both operands are converted to the greater of their types. -/
def apply (op : ArithOp K) (v w : Value K) : Value K :=
  match v.type.join w.type with
  | .int => op.int v.bits w.bits
  | .uint => op.uint v.bits w.bits
  | .float => op.float v.toFloat w.toFloat

/-- A conversion to the type of the other operand happens anyway. -/
theorem apply_convert (f : ArithOp K) {v w : Value K} {t : Scalar} (hv : v.type.join t = t)
    (hw : w.type = t) :
    f.apply (v.convert t) w = f.apply v w ∧ f.apply w (v.convert t) = f.apply w v := by
  subst hw
  have htype : (v.convert w.type).type = w.type := Value.type_convert _ _
  have hcomm : w.type.join v.type = w.type := by rw [Scalar.join_comm, hv]
  rw [ArithOp.apply, ArithOp.apply, ArithOp.apply, ArithOp.apply, htype, Scalar.join_self, hv, hcomm]
  cases hwt : w.type with
  | int => exact ⟨rfl, rfl⟩
  | uint => exact ⟨rfl, rfl⟩
  | float => exact ⟨rfl, rfl⟩

/-- `+`, `-`, `*`, `/` and `%`; the remainder of floats is a parameter. -/
def arithmetic (rem : K → K → K) : Text → Option (ArithOp K)
  | ['+'] => some ⟨fun m n => .int (m + n), fun m n => .uint (m + n), fun x y => .float (x + y)⟩
  | ['-'] => some ⟨fun m n => .int (m - n), fun m n => .uint (m - n), fun x y => .float (x - y)⟩
  | ['*'] => some ⟨fun m n => .int (m * n), fun m n => .uint (m * n), fun x y => .float (x * y)⟩
  | ['/'] =>
      some ⟨fun m n => .int (m.sdiv n), fun m n => .uint (m.udiv n), fun x y => .float (x / y)⟩
  | ['%'] =>
      some ⟨fun m n => .int (m.srem n), fun m n => .uint (m.umod n), fun x y => .float (rem x y)⟩
  | _ => none

variable [LinearOrder K]

def truth (b : Bool) : Value K := .int (if b then 1 else 0)

/-- The comparisons. -/
def comparison : Text → Option (ArithOp K)
  | ['<'] => some ⟨fun m n => truth (m.slt n), fun m n => truth (m.ult n), fun x y => truth (x < y)⟩
  | ['>'] => some ⟨fun m n => truth (n.slt m), fun m n => truth (n.ult m), fun x y => truth (y < x)⟩
  | ['<', '='] =>
      some ⟨fun m n => truth (m.sle n), fun m n => truth (m.ule n), fun x y => truth (x ≤ y)⟩
  | ['>', '='] =>
      some ⟨fun m n => truth (n.sle m), fun m n => truth (n.ule m), fun x y => truth (y ≤ x)⟩
  | ['=', '='] =>
      some ⟨fun m n => truth (m == n), fun m n => truth (m == n), fun x y => truth (x = y)⟩
  | ['!', '='] =>
      some ⟨fun m n => truth (m != n), fun m n => truth (m != n), fun x y => truth (x ≠ y)⟩
  | _ => none

/-- The operators that convert their operands. -/
def ofText (rem : K → K → K) (op : Text) : Option (ArithOp K) :=
  (arithmetic rem op).or (comparison op)

end ArithOp

/-! ## §3. Literals. -/

def isFloatLetter (c : Char) : Bool :=
  c == '.' || c == 'e' || c == 'E' || c == 'f' || c == 'F' || c == 'h' || c == 'H'

def isUnsignedLetter (c : Char) : Bool := c == 'u' || c == 'U'

def isHex : Text → Bool
  | '0' :: c :: _ => c == 'x' || c == 'X'
  | _ => false

/-- The type of a number, by its letters. -/
def literalType (t : Text) : Scalar :=
  if !isHex t && t.any isFloatLetter then .float
  else if t.any isUnsignedLetter then .uint
  else .int

def digitOf (c : Char) : Nat :=
  if c.isDigit then c.toNat - '0'.toNat else c.toLower.toNat - 'a'.toNat + 10

/-- The number a row of digits stands for. -/
def digitsValue (base : Nat) (ds : Text) : Nat := ds.foldl (fun n c => n * base + digitOf c) 0

def isHexDigit (c : Char) : Bool := c.isDigit || ('a' ≤ c.toLower && c.toLower ≤ 'f')

/-- The value of an integer literal: hexadecimal, octal or decimal. -/
def integerValue (t : Text) : Nat :=
  if isHex t then digitsValue 16 ((t.drop 2).takeWhile isHexDigit)
  else
    let ds := t.takeWhile Char.isDigit
    digitsValue (if ds.head? = some '0' then 8 else 10) ds

/-- Digits with a sign. -/
def signedDigits : Text → Int
  | '-' :: ds => -(digitsValue 10 (ds.takeWhile Char.isDigit) : Int)
  | '+' :: ds => digitsValue 10 (ds.takeWhile Char.isDigit)
  | ds => digitsValue 10 (ds.takeWhile Char.isDigit)

/-- The exponent of a literal. -/
def exponentValue : Text → Int
  | c :: t => if c == 'e' || c == 'E' then signedDigits t else 0
  | [] => 0

/-- The digits behind the point, and what follows. -/
def fraction : Text → Text × Text
  | '.' :: t => (t.takeWhile Char.isDigit, t.dropWhile Char.isDigit)
  | t => ([], t)

/-- The value of a literal with a point, an exponent or the suffix of a float. -/
def decimalValue (K : Type) [Field K] (t : Text) : K :=
  let whole := t.takeWhile Char.isDigit
  let frac := fraction (t.dropWhile Char.isDigit)
  ((digitsValue 10 whole : K) + digitsValue 10 frac.1 / 10 ^ frac.1.length)
    * 10 ^ exponentValue frac.2

def literalValue (K : Type) [Field K] (t : Text) : Value K :=
  match literalType t with
  | .int => .int (BitVec.ofNat 32 (integerValue t))
  | .uint => .uint (BitVec.ofNat 32 (integerValue t))
  | .float => .float (decimalValue K t)

theorem type_literalValue (K : Type) [Field K] (t : Text) :
    (literalValue K t).type = literalType t := by
  rw [literalValue]
  split <;> simp_all [Value.type]

/-! ## §4. Expressions. -/

/-- A value for every variable. -/
abbrev Env (K : Type) := Text → Value K

variable {K : Type} [Field K] [LinearOrder K]

/-- What is not zero is true. -/
def Value.isTrue : Value K → Bool
  | .int n => n != 0
  | .uint n => n != 0
  | .float x => x ≠ 0

def negate : Value K → Value K
  | .int n => .int (-n)
  | .uint n => .uint (-n)
  | .float x => .float (-x)

/-- Names are variables, and numbers are what they say. -/
def atomValue (isType : Text → Bool) (ρ : Env K) (t : Text) : Option (Value K) :=
  match kindOf isType t with
  | .name => some (ρ t)
  | .number => some (literalValue K t)
  | _ => none

/-- The arithmetic of an environment; what is no arithmetic has no value. -/
def arith (isType : Text → Bool) (rem : K → K → K) (ρ : Env K) : Algebra (Option (Value K)) where
  atom := atomValue isType ρ
  unary op v :=
    match op with
    | ['-'] => v.map negate
    | ['+'] => v
    | _ => none
  cast _ _ := none
  binary op v w :=
    (ArithOp.ofText rem op).bind fun f => v.bind fun v => w.map fun w => f.apply v w
  cond c v w :=
    c.bind fun c => v.bind fun v => w.map fun w =>
      (if c.isTrue then v else w).convert (v.type.join w.type)
  step _ _ := none
  member _ _ := none
  call _ _ := none
  index _ _ := none

/-! ## §5. Types of expressions. -/

/-- The type of the result, from that of the converted operands. -/
def resultType : Text → Option (Scalar → Scalar)
  | ['+'] => some id
  | ['-'] => some id
  | ['*'] => some id
  | ['/'] => some id
  | ['%'] => some id
  | ['<'] => some fun _ => .int
  | ['>'] => some fun _ => .int
  | ['<', '='] => some fun _ => .int
  | ['>', '='] => some fun _ => .int
  | ['=', '='] => some fun _ => .int
  | ['!', '='] => some fun _ => .int
  | _ => none

/-- The type of an expression, where the variables have these types. -/
def typing (isType : Text → Bool) (types : Text → Scalar) : Algebra (Option Scalar) where
  atom t :=
    match kindOf isType t with
    | .name => some (types t)
    | .number => some (literalType t)
    | _ => none
  unary op t :=
    match op with
    | ['-'] => t
    | ['+'] => t
    | _ => none
  cast _ _ := none
  binary op t u := (resultType op).bind fun f => t.bind fun t => u.map fun u => f (t.join u)
  cond c t u := c.bind fun _ => t.bind fun t => u.map fun u => t.join u
  step _ _ := none
  member _ _ := none
  call _ _ := none
  index _ _ := none

/-- The two prefix operators on a value. -/
theorem arith_unary {isType : Text → Bool} {rem : K → K → K} {ρ : Env K} {op : Text}
    {x : Option (Value K)} {v : Value K} (h : (arith isType rem ρ).unary op x = some v) :
    (op = ['-'] ∧ x.map negate = some v) ∨ (op = ['+'] ∧ x = some v) := by
  dsimp only [arith] at h
  split at h
  case h_1 => exact Or.inl ⟨rfl, h⟩
  case h_2 => exact Or.inr ⟨rfl, h⟩
  case h_3 => cases h

/-- The type of a result depends on the types of the operands only. -/
theorem type_apply {rem : K → K → K} {op : Text} {f : ArithOp K} (hf : ArithOp.ofText rem op = some f) :
    ∃ g, resultType op = some g ∧ ∀ v w, (f.apply v w).type = g (v.type.join w.type) := by
  have htruth : ∀ b, (ArithOp.truth b : Value K).type = .int := fun _ => rfl
  rw [ArithOp.ofText, Option.or_eq_some_iff] at hf
  rcases hf with hf | ⟨_, hf⟩
  · unfold ArithOp.arithmetic at hf
    split at hf
    all_goals cases hf
    all_goals
      refine ⟨id, rfl, fun v w => ?_⟩
      unfold ArithOp.apply
      split
      all_goals rename_i heq
      all_goals rw [heq]
      all_goals rfl
  · unfold ArithOp.comparison at hf
    split at hf
    all_goals cases hf
    all_goals
      refine ⟨fun _ => .int, rfl, fun v w => ?_⟩
      unfold ArithOp.apply
      split <;> rfl

/-- **The value of an expression has its type.** -/
theorem type_value {isType : Text → Bool} {types : Text → Scalar} {rem : K → K → K} {ρ : Env K}
    (hρ : ∀ t, (ρ t).type = types t) {e : Expr} {v : Value K}
    (h : e.value (arith isType rem ρ) = some v) :
    e.value (typing isType types) = some v.type := by
  induction e generalizing v with
  | atom t =>
      show (typing isType types).atom t.body = some v.type
      have hatom : atomValue isType ρ t.body = some v := h
      unfold atomValue at hatom
      dsimp only [typing]
      split at hatom
      case h_1 =>
        cases hatom
        rw [hρ]
      case h_2 =>
        cases hatom
        rw [type_literalValue]
      case h_3 => cases hatom
  | paren l e r ih => exact ih h
  | construct => cases h
  | unary p e ih =>
      cases p with
      | op t =>
          show (typing isType types).unary t.body (e.value (typing isType types)) = some v.type
          have hunary : (arith isType rem ρ).unary t.body (e.value (arith isType rem ρ)) = some v := h
          obtain ⟨hop, hv⟩ | ⟨hop, hv⟩ := arith_unary hunary
          · obtain ⟨x, hx, hneg⟩ := Option.map_eq_some_iff.mp hv
            rw [hop, ih hx, ← hneg]
            cases x <;> rfl
          · rw [hop, ih hv]
            rfl
      | cast => cases h
  | binary x op y ihx ihy =>
      rw [value_binary] at h ⊢
      obtain ⟨f, hf, hrest⟩ := Option.bind_eq_some_iff.mp h
      obtain ⟨a, ha, hrest⟩ := Option.bind_eq_some_iff.mp hrest
      obtain ⟨b, hb, hv⟩ := Option.map_eq_some_iff.mp hrest
      obtain ⟨g, hg, htype⟩ := type_apply hf
      show ((resultType op.body).bind fun f => (x.value (typing isType types)).bind fun t =>
        (y.value (typing isType types)).map fun u => f (t.join u)) = some v.type
      rw [ihx ha, ihy hb, hg, ← hv, htype]
      rfl
  | cond c q a k b ihc iha ihb =>
      obtain ⟨t, ht, hrest⟩ := Option.bind_eq_some_iff.mp h
      obtain ⟨x, hx, hrest⟩ := Option.bind_eq_some_iff.mp hrest
      obtain ⟨y, hy, hv⟩ := Option.map_eq_some_iff.mp hrest
      show ((c.value (typing isType types)).bind fun _ => (a.value (typing isType types)).bind fun t =>
        (b.value (typing isType types)).map fun u => t.join u) = some v.type
      rw [ihc ht, iha hx, ihb hy, ← hv, Value.type_convert]
      rfl
  -- neither suffixes nor calls have a value here
  | suffix e s => cases s <;> cases h
  | apply e l i r =>
      rw [Expr.value, meaning] at h
      split at h <;> cases h

end ShaderClippy.Hlsl
