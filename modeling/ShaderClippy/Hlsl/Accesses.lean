/-
  ShaderClippy.Hlsl.Accesses

  **WHAT STRAIGHT-LINE CODE READS AND WRITES.**

  An execution evaluates one expression after the other and notes every read and
  every write of a variable or a part of one: the field of an object, the element
  at the value of an index. What is assigned to is not read; the right side of an
  assignment comes before the left one; all operands are evaluated, those of
  `&&`, `||` and `?:` too.

  What the operators and functions compute is left open (`Operations`), and so is
  what a call does to its arguments and to the variables it shares with its
  caller (`Interface`).
-/
import ShaderClippy.Hlsl.Reparse

namespace ShaderClippy.Hlsl

/-! ## §1. Variables and their parts. -/

inductive Selector (K : Type) where
  | field (name : Text)
  | index (key : K)
  deriving DecidableEq

/-- A variable, with the place of its declaration (0 if that is outside of the
body), and what is selected in it, from outside in. -/
structure Place (K : Type) where
  name : Text
  declared : Nat
  path : List (Selector K)
  deriving DecidableEq

/-- A read or a write, and where the text says so. -/
structure Access (K : Type) where
  place : Place K
  isWrite : Bool
  pos : Nat
  deriving DecidableEq

section Overwritten

variable {K : Type} [DecidableEq K]

/-- `q` is `p` or a part of it. -/
def Place.covers (p q : Place K) : Bool :=
  p.name == q.name && p.declared == q.declared && p.path.isPrefixOf q.path

def Place.overlaps (p q : Place K) : Bool := p.covers q || q.covers p

/-- The place is written as a whole before any part of it is read. -/
def overwritten (p : Place K) : List (Access K) → Bool
  | [] => false
  | a :: rest =>
      if a.isWrite then a.place.covers p || overwritten p rest
      else !a.place.overlaps p && overwritten p rest

/-- The write at `pos` is made, and overwritten before it is read. -/
def isDead (pos : Nat) : List (Access K) → Bool
  | [] => false
  | a :: rest => (a.isWrite && a.pos == pos && overwritten a.place rest) || isDead pos rest

end Overwritten

/-! ## §2. What is left open. -/

/-- What a call leaves behind: its value, and what is in an argument or a shared
variable then. -/
inductive Outcome where
  | value
  | argument (i : Nat)
  | shared (i : Nat)

/-- The operations on values. -/
structure Operations (V K : Type) where
  number : Text → V
  declared : List V → V
  unary : Text → V → V
  cast : Text → V → V
  binary : Text → V → V → V
  cond : V → V → V → V
  step : Text → V → V
  call : Text → List V → Outcome → V
  select : V → Selector K → V
  update : V → Selector K → V → V
  key : V → K

/-- How an argument is passed. -/
inductive Mode where
  | byValue
  | out
  | inOut

/-- A variable outside of all bodies, or a field of one, that a function reads or
writes. -/
structure Shared where
  name : Text
  fields : List Text
  isWrite : Bool

/-- What a call of a function does besides computing. -/
structure Interface where
  mode : Nat → Mode
  shared : List Shared

/-! ## §3. Reading and writing. -/

/-- The variables, the declarations in scope, and what was read and written. -/
structure Memory (V K : Type) where
  store : Text → Nat → V
  scope : List (Text × Nat)
  trace : List (Access K)

abbrev Run (V K : Type) := StateM (Memory V K)

variable {V K : Type} (I : Operations V K)

namespace Operations

/-- What is in a part of a value. -/
def fetch (v : V) : List (Selector K) → V
  | [] => v
  | s :: path => fetch (I.select v s) path

/-- The value with something else in a part of it. -/
def put (v : V) : List (Selector K) → V → V
  | [], x => x
  | s :: path, x => I.update v s (put (I.select v s) path x)

end Operations

def load (p : Place K) (pos : Nat) : Run V K V := fun m =>
  (I.fetch (m.store p.name p.declared) p.path, { m with trace := m.trace ++ [⟨p, false, pos⟩] })

def save (p : Place K) (pos : Nat) (v : V) : Run V K Unit := fun m =>
  ((), { m with
    store := fun name declared =>
      if name = p.name ∧ declared = p.declared then I.put (m.store name declared) p.path v
      else m.store name declared
    trace := m.trace ++ [⟨p, true, pos⟩] })

/-- The variable of this name. -/
def named (name : Text) : Run V K (Place K) := fun m => (⟨name, (m.scope.lookup name).getD 0, []⟩, m)

/-- An operand: where it is, its place if it has one, and its evaluation. -/
structure Operand (V K : Type) where
  pos : Nat
  place : Option (Run V K (Place K))
  value : Run V K V

namespace Operand

def ofPlace (pos : Nat) (place : Run V K (Place K)) : Operand V K :=
  ⟨pos, some place, do let p ← place; load I p pos⟩

def ofValue (pos : Nat) (value : Run V K V) : Operand V K := ⟨pos, none, value⟩

/-- A part of an operand. -/
def select (o : Operand V K) (pos : Nat) (selector : Run V K (Selector K)) : Operand V K :=
  match o.place with
  | some place => ofPlace I pos do
      let p ← place
      let s ← selector
      pure { p with path := p.path ++ [s] }
  | none => ofValue pos do
      let v ← o.value
      let s ← selector
      pure (I.select v s)

def assign (o : Operand V K) (v : V) : Run V K Unit :=
  match o.place with
  | some place => do let p ← place; save I p o.pos v
  | none => pure ()

/-- What was in the operand, and what is in it now. -/
def modify (o : Operand V K) (f : V → V) : Run V K (V × V) :=
  match o.place with
  | some place => do
      let p ← place
      let old ← load I p o.pos
      save I p o.pos (f old)
      pure (old, f old)
  | none => do
      let old ← o.value
      pure (old, f old)

/-- What is passed for an argument, and where its outcome goes. -/
def pass (mode : Mode) (o : Operand V K) : Run V K (List V × Option (Place K)) :=
  match mode, o.place with
  | .out, some place => do let p ← place; pure ([], some p)
  | .inOut, some place => do let p ← place; let v ← load I p o.pos; pure ([v], some p)
  | _, _ => do let v ← o.value; pure ([v], none)

end Operand

/-- A shared variable is read or written; what is read is handed on. -/
def Shared.touch (s : Shared) (pos : Nat) (v : V) : Run V K (List V) :=
  let p : Place K := ⟨s.name, 0, s.fields.map .field⟩
  if s.isWrite then do
    save I p pos v
    pure []
  else do
    let w ← load I p pos
    pure [w]

/-- The outcome of an argument goes back to where it came from. -/
def giveBack (p : Option (Place K)) (pos : Nat) (v : V) : Run V K Unit :=
  match p with
  | some p => save I p pos v
  | none => pure ()

variable (F : Text → Interface)

/-- A call, with what is in front of the name of a method. -/
def call (pos : Nat) (function : Text) (receiver : Option (Operand V K)) (args : List (Operand V K)) :
    Run V K V := do
  let front ← receiver.toList.mapM fun o => o.value
  let passed ← args.zipIdx.mapM fun q => q.1.pass I ((F function).mode q.2)
  let values := front ++ passed.flatMap Prod.fst
  let seen ← (F function).shared.zipIdx.mapM fun q => q.1.touch I pos (I.call function values (.shared q.2))
  let outcome := I.call function (values ++ seen.flatten)
  let _ ← passed.zipIdx.mapM fun q => giveBack I q.1.2 pos (outcome (.argument q.2))
  pure (outcome .value)

/-! ## §4. Expressions. -/

/-- A node as an operand, as the arguments it is between parentheses, and what is
in front of its point. -/
structure Parts (V K : Type) where
  self : Operand V K
  args : List (Operand V K)
  receiver : Option (Operand V K)

def Parts.single (o : Operand V K) : Parts V K := ⟨o, [o], none⟩

/-- The length of the text of an expression, with the blanks in front. -/
def Expr.size (e : Expr) : Nat := (Munch.render e.toks).length

variable (isType : Text → Bool)

/-- The parts of an expression whose text begins at `n`. -/
def Expr.parts (n : Nat) : Expr → Parts V K
  | .atom t =>
      let pos := n + t.lead.length
      if kind isType t = .name then .single (.ofPlace I pos (named t.body))
      else .single (.ofValue pos (pure (I.number t.body)))
  | .paren l e _ => .single (e.parts (n + l.text.length)).self
  | .construct type l args _ =>
      .single (.ofValue n (call I F n type.body none (args.parts (n + type.text.length + l.text.length)).args))
  | .unary (.op t) e =>
      let o := (e.parts (n + t.text.length)).self
      if kind isType t = .step then
        .single (.ofValue n do let r ← o.modify I (I.step t.body); pure r.2)
      else .single (.ofValue n do let v ← o.value; pure (I.unary t.body v))
  | .unary (.cast l type r) e =>
      let o := (e.parts (n + l.text.length + type.text.length + r.text.length)).self
      .single (.ofValue n do let v ← o.value; pure (I.cast type.body v))
  | .binary x op y =>
      let left := x.parts n
      let right := y.parts (n + x.size + op.text.length)
      if (kind isType op).prec = some kAssign then
        if op.body = ['='] then
          .single (.ofValue n do
            let v ← right.self.value
            left.self.assign I v
            pure v)
        else
          .single (.ofValue n do
            let v ← right.self.value
            let r ← left.self.modify I fun old => I.binary op.body old v
            pure r.2)
      else if op.body = [','] then
        ⟨.ofValue n do let _ ← left.self.value; right.self.value, left.args ++ [right.self], none⟩
      else
        .single (.ofValue n do
          let v ← left.self.value
          let w ← right.self.value
          pure (I.binary op.body v w))
  | .cond c q a k b =>
      .single (.ofValue n do
        let t ← (c.parts n).self.value
        let v ← (a.parts (n + c.size + q.text.length)).self.value
        let w ← (b.parts (n + c.size + q.text.length + a.size + k.text.length)).self.value
        pure (I.cond t v w))
  | .suffix e (.step t) =>
      .single (.ofValue n do let r ← (e.parts n).self.modify I (I.step t.body); pure r.1)
  | .suffix e (.member dot name) =>
      let o := (e.parts n).self
      let part := o.select I (n + e.size + dot.lead.length) (pure (.field name.body))
      ⟨part, [part], some o⟩
  | .suffix e (.nullary _ _) => .single (.ofValue n (call I F n (nodeText e) (e.parts n).receiver []))
  | .apply e l i _ =>
      let inner := i.parts (n + e.size + l.text.length)
      if l.body = ['('] then .single (.ofValue n (call I F n (nodeText e) (e.parts n).receiver inner.args))
      else
        .single ((e.parts n).self.select I (n + e.size + l.lead.length)
          do let v ← inner.self.value; pure (.index (I.key v)))

/-- The evaluation of an expression whose text begins at `n`. -/
def Expr.eval (n : Nat) (e : Expr) : Run V K V := (e.parts I F isType n).self.value

/-! ## §5. Statements. -/

/-- A variable that is declared: the type or the comma in front of its name, and
dimensions and initialiser behind it. -/
structure Declarator where
  before : List Token
  name : Token
  behind : List (Token ⊕ Expr)

/-- Tokens and expressions, as tokens. -/
def pieceToks : Token ⊕ Expr → List Token
  | .inl t => [t]
  | .inr e => e.toks

def Declarator.toks (d : Declarator) : List Token :=
  d.before ++ d.name :: d.behind.flatMap pieceToks

/-- Straight-line code. -/
inductive Body where
  | done
  | expr (e : Expr) (semi : Token) (rest : Body)
  | decl (ds : List Declarator) (semi : Token) (rest : Body)
  | block (l : Token) (inner : Body) (r : Token) (rest : Body)

def Body.toks : Body → List Token
  | .done => []
  | .expr e semi rest => e.toks ++ semi :: rest.toks
  | .decl ds semi rest => ds.flatMap Declarator.toks ++ semi :: rest.toks
  | .block l inner r rest => l :: (inner.toks ++ r :: rest.toks)

section Grammar

variable (isType : Text → Bool)

def Declarator.WellFormed (d : Declarator) : Prop :=
  kind isType d.name = .name ∧ ∀ e, Sum.inr e ∈ d.behind → e.WellFormed isType

def Body.WellFormed : Body → Prop
  | .done => True
  | .expr e semi rest => e.WellFormed isType ∧ semi.body = [';'] ∧ rest.WellFormed
  | .decl ds semi rest => (∀ d ∈ ds, d.WellFormed isType) ∧ semi.body = [';'] ∧ rest.WellFormed
  | .block l inner r rest => l.body = ['{'] ∧ inner.WellFormed ∧ r.body = ['}'] ∧ rest.WellFormed

end Grammar

/-- A name is declared. -/
def bindName (name : Text) (pos : Nat) : Run V K Unit := fun m => ((), { m with scope := (name, pos) :: m.scope })

/-- The values of the expressions behind a declared name. -/
def evalPieces : Nat → List (Token ⊕ Expr) → Run V K (List V)
  | _, [] => pure []
  | n, .inl t :: ps => evalPieces (n + t.text.length) ps
  | n, .inr e :: ps => do
      let v ← e.eval I F isType n
      let vs ← evalPieces (n + e.size) ps
      pure (v :: vs)

/-- The declared variable is in scope in its own initialiser. -/
def declare : Nat → List Declarator → Run V K Unit
  | _, [] => pure ()
  | n, d :: ds => do
      let pos := n + (Munch.render d.before).length + d.name.lead.length
      bindName d.name.body pos
      let vs ← evalPieces I F isType (pos + d.name.body.length) d.behind
      save I ⟨d.name.body, pos, []⟩ pos (I.declared vs)
      declare (n + (Munch.render d.toks).length) ds

/-- The declarations of a block end with it. -/
def inScope (x : Run V K Unit) : Run V K Unit := fun m => ((), { (x m).2 with scope := m.scope })

/-- The execution of straight-line code whose text begins at `n`. -/
def Body.run (n : Nat) : Body → Run V K Unit
  | .done => pure ()
  | .expr e semi rest => do
      let _ ← e.eval I F isType n
      rest.run (n + e.size + semi.text.length)
  | .decl ds semi rest => do
      declare I F isType n ds
      rest.run (n + (Munch.render (ds.flatMap Declarator.toks)).length + semi.text.length)
  | .block l inner r rest => do
      inScope (inner.run (n + l.text.length))
      rest.run (n + l.text.length + (Munch.render inner.toks).length + r.text.length)

variable {F} {isType : Text → Bool}

/-! ## §6. All executions read and write alike. -/

/-- What is selected, whatever the value of an index. -/
def Selector.shape {K : Type} : Selector K → Selector Unit
  | .field name => .field name
  | .index _ => .index ()

def Place.shape {K : Type} (p : Place K) : Place Unit := ⟨p.name, p.declared, p.path.map Selector.shape⟩

def Access.shape {K : Type} (a : Access K) : Access Unit := ⟨a.place.shape, a.isWrite, a.pos⟩

def SameShape {K L : Type} (p : Place K) (q : Place L) : Prop := p.shape = q.shape

section Alike

variable {V K W L α β γ δ : Type} {R : α → β → Prop} {S : γ → δ → Prop}

/-- The two runs read and write alike, but for the values of indices, and what
they hand on is related. -/
def Alike (R : α → β → Prop) (x : Run V K α) (y : Run W L β) : Prop :=
  ∀ (m : Memory V K) (m' : Memory W L), m.scope = m'.scope →
    m.trace.map Access.shape = m'.trace.map Access.shape →
      (x m).2.scope = (y m').2.scope
        ∧ (x m).2.trace.map Access.shape = (y m').2.trace.map Access.shape ∧ R (x m).1 (y m').1

/-- Any two values: what the operations compute is left open. -/
def AnyTwo (_ : α) (_ : β) : Prop := True

namespace Alike

/-- Related results, and nothing noted. -/
theorem result {a : α} {b : β} (h : R a b) : Alike R (pure a : Run V K α) (pure b : Run W L β) :=
  fun _ _ hscope htrace => ⟨hscope, htrace, h⟩

theorem bind {x : Run V K α} {y : Run W L β} {f : α → Run V K γ} {g : β → Run W L δ} (hxy : Alike R x y)
    (hfg : ∀ a b, R a b → Alike S (f a) (g b)) : Alike S (x >>= f) (y >>= g) := by
  intro m m' hscope htrace
  obtain ⟨hscope', htrace', hresult⟩ := hxy m m' hscope htrace
  exact hfg _ _ hresult _ _ hscope' htrace'

theorem load (I : Operations V K) (J : Operations W L) {p : Place K} {q : Place L} (h : SameShape p q) (pos : Nat) :
    Alike AnyTwo (Hlsl.load I p pos) (Hlsl.load J q pos) := by
  intro m m' hscope htrace
  refine ⟨hscope, ?_, trivial⟩
  show (m.trace ++ [_]).map Access.shape = (m'.trace ++ [_]).map Access.shape
  rw [List.map_append, List.map_append, htrace, List.map_singleton, List.map_singleton, Access.shape, Access.shape, h]

theorem save (I : Operations V K) (J : Operations W L) {p : Place K} {q : Place L} (h : SameShape p q) (pos : Nat)
    (v : V) (w : W) : Alike AnyTwo (Hlsl.save I p pos v) (Hlsl.save J q pos w) := by
  intro m m' hscope htrace
  refine ⟨hscope, ?_, trivial⟩
  show (m.trace ++ [_]).map Access.shape = (m'.trace ++ [_]).map Access.shape
  rw [List.map_append, List.map_append, htrace, List.map_singleton, List.map_singleton, Access.shape, Access.shape, h]

theorem named (name : Text) : Alike SameShape (Hlsl.named name : Run V K (Place K)) (Hlsl.named name : Run W L (Place L)) := by
  intro m m' hscope htrace
  refine ⟨hscope, htrace, ?_⟩
  show SameShape (⟨name, (m.scope.lookup name).getD 0, []⟩ : Place K) ⟨name, (m'.scope.lookup name).getD 0, []⟩
  rw [hscope]
  rfl

/-- Alike runs over two lists in step. -/
theorem mapM {f : α → Run V K γ} {g : β → Run W L δ} {as : List α} {bs : List β} (hlists : List.Forall₂ R as bs)
    (h : ∀ a b, R a b → Alike S (f a) (g b)) : Alike (List.Forall₂ S) (as.mapM f) (bs.mapM g) := by
  induction hlists with
  | nil => exact result .nil
  | cons hab _ ih =>
      rw [List.mapM_cons, List.mapM_cons]
      exact (h _ _ hab).bind fun c d hcd => ih.bind fun cs ds hcds => result (.cons hcd hcds)

end Alike

/-- Evaluating the two operands, and finding their places, is alike. -/
structure Operand.Alike (o : Operand V K) (o' : Operand W L) : Prop where
  pos : o.pos = o'.pos
  value : Hlsl.Alike AnyTwo o.value o'.value
  place : Option.Rel (Hlsl.Alike SameShape) o.place o'.place

namespace Operand.Alike

variable (I : Operations V K) (J : Operations W L) {o : Operand V K} {o' : Operand W L}

theorem ofPlace {pos : Nat} {x : Run V K (Place K)} {y : Run W L (Place L)} (h : Hlsl.Alike SameShape x y) :
    (Operand.ofPlace I pos x).Alike (Operand.ofPlace J pos y) :=
  ⟨rfl, h.bind fun _ _ hpq => .load I J hpq pos, .some h⟩

theorem ofValue {pos : Nat} {x : Run V K V} {y : Run W L W} (h : Hlsl.Alike AnyTwo x y) :
    (Operand.ofValue pos x).Alike (Operand.ofValue pos y) := ⟨rfl, h, .none⟩

/-- Both have a place, or neither. -/
theorem places (h : o.Alike o') : (o.place = none ∧ o'.place = none) ∨
    ∃ x y, o.place = some x ∧ o'.place = some y ∧ Hlsl.Alike SameShape x y := by
  have hplace := h.place
  generalize o.place = x, o'.place = y at hplace
  cases hplace with
  | none => exact Or.inl ⟨rfl, rfl⟩
  | some hxy => exact Or.inr ⟨_, _, rfl, rfl, hxy⟩

theorem select (h : o.Alike o') (pos : Nat) {x : Run V K (Selector K)} {y : Run W L (Selector L)}
    (hs : Hlsl.Alike (fun s t => s.shape = t.shape) x y) : (o.select I pos x).Alike (o'.select J pos y) := by
  unfold Operand.select
  rcases h.places with ⟨hx, hy⟩ | ⟨px, py, hx, hy, hplace⟩
  · rw [hx, hy]
    exact ofValue (h.value.bind fun _ _ _ => hs.bind fun _ _ _ => .result trivial)
  · rw [hx, hy]
    refine ofPlace I J (hplace.bind fun p q hpq => hs.bind fun s t hst => .result ?_)
    -- the part of a place, in the two runs
    have hpq' : p.shape = q.shape := hpq
    simp only [Place.shape, Place.mk.injEq] at hpq'
    show SameShape _ _
    simp only [SameShape, Place.shape, List.map_append, List.map_singleton, hst, hpq'.1, hpq'.2.1, hpq'.2.2]

theorem assign (h : o.Alike o') (v : V) (w : W) : Hlsl.Alike AnyTwo (o.assign I v) (o'.assign J w) := by
  unfold Operand.assign
  rcases h.places with ⟨hx, hy⟩ | ⟨px, py, hx, hy, hplace⟩
  · rw [hx, hy]
    exact .result trivial
  · rw [hx, hy, h.pos]
    exact hplace.bind fun p q hpq => .save I J hpq _ v w

theorem modify (h : o.Alike o') (f : V → V) (g : W → W) : Hlsl.Alike AnyTwo (o.modify I f) (o'.modify J g) := by
  unfold Operand.modify
  rcases h.places with ⟨hx, hy⟩ | ⟨px, py, hx, hy, hplace⟩
  · rw [hx, hy]
    exact h.value.bind fun _ _ _ => .result trivial
  · rw [hx, hy, h.pos]
    exact hplace.bind fun p q hpq => (Hlsl.Alike.load I J hpq _).bind fun _ _ _ =>
      (Hlsl.Alike.save I J hpq _ _ _).bind fun _ _ _ => .result trivial

/-- What is passed goes back to the same place. -/
theorem pass (h : o.Alike o') (mode : Mode) :
    Hlsl.Alike (fun a b => Option.Rel SameShape a.2 b.2) (o.pass I mode) (o'.pass J mode) := by
  have hvalue : Hlsl.Alike (fun (a : List V × Option (Place K)) (b : List W × Option (Place L)) =>
      Option.Rel SameShape a.2 b.2) (do let v ← o.value; pure ([v], none)) (do let v ← o'.value; pure ([v], none)) :=
    h.value.bind fun _ _ _ => .result .none
  unfold Operand.pass
  rcases h.places with ⟨hx, hy⟩ | ⟨px, py, hx, hy, hplace⟩
  · rw [hx, hy]
    cases mode <;> exact hvalue
  · rw [hx, hy, h.pos]
    cases mode with
    | byValue => exact hvalue
    | out => exact hplace.bind fun p q hpq => .result (.some hpq)
    | inOut => exact hplace.bind fun p q hpq => (Hlsl.Alike.load I J hpq _).bind fun _ _ _ => .result (.some hpq)

end Operand.Alike

variable (I : Operations V K) (J : Operations W L)

/-- An access to what is shared notes the same shape in both. -/
theorem Shared.alike_touch (s : Shared) (pos : Nat) (v : V) (w : W) :
    Alike AnyTwo (s.touch (K := K) I pos v) (s.touch (K := L) J pos w) := by
  have hshape : SameShape (⟨s.name, 0, s.fields.map .field⟩ : Place K) (⟨s.name, 0, s.fields.map .field⟩ : Place L) := by
    simp only [SameShape, Place.shape, List.map_map]
    rfl
  unfold Shared.touch
  dsimp only
  split
  · exact (Alike.save I J hshape pos v w).bind fun _ _ _ => .result trivial
  · exact (Alike.load I J hshape pos).bind fun _ _ _ => .result trivial

theorem alike_giveBack {p : Option (Place K)} {q : Option (Place L)} (h : Option.Rel SameShape p q) (pos : Nat)
    (v : V) (w : W) : Alike AnyTwo (giveBack I p pos v) (giveBack J q pos w) := by
  cases h with
  | none => exact .result trivial
  | some hpq => exact .save I J hpq pos v w

theorem forall₂_zipIdx {as : List α} {bs : List β} (h : List.Forall₂ R as bs) (n : Nat) :
    List.Forall₂ (fun a b => R a.1 b.1 ∧ a.2 = b.2) (as.zipIdx n) (bs.zipIdx n) := by
  induction h generalizing n with
  | nil => exact .nil
  | cons hab _ ih => exact .cons ⟨hab, rfl⟩ (ih (n + 1))

/-- Two calls whose receivers and arguments are alike. -/
theorem alike_call (F : Text → Interface) (pos : Nat) (function : Text) {receiver : Option (Operand V K)}
    {receiver' : Option (Operand W L)} {args : List (Operand V K)} {args' : List (Operand W L)}
    (hreceiver : Option.Rel Operand.Alike receiver receiver') (hargs : List.Forall₂ Operand.Alike args args') :
    Alike AnyTwo (call I F pos function receiver args) (call J F pos function receiver' args') := by
  have hfront : List.Forall₂ Operand.Alike receiver.toList receiver'.toList := by
    cases hreceiver with
    | none => exact .nil
    | some h => exact .cons h .nil
  have hsame : List.Forall₂ (fun a b : Shared × Nat => a.1 = b.1) (F function).shared.zipIdx (F function).shared.zipIdx :=
    List.forall₂_same.mpr fun _ _ => rfl
  unfold call
  refine (Alike.mapM hfront fun o o' h => h.value).bind fun front front' _ => ?_
  have hpass : ∀ (q : Operand V K × Nat) (q' : Operand W L × Nat), q.1.Alike q'.1 ∧ q.2 = q'.2 →
      Alike (fun a b => Option.Rel SameShape a.2 b.2) (q.1.pass I ((F function).mode q.2))
        (q'.1.pass J ((F function).mode q'.2)) := by
    rintro ⟨o, i⟩ ⟨o', i'⟩ ⟨ho, hi⟩
    cases hi
    exact ho.pass I J _
  refine (Alike.mapM (forall₂_zipIdx hargs 0) hpass).bind fun passed passed' hpassed => ?_
  have htouch : ∀ q q' : Shared × Nat, q.1 = q'.1 → ∀ v w,
      Alike AnyTwo (q.1.touch (K := K) I pos v) (q'.1.touch (K := L) J pos w) := by
    intro q q' h v w
    rw [h]
    exact Shared.alike_touch I J q'.1 pos v w
  refine (Alike.mapM hsame fun q q' h => htouch q q' h _ _).bind fun seen seen' _ => ?_
  refine (Alike.mapM (forall₂_zipIdx hpassed 0) fun q q' h => alike_giveBack I J h.1 pos _ _).bind fun _ _ _ => ?_
  exact .result trivial

/-- The parts of an expression, in two executions. -/
structure Parts.Alike (parts : Parts V K) (parts' : Parts W L) : Prop where
  self : parts.self.Alike parts'.self
  args : List.Forall₂ Operand.Alike parts.args parts'.args
  receiver : Option.Rel Operand.Alike parts.receiver parts'.receiver

theorem Parts.Alike.single {o : Operand V K} {o' : Operand W L} (h : o.Alike o') :
    (Parts.single o).Alike (Parts.single o') := ⟨h, .cons h .nil, .none⟩

variable (F : Text → Interface) (isType : Text → Bool)

/-- **Two executions of an expression read and write alike.** -/
theorem parts_alike (e : Expr) (n : Nat) : (e.parts I F isType n).Alike (e.parts J F isType n) := by
  induction e generalizing n with
  | atom t =>
      unfold Expr.parts
      dsimp only
      split
      · exact .single (.ofPlace I J (.named t.body))
      · exact .single (.ofValue (.result trivial))
  | paren l e r ih => exact .single (ih _).self
  | construct type l args r ih =>
      exact .single (.ofValue (alike_call I J F n type.body .none (ih _).args))
  | unary p e ih =>
      cases p with
      | op t =>
          unfold Expr.parts
          dsimp only
          split
          · exact .single (.ofValue (((ih _).self.modify I J _ _).bind fun _ _ _ => .result trivial))
          · exact .single (.ofValue ((ih _).self.value.bind fun _ _ _ => .result trivial))
      | cast l type r => exact .single (.ofValue ((ih _).self.value.bind fun _ _ _ => .result trivial))
  -- assignment, compound assignment, comma, any other operator
  | binary x op y ihx ihy =>
      unfold Expr.parts
      dsimp only
      split
      · split
        · exact .single (.ofValue ((ihy _).self.value.bind fun v w _ =>
            ((ihx _).self.assign I J v w).bind fun _ _ _ => .result trivial))
        · exact .single (.ofValue ((ihy _).self.value.bind fun v w _ =>
            ((ihx _).self.modify I J _ _).bind fun _ _ _ => .result trivial))
      · split
        · refine ⟨.ofValue ((ihx _).self.value.bind fun _ _ _ => (ihy _).self.value), ?_, .none⟩
          exact List.rel_append (ihx _).args (.cons (ihy _).self .nil)
        · exact .single (.ofValue ((ihx _).self.value.bind fun _ _ _ =>
            (ihy _).self.value.bind fun _ _ _ => .result trivial))
  | cond c q a k b ihc iha ihb =>
      exact .single (.ofValue ((ihc _).self.value.bind fun _ _ _ => (iha _).self.value.bind fun _ _ _ =>
        (ihb _).self.value.bind fun _ _ _ => .result trivial))
  | suffix e s ih =>
      cases s with
      | step t => exact .single (.ofValue (((ih _).self.modify I J _ _).bind fun _ _ _ => .result trivial))
      | member dot name =>
          have hpart := (ih n).self.select I J (n + e.size + dot.lead.length)
            (x := pure (.field name.body)) (y := pure (.field name.body)) (.result rfl)
          exact ⟨hpart, .cons hpart .nil, .some (ih n).self⟩
      | nullary l r => exact .single (.ofValue (alike_call I J F n (nodeText e) (ih _).receiver .nil))
  | apply e l i r ihe ihi =>
      unfold Expr.parts
      dsimp only
      split
      · exact .single (.ofValue (alike_call I J F n (nodeText e) (ihe _).receiver (ihi _).args))
      · exact .single ((ihe _).self.select I J _ ((ihi _).self.value.bind fun _ _ _ => .result rfl))

/-- **Evaluation notes the same accesses whatever the operations compute.** -/
theorem eval_alike (e : Expr) (n : Nat) : Alike AnyTwo (e.eval I F isType n) (e.eval J F isType n) :=
  (parts_alike I J F isType e n).self.value

theorem evalPieces_alike (ps : List (Token ⊕ Expr)) (n : Nat) :
    Alike AnyTwo (evalPieces I F isType n ps) (evalPieces J F isType n ps) := by
  induction ps generalizing n with
  | nil => exact .result trivial
  | cons p ps ih =>
      cases p with
      | inl t => exact ih _
      | inr e => exact (eval_alike I J F isType e n).bind fun _ _ _ => (ih _).bind fun _ _ _ => .result trivial

theorem declare_alike (ds : List Declarator) (n : Nat) :
    Alike AnyTwo (declare I F isType n ds) (declare J F isType n ds) := by
  induction ds generalizing n with
  | nil => exact .result trivial
  | cons d ds ih =>
      have hname : Alike AnyTwo (bindName d.name.body (n + (Munch.render d.before).length + d.name.lead.length) : Run V K Unit)
          (bindName d.name.body (n + (Munch.render d.before).length + d.name.lead.length) : Run W L Unit) :=
        fun m m' hscope htrace => ⟨congrArg _ hscope, htrace, trivial⟩
      exact hname.bind fun _ _ _ => (evalPieces_alike I J F isType d.behind _).bind fun vs ws _ =>
        (Alike.save I J (p := ⟨d.name.body, _, []⟩) (q := ⟨d.name.body, _, []⟩) rfl _ _ _).bind fun _ _ _ => ih _

/-- **So do two executions of straight-line code.** -/
theorem body_alike (b : Body) (n : Nat) : Alike AnyTwo (b.run I F isType n) (b.run J F isType n) := by
  induction b generalizing n with
  | done => exact .result trivial
  | expr e semi rest ih => exact (eval_alike I J F isType e n).bind fun _ _ _ => ih _
  | decl ds semi rest ih => exact (declare_alike I J F isType ds n).bind fun _ _ _ => ih _
  | block l inner r rest ihInner ihRest =>
      have hblock : Alike AnyTwo (inScope (inner.run I F isType (n + l.text.length)))
          (inScope (inner.run J F isType (n + l.text.length))) :=
        fun m m' hscope htrace => ⟨hscope, (ihInner _ m m' hscope htrace).2.1, trivial⟩
      exact hblock.bind fun _ _ _ => ihRest _

end Alike

/-! ## §7. Writes that are surely dead. -/

/-- Nothing in the place is an element at an index. -/
def Place.plain {K : Type} (p : Place K) : Bool :=
  p.path.all fun s => match s with
    | .field _ => true
    | .index _ => false

/-- Whatever the values of indices are, the place is written as a whole before any
part of it is read: by a write without one. -/
def overwrittenSurely (p : Place Unit) : List (Access Unit) → Bool
  | [] => false
  | a :: rest =>
      if a.isWrite then (a.place.plain && a.place.covers p) || overwrittenSurely p rest
      else !a.place.overlaps p && overwrittenSurely p rest

def isSurelyDead (pos : Nat) : List (Access Unit) → Bool
  | [] => false
  | a :: rest => (a.isWrite && a.pos == pos && overwrittenSurely a.place rest) || isSurelyDead pos rest

section Surely

variable {K : Type} [DecidableEq K]

theorem isPrefixOf_shape {p q : List (Selector K)} (h : p.isPrefixOf q = true) :
    (p.map Selector.shape).isPrefixOf (q.map Selector.shape) = true := by
  rw [List.isPrefixOf_iff_prefix] at h ⊢
  exact h.map _

/-- What covers a place still does when the values of indices are forgotten. -/
theorem covers_shape {p q : Place K} (h : p.covers q = true) : p.shape.covers q.shape = true := by
  simp only [Place.covers, Bool.and_eq_true, beq_iff_eq] at h ⊢
  exact ⟨h.1, isPrefixOf_shape h.2⟩

/-- Places that overlap do so in shape. -/
theorem overlaps_shape {p q : Place K} (h : p.overlaps q = true) : p.shape.overlaps q.shape = true := by
  simp only [Place.overlaps, Bool.or_eq_true] at h ⊢
  exact h.imp covers_shape covers_shape

omit [DecidableEq K] in
@[simp] theorem plain_shape (p : Place K) : p.shape.plain = p.plain := by
  unfold Place.plain Place.shape
  rw [List.all_map]
  congr 1
  funext s
  cases s <;> rfl

/-- Without an index nothing is forgotten. -/
theorem covers_of_shape {p q : Place K} (hp : p.plain = true) (h : p.shape.covers q.shape = true) :
    p.covers q = true := by
  obtain ⟨name, declared, path⟩ := p
  obtain ⟨name', declared', path'⟩ := q
  simp only [Place.covers, Place.shape, Bool.and_eq_true, beq_iff_eq] at h ⊢
  refine ⟨h.1, ?_⟩
  replace h := h.2
  unfold Place.plain at hp
  dsimp only at hp
  induction path generalizing path' with
  | nil => rfl
  | cons s path ih =>
      rw [List.all_cons, Bool.and_eq_true] at hp
      cases path' with
      | nil => cases h
      | cons t path' =>
          rw [List.map_cons, List.map_cons, List.isPrefixOf_cons_cons, Bool.and_eq_true] at h
          rw [List.isPrefixOf_cons_cons, Bool.and_eq_true]
          refine ⟨?_, ih hp.2 path' h.2⟩
          cases s with
          | index key => exact absurd hp.1 Bool.false_ne_true
          | field name =>
              cases t with
              | index key => exact absurd (eq_of_beq h.1) (by simp [Selector.shape])
              | field name' =>
                  have heq : Selector.field (K := Unit) name = .field name' := eq_of_beq h.1
                  cases heq
                  exact beq_self_eq_true _

/-- **What is surely overwritten is overwritten**, whatever the indices are. -/
theorem overwritten_of_surely {p : Place K} {noted : List (Access K)}
    (h : overwrittenSurely p.shape (noted.map Access.shape) = true) : overwritten p noted = true := by
  induction noted with
  | nil => cases h
  | cons a noted ih =>
      rw [List.map_cons] at h
      unfold overwrittenSurely at h
      unfold overwritten
      have hwrite : (Access.shape a).isWrite = a.isWrite := rfl
      rw [hwrite] at h
      split at h
      -- a write: it covers the place, or a later one does
      case isTrue ha =>
        rw [if_pos ha, Bool.or_eq_true]
        rw [Bool.or_eq_true, Bool.and_eq_true] at h
        refine h.imp (fun hcovers => ?_) ih
        exact covers_of_shape ((plain_shape a.place).symm.trans hcovers.1) hcovers.2
      -- a read: it must not touch the place
      case isFalse ha =>
        rw [if_neg ha, Bool.and_eq_true]
        rw [Bool.and_eq_true] at h
        refine ⟨?_, ih h.2⟩
        rw [Bool.not_eq_true', ← Bool.not_eq_true]
        intro hoverlaps
        have hshape : (Access.shape a).place.overlaps p.shape = true := overlaps_shape hoverlaps
        rw [hshape] at h
        exact absurd h.1 Bool.false_ne_true

/-- A write that is surely dead is dead. -/
theorem isDead_of_surely {pos : Nat} {noted : List (Access K)}
    (h : isSurelyDead pos (noted.map Access.shape) = true) : isDead pos noted = true := by
  induction noted with
  | nil => cases h
  | cons a noted ih =>
      rw [List.map_cons, isSurelyDead, Bool.or_eq_true, Bool.and_eq_true] at h
      rw [isDead, Bool.or_eq_true, Bool.and_eq_true]
      exact h.imp (And.imp_right overwritten_of_surely) ih

end Surely

/-- Where nothing is written at an index, what is overwritten surely is. -/
theorem surely_of_overwritten {p : Place Unit} {noted : List (Access Unit)}
    (hplain : ∀ a ∈ noted, a.isWrite = true → a.place.plain = true) (h : overwritten p noted = true) :
    overwrittenSurely p noted = true := by
  induction noted with
  | nil => cases h
  | cons a noted ih =>
      have ih := ih fun b hb => hplain b (List.mem_cons_of_mem _ hb)
      unfold overwritten at h
      unfold overwrittenSurely
      split at h
      case isTrue ha =>
        rw [Bool.or_eq_true] at h
        rw [if_pos ha, Bool.or_eq_true, Bool.and_eq_true]
        exact h.imp (fun hcovers => ⟨hplain a List.mem_cons_self ha, hcovers⟩) ih
      case isFalse ha =>
        rw [Bool.and_eq_true] at h
        rw [if_neg ha, Bool.and_eq_true]
        exact ⟨h.1, ih h.2⟩

/-- Where every write is to a plain place the two agree. -/
theorem surely_of_isDead {pos : Nat} {noted : List (Access Unit)}
    (hplain : ∀ a ∈ noted, a.isWrite = true → a.place.plain = true) (h : isDead pos noted = true) :
    isSurelyDead pos noted = true := by
  induction noted with
  | nil => cases h
  | cons a noted ih =>
      have hrest : ∀ b ∈ noted, b.isWrite = true → b.place.plain = true :=
        fun b hb => hplain b (List.mem_cons_of_mem _ hb)
      rw [isDead, Bool.or_eq_true, Bool.and_eq_true] at h
      rw [isSurelyDead, Bool.or_eq_true, Bool.and_eq_true]
      exact h.imp (And.imp_right (surely_of_overwritten hrest)) (ih hrest)

end ShaderClippy.Hlsl
