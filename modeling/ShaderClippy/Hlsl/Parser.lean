/-
  ShaderClippy.Hlsl.Parser

  **PRECEDENCE CLIMBING.**

  The parser reads tokens from left to right and goes on with an operator as
  long as the operator binds at least as tightly as its caller asks (`m`). What
  it has read so far is a `Pending`; `action` is one step, `run` the loop. Every
  step leaves less to read, so the fuel never matters (`parseFrom_eq`).
-/
import ShaderClippy.Hlsl.Expr

namespace ShaderClippy.Hlsl

variable (isType : Text → Bool)

/-! ## §1. The parser. -/

/-- What has been read. -/
inductive Pending where
  | start
  | got (e : Expr)
  | right (x : Expr) (op : Token) (p : Prec)
  | branch (c : Expr) (q : Token) (a : Expr) (k : Token)

/-- What to do next: read an expression of its own, go on, or come to an end. -/
inductive Action where
  | stop
  | fail
  | go (s : Pending) (rest : List Token)
  | sub (m : Nat) (inner : List Token) (next : Expr → List Token → Option (Pending × List Token))

/-- Go on behind a token of this kind. -/
def close (k : Kind) (f : Token → Pending) : List Token → Option (Pending × List Token)
  | [] => none
  | r :: rest => if kind isType r = k then some (f r, rest) else none

/-- The type and the parenthesis of a cast. -/
def castHead : List Token → Option (Token × Token × List Token)
  | type :: r :: rest =>
      if kind isType type = .type ∧ kind isType r = .closeParen then some (type, r, rest) else none
  | _ => none

/-- In front of an operand. -/
def startAction (t : Token) (ts : List Token) : Action :=
  match kind isType t with
  | .openParen =>
      match castHead isType ts with
      | some (type, r, rest) =>
          .sub kUnary rest fun e rest => some (.got (.unary (.cast t type r) e), rest)
      | none => .sub 0 ts fun e => close isType .closeParen fun r => .got (.paren t e r)
  | .type =>
      match ts with
      | l :: ts =>
          if kind isType l = .openParen then
            .sub 0 ts fun e => close isType .closeParen fun r => .got (.construct t l e r)
          else .fail
      | [] => .fail
  | .name => .go (.got (.atom t)) ts
  | .number => .go (.got (.atom t)) ts
  | .step => .sub kUnary ts fun e rest => some (.got (.unary (.op t) e), rest)
  | .sign _ => .sub kUnary ts fun e rest => some (.got (.unary (.op t) e), rest)
  | .negation => .sub kUnary ts fun e rest => some (.got (.unary (.op t) e), rest)
  | _ => .fail

/-- Behind a postfix operand. -/
def suffixAction (e : Expr) (t : Token) (ts : List Token) : Action :=
  match kind isType t with
  | .step => .go (.got (.suffix e (.step t))) ts
  | .dot =>
      match ts with
      | n :: ts =>
          if (kind isType n).isWord = true then .go (.got (.suffix e (.member t n))) ts else .fail
      | [] => .fail
  | .openParen =>
      match ts with
      | r :: rest =>
          if kind isType r = .closeParen then .go (.got (.suffix e (.nullary t r))) rest
          else .sub 0 (r :: rest) fun i => close isType .closeParen fun r => .got (.apply e t i r)
      | [] => .fail
  | .openBracket => .sub 0 ts fun i => close isType .closeBracket fun r => .got (.apply e t i r)
  | _ => .stop

/-- Behind an operand, for a caller that asks for level `m`. -/
def operatorAction (m : Nat) (e : Expr) (t : Token) (ts : List Token) : Action :=
  match kind isType t with
  | .question =>
      if m ≤ kConditional ∧ 3 ≤ e.level isType then
        .sub 0 ts fun a => close isType .colon fun k => .branch e t a k
      else .stop
  | .sign p => if m ≤ p.level ∧ p.left ≤ e.level isType then .go (.right e t p) ts else .stop
  | .operator p => if m ≤ p.level ∧ p.left ≤ e.level isType then .go (.right e t p) ts else .stop
  | _ => .stop

/-- A token that a postfix operand goes on with. -/
def Kind.isSuffix : Kind → Bool
  | .step => true
  | .dot => true
  | .openParen => true
  | .openBracket => true
  | _ => false

/-- One step. -/
def action (m : Nat) : Pending → List Token → Action
  | .start, [] => .fail
  | .start, t :: ts => startAction isType t ts
  | .got _, [] => .stop
  | .got e, t :: ts =>
      if (kind isType t).isSuffix = true then
        if kPostfix ≤ e.level isType then suffixAction isType e t ts else .stop
      else operatorAction isType m e t ts
  | .right x op p, ts => .sub p.right ts fun y rest => some (.got (.binary x op y), rest)
  | .branch c q a k, ts => .sub 1 ts fun b rest => some (.got (.cond c q a k b), rest)

/-- The expression read so far. -/
def Pending.expr : Pending → Option Expr
  | .got e => some e
  | _ => none

/-- The loop; `fuel` bounds its depth. -/
def run : Nat → Nat → Pending → List Token → Option (Expr × List Token)
  | 0, _, _, _ => none
  | fuel + 1, m, s, ts =>
      match action isType m s ts with
      | .stop => s.expr.map fun e => (e, ts)
      | .fail => none
      | .go s ts => run fuel m s ts
      | .sub m' inner next =>
          (run fuel m' .start inner).bind fun r =>
            (next r.1 r.2).bind fun n => run fuel m n.1 n.2

/-- Bounds the depth of the loop. -/
def Pending.weight : Pending → List Token → Nat
  | .start, ts => 2 * ts.length
  | .got _, ts => 2 * ts.length
  | .right _ _ _, ts => 2 * ts.length + 1
  | .branch _ _ _ _, ts => 2 * ts.length + 1

/-- Parse from here on. -/
def parseFrom (m : Nat) (s : Pending) (ts : List Token) : Option (Expr × List Token) :=
  run isType (s.weight ts + 1) m s ts

/-- **Parse an expression.** -/
def parse (ts : List Token) : Option Expr :=
  match parseFrom isType 0 .start ts with
  | some (e, []) => some e
  | _ => none

/-! ## §2. Progress. -/

variable {isType}

/-- Every step leaves less to read. -/
def Action.Shrinks (s : Pending) (ts : List Token) : Action → Prop
  | .stop => True
  | .fail => True
  | .go s' rest => s'.weight rest < s.weight ts
  | .sub _ inner next =>
      2 * inner.length < s.weight ts
        ∧ ∀ e rest s' rest', rest.length ≤ inner.length → next e rest = some (s', rest') →
            s'.weight rest' < s.weight ts

/-- What `close` accepts begins with the closing token. -/
theorem close_cases {k : Kind} {f : Token → Pending} {rest rest' : List Token} {s : Pending}
    (h : close isType k f rest = some (s, rest')) :
    ∃ r, rest = r :: rest' ∧ kind isType r = k ∧ s = f r := by
  cases rest with
  | nil => cases h
  | cons r rest =>
      rw [close] at h
      split at h
      case isTrue hk =>
        cases h
        exact ⟨r, rfl, hk, rfl⟩
      case isFalse => cases h

/-- What is read as a cast begins with a type and a closing parenthesis. -/
theorem castHead_cases {ts rest : List Token} {type r : Token}
    (h : castHead isType ts = some (type, r, rest)) :
    ts = type :: r :: rest ∧ kind isType type = .type ∧ kind isType r = .closeParen := by
  cases ts with
  | nil => cases h
  | cons t ts =>
      cases ts with
      | nil => cases h
      | cons u ts =>
          rw [castHead] at h
          split at h
          case isTrue hk =>
            cases h
            exact ⟨rfl, hk⟩
          case isFalse => cases h

/-- An expression in brackets: less is left behind the closing one. -/
theorem shrinks_close {s : Pending} {t : Token} {ts inner : List Token} {k : Kind}
    {f : Expr → Token → Pending} (hs : 2 * (t :: ts).length ≤ s.weight (t :: ts))
    (hinner : inner.length ≤ ts.length)
    (hf : ∀ e r rest, (f e r).weight rest ≤ 2 * rest.length + 1) :
    (Action.sub 0 inner fun e => close isType k (f e)).Shrinks s (t :: ts) := by
  rw [List.length_cons] at hs
  refine ⟨by omega, fun e rest s' rest' hrest hnext => ?_⟩
  have ⟨r, hr, _, hs'⟩ := close_cases hnext
  have hw := hf e r rest'
  rw [hr, List.length_cons] at hrest
  rw [hs']
  omega

theorem shrinks_operand {s : Pending} {t : Token} {ts inner : List Token} {m : Nat}
    {f : Expr → Expr} (hs : 2 * (t :: ts).length ≤ s.weight (t :: ts))
    (hinner : inner.length ≤ ts.length) :
    (Action.sub m inner fun e rest => some (.got (f e), rest)).Shrinks s (t :: ts) := by
  rw [List.length_cons] at hs
  refine ⟨by omega, fun e rest s' rest' hrest hnext => ?_⟩
  cases hnext
  show 2 * rest.length < _
  omega

/-- An action at the start of an operand leaves less to do. -/
theorem startAction_shrinks (t : Token) (ts : List Token) :
    (startAction isType t ts).Shrinks .start (t :: ts) := by
  have hw : 2 * (t :: ts).length ≤ Pending.start.weight (t :: ts) := Nat.le_refl _
  have hgot : ∀ e : Expr, (Pending.got e).weight ts < Pending.start.weight (t :: ts) := by
    intro e
    simp only [Pending.weight, List.length_cons]
    omega
  unfold startAction
  split
  · split
    case h_1 type r rest hcast =>
      have ⟨hts, _, _⟩ := castHead_cases hcast
      refine shrinks_operand hw ?_
      rw [hts]
      simp only [List.length_cons]
      omega
    case h_2 => exact shrinks_close hw (Nat.le_refl _) fun e r rest => Nat.le_succ _
  · split
    case h_1 l ts =>
      split
      · exact shrinks_close hw (by simp) fun e r rest => Nat.le_succ _
      · trivial
    case h_2 => trivial
  · exact hgot _
  · exact hgot _
  · exact shrinks_operand hw (Nat.le_refl _)
  · exact shrinks_operand hw (Nat.le_refl _)
  · exact shrinks_operand hw (Nat.le_refl _)
  · trivial

theorem suffixAction_shrinks (e : Expr) (t : Token) (ts : List Token) :
    (suffixAction isType e t ts).Shrinks (.got e) (t :: ts) := by
  have hw : 2 * (t :: ts).length ≤ (Pending.got e).weight (t :: ts) := Nat.le_refl _
  unfold suffixAction
  split
  · show 2 * ts.length < 2 * (ts.length + 1)
    omega
  · split
    case h_1 n ts =>
      split
      · show 2 * ts.length < 2 * (ts.length + 1 + 1)
        omega
      · trivial
    case h_2 => trivial
  · split
    case h_1 r rest =>
      split
      · show 2 * rest.length < 2 * (rest.length + 1 + 1)
        omega
      · exact shrinks_close hw (Nat.le_refl _) fun e r rest => Nat.le_succ _
    case h_2 => trivial
  · exact shrinks_close hw (Nat.le_refl _) fun e r rest => Nat.le_succ _
  · trivial

theorem operatorAction_shrinks (m : Nat) (e : Expr) (t : Token) (ts : List Token) :
    (operatorAction isType m e t ts).Shrinks (.got e) (t :: ts) := by
  have hw : 2 * (t :: ts).length ≤ (Pending.got e).weight (t :: ts) := Nat.le_refl _
  have hright : ∀ p, (Pending.right e t p).weight ts < (Pending.got e).weight (t :: ts) := by
    intro p
    simp only [Pending.weight, List.length_cons]
    omega
  rw [operatorAction]
  split
  · split
    · exact shrinks_close hw (Nat.le_refl _) fun e r rest => Nat.le_refl _
    · trivial
  · split
    · exact hright _
    · trivial
  · split
    · exact hright _
    · trivial
  · trivial

/-- **Every action leaves less to do**: the parser ends. -/
theorem action_shrinks (m : Nat) (s : Pending) (ts : List Token) :
    (action isType m s ts).Shrinks s ts := by
  cases s with
  | start =>
      cases ts with
      | nil => trivial
      | cons t ts => exact startAction_shrinks t ts
  | got e =>
      cases ts with
      | nil => trivial
      | cons t ts =>
          rw [action]
          split
          · split
            · exact suffixAction_shrinks e t ts
            · trivial
          · exact operatorAction_shrinks m e t ts
  | right x op p =>
      refine ⟨Nat.lt_succ_self _, fun e rest s' rest' hrest hnext => ?_⟩
      cases hnext
      show 2 * rest.length < 2 * ts.length + 1
      omega
  | branch c q a k =>
      refine ⟨Nat.lt_succ_self _, fun e rest s' rest' hrest hnext => ?_⟩
      cases hnext
      show 2 * rest.length < 2 * ts.length + 1
      omega

theorem weight_le (s : Pending) (ts : List Token) :
    2 * ts.length ≤ s.weight ts ∧ s.weight ts ≤ 2 * ts.length + 1 := by
  cases s <;> simp [Pending.weight]

/-- What is left over is no longer than what was read from. -/
theorem run_length {fuel m : Nat} {s : Pending} {ts rest : List Token} {e : Expr}
    (h : run isType fuel m s ts = some (e, rest)) : rest.length ≤ ts.length := by
  induction fuel generalizing m s ts e rest with
  | zero => cases h
  | succ fuel ih =>
      have hshrinks : (action isType m s ts).Shrinks s ts := action_shrinks m s ts
      have hw := weight_le s ts
      rw [run] at h
      cases hact : action isType m s ts with
      | stop =>
          simp only [hact, Option.map_eq_some_iff] at h
          have ⟨_, _, heq⟩ := h
          cases heq
          exact Nat.le_refl _
      | fail =>
          simp only [hact] at h
          cases h
      | go s' ts' =>
          rw [hact] at hshrinks
          simp only [hact] at h
          have hlen := ih h
          have hw' := weight_le s' ts'
          have hlt : s'.weight ts' < s.weight ts := hshrinks
          omega
      -- a nested parse: first what it leaves, then what is made of it
      | sub m' inner next =>
          rw [hact] at hshrinks
          simp only [hact, Option.bind_eq_some_iff] at h
          have ⟨r, hr, n, hn, hrun⟩ := h
          have hinner : r.2.length ≤ inner.length := ih (e := r.1) hr
          have hlt := hshrinks.2 r.1 r.2 n.1 n.2 hinner hn
          have hw' := weight_le n.1 n.2
          have hlen := ih hrun
          omega

/-- More fuel than needed makes no difference. -/
theorem run_fuel {a b m : Nat} {s : Pending} {ts : List Token} (ha : s.weight ts < a)
    (hb : s.weight ts < b) : run isType a m s ts = run isType b m s ts := by
  induction a generalizing b m s ts with
  | zero => omega
  | succ a ih =>
      cases b with
      | zero => omega
      | succ b =>
          have hshrinks : (action isType m s ts).Shrinks s ts := action_shrinks m s ts
          rw [run, run]
          cases hact : action isType m s ts with
          | stop => rfl
          | fail => rfl
          | go s' ts' =>
              rw [hact] at hshrinks
              have hlt : s'.weight ts' < s.weight ts := hshrinks
              exact ih (by omega) (by omega)
          -- both parts have a smaller weight, so the fuel suffices for each
          | sub m' inner next =>
              rw [hact] at hshrinks
              have hinner : Pending.start.weight inner < s.weight ts := hshrinks.1
              show (run isType a m' .start inner).bind _ = (run isType b m' .start inner).bind _
              rw [ih (b := b) (s := .start) (by omega) (by omega)]
              cases hr : run isType b m' .start inner with
              | none => rfl
              | some r =>
                  show (next r.1 r.2).bind _ = (next r.1 r.2).bind _
                  cases hn : next r.1 r.2 with
                  | none => rfl
                  | some n =>
                      have hlt := hshrinks.2 r.1 r.2 n.1 n.2 (run_length (e := r.1) hr) hn
                      exact ih (by omega) (by omega)

/-- **One step of the parser.** -/
theorem parseFrom_eq (m : Nat) (s : Pending) (ts : List Token) :
    parseFrom isType m s ts =
      match action isType m s ts with
      | .stop => s.expr.map fun e => (e, ts)
      | .fail => none
      | .go s ts => parseFrom isType m s ts
      | .sub m' inner next =>
          (parseFrom isType m' .start inner).bind fun r =>
            (next r.1 r.2).bind fun n => parseFrom isType m n.1 n.2 := by
  have hshrinks : (action isType m s ts).Shrinks s ts := action_shrinks m s ts
  rw [parseFrom, run]
  cases hact : action isType m s ts with
  | stop => rfl
  | fail => rfl
  | go s' ts' =>
      rw [hact] at hshrinks
      exact run_fuel hshrinks (Nat.lt_succ_self _)
  | sub m' inner next =>
      rw [hact] at hshrinks
      have hinner : Pending.start.weight inner < s.weight ts := hshrinks.1
      show (run isType (s.weight ts) m' .start inner).bind _
        = (run isType (Pending.start.weight inner + 1) m' .start inner).bind _
      rw [run_fuel hinner (Nat.lt_succ_self _)]
      cases hr : run isType (Pending.start.weight inner + 1) m' .start inner with
      | none => rfl
      | some r =>
          show (next r.1 r.2).bind _ = (next r.1 r.2).bind _
          cases hn : next r.1 r.2 with
          | none => rfl
          | some n =>
              have hlt := hshrinks.2 r.1 r.2 n.1 n.2 (run_length (e := r.1) hr) hn
              exact run_fuel hlt (Nat.lt_succ_self _)

end ShaderClippy.Hlsl
