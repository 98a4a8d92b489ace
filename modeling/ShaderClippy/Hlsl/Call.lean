/-
  ShaderClippy.Hlsl.Call

  **CALLS AND THEIR ARGUMENTS.**

  The rules ask a node for its kind, its function and its arguments. The
  arguments are the operands of the commas at the top of what is between the
  parentheses, so they bind tighter than a comma, and they are operands of the
  call: parts of the tree, if the call is (`callOf_spec`).
-/
import ShaderClippy.Hlsl.Reparse

namespace ShaderClippy.Hlsl

open Munch (LexOK)

/-- The named children of an argument list. -/
def arguments : Expr → List Expr
  | .binary x op y => if op.body = [','] then arguments x ++ [y] else [.binary x op y]
  | e => [e]

/-- A `call_expression`. -/
structure Call where
  function : Expr
  args : List Expr

/-- The node as a `call_expression`; a type stands for itself as a function. -/
def callOf : Expr → Option Call
  | .apply f l i _ => if l.body = ['('] then some ⟨f, arguments i⟩ else none
  | .construct type _ args _ => some ⟨.atom type, arguments args⟩
  | .suffix f (.nullary _ _) => some ⟨f, []⟩
  | _ => none

/-- A `number_literal`, with its text. -/
def numberOf (isType : Text → Bool) : Expr → Option Text
  | .atom t => if kind isType t = .number then some t.body else none
  | _ => none

/-- An `identifier`, with its text. -/
def identifierOf (isType : Text → Bool) : Expr → Option Text
  | .atom t => if kind isType t = .name then some t.body else none
  | _ => none

/-- A `call_expression` whose function has this text. -/
def callTo (name : Text) (e : Expr) : Option (List Expr) :=
  (callOf e).bind fun c => if nodeText c.function = name then some c.args else none

variable {isType : Text → Bool}

theorem numberOf_spec {e : Expr} {text : Text} (h : numberOf isType e = some text) :
    ∃ t, e = .atom t ∧ kind isType t = .number ∧ text = t.body := by
  unfold numberOf at h
  split at h
  case h_1 t =>
    split at h
    case isTrue hkind =>
      cases h
      exact ⟨t, rfl, hkind, rfl⟩
    case isFalse => cases h
  case h_2 => cases h

theorem identifierOf_spec {e : Expr} {text : Text} (h : identifierOf isType e = some text) :
    ∃ t, e = .atom t ∧ kind isType t = .name ∧ text = t.body := by
  unfold identifierOf at h
  split at h
  case h_1 t =>
    split at h
    case isTrue hkind =>
      cases h
      exact ⟨t, rfl, hkind, rfl⟩
    case isFalse => cases h
  case h_2 => cases h

/-- Only the comma binds as loosely as a comma. -/
theorem one_le_prec {op : Token} {p : Prec} (hp : (kind isType op).prec = some p)
    (hcomma : op.body ≠ [',']) : 1 ≤ p.level := by
  rcases prec_cases hp with rfl | rfl | ⟨n, hn, _, rfl⟩
  · have hsymbol : (kindOf isType op.body).isSymbol = true := by
      cases hk : kindOf isType op.body <;> rw [kind, hk] at hp <;> first | rfl | cases hp
    have hall : (symbols.all fun s => s.2.prec != some kComma || s.1 == [',']) = true := rfl
    have hs := List.all_eq_true.mp hall _ (kindOf_symbol hsymbol)
    exact absurd (by simpa [hp] using hs) hcomma
  · exact Nat.le_refl _
  · show 1 ≤ n
    omega

/-- What binds tighter than a comma is one argument. -/
theorem arguments_of_level {e : Expr} (h : 1 ≤ e.level isType) : arguments e = [e] := by
  cases e with
  | binary x op y =>
      rw [arguments, if_neg]
      intro hop
      have hkind : kind isType op = .operator kComma := by
        rw [kind, hop]
        rfl
      rw [Expr.level, hkind] at h
      exact absurd h (Nat.lt_irrefl 0)
  | _ => rfl

/-- Part of a tree, as it stands in the text. -/
def Part (isType : Text → Bool) (e : Expr) : Prop := e.WellFormed isType ∧ LexOK rules e.toks

/-- What stands in a frame is a part where the whole is. -/
theorem Part.fill {f : Frame} {e : Expr} (h : Part isType (f.fill e)) : Part isType e := by
  refine ⟨((Frame.wellFormed_fill isType f e).mp h.1).2.1, ?_⟩
  exact (lexOK_plug (c := [f]) (e := e).mp h.2).2.1

/-- **An argument is a part of its call**, and binds tighter than a comma. -/
theorem arguments_spec {i : Expr} (h : Part isType i) :
    ∀ a ∈ arguments i, Part isType a ∧ 1 ≤ a.level isType := by
  induction i with
  | binary x op y ihx _ =>
      intro a ha
      have ⟨p, hp, _, _, _, hley⟩ := h.1
      rw [arguments] at ha
      split at ha
      -- a comma splits: the right side is one argument
      case isTrue hcomma =>
        rcases List.mem_append.mp ha with ha | ha
        · exact ihx (Part.fill (f := .left op y) h) a ha
        · cases List.mem_singleton.mp ha
          have hkind : kind isType op = .operator kComma := by
            rw [kind, hcomma]
            rfl
          rw [hkind] at hp
          cases hp
          exact ⟨Part.fill (f := .right x op) h, hley⟩
      case isFalse hcomma =>
        cases List.mem_singleton.mp ha
        rw [level_binary isType hp]
        exact ⟨h, one_le_prec hp hcomma⟩
  | atom =>
      intro a ha
      cases List.mem_singleton.mp ha
      exact ⟨h, by show 1 ≤ 16; omega⟩
  | paren =>
      intro a ha
      cases List.mem_singleton.mp ha
      exact ⟨h, by show 1 ≤ 16; omega⟩
  | construct =>
      intro a ha
      cases List.mem_singleton.mp ha
      exact ⟨h, by show 1 ≤ 16; omega⟩
  | unary =>
      intro a ha
      cases List.mem_singleton.mp ha
      exact ⟨h, by show 1 ≤ 14; omega⟩
  | cond =>
      intro a ha
      cases List.mem_singleton.mp ha
      exact ⟨h, by show 1 ≤ 2; omega⟩
  | suffix =>
      intro a ha
      cases List.mem_singleton.mp ha
      exact ⟨h, by show 1 ≤ 15; omega⟩
  | apply =>
      intro a ha
      cases List.mem_singleton.mp ha
      exact ⟨h, by show 1 ≤ 15; omega⟩

/-- The arguments of a call are parts that bind tighter than a comma. -/
theorem callOf_spec {e : Expr} (h : Part isType e) {call : Call} (hcall : callOf e = some call) :
    ∀ a ∈ call.args, Part isType a ∧ 1 ≤ a.level isType := by
  cases e with
  | apply f l i r =>
      rw [callOf] at hcall
      split at hcall
      case isTrue =>
        cases hcall
        exact arguments_spec (Part.fill (f := .argument f l r) h)
      case isFalse => cases hcall
  | construct type l args r =>
      cases hcall
      exact arguments_spec (Part.fill (f := .construct type l r) h)
  | suffix f s =>
      cases s with
      | nullary l r =>
          cases hcall
          exact nofun
      | step => cases hcall
      | member => cases hcall
  | _ => cases hcall

theorem callTo_spec {e : Expr} (h : Part isType e) {name : Text} {args : List Expr}
    (hcall : callTo name e = some args) : ∀ a ∈ args, Part isType a ∧ 1 ≤ a.level isType := by
  rw [callTo, Option.bind_eq_some_iff] at hcall
  have ⟨call, hc, hname⟩ := hcall
  split at hname
  case isTrue =>
    cases hname
    exact callOf_spec h hc
  case isFalse => cases hname

end ShaderClippy.Hlsl
