/-
  ShaderClippy.Syntax.Shape

  **WHAT THE GRAMMAR PROMISES OF AN ERROR-FREE TREE.**

  `Node.shaped`: named nodes are not empty, tokens are leaves, and a call, an
  `if` and a `switch` have the parts they cannot do without. So a named node
  that fills its parent is the parent's only operand.
-/
import ShaderClippy.Syntax.Spans

namespace ShaderClippy

/-! ## §1. Kinds of expressions. -/

/-- Literals. -/
def isLiteral : NodeKind → Bool
  | .numberLiteral | .stringLiteral | .trueLiteral | .falseLiteral => true
  | _ => false

/-- Everything else but identifiers and calls. -/
def isOperator : NodeKind → Bool
  | .numberLiteral | .stringLiteral | .trueLiteral | .falseLiteral | .identifier
  | .callExpression => false
  | _ => true

/-- Every kind is a literal, an identifier, a call or an operator. -/
theorem kind_cases (k : NodeKind) : isLiteral k = true ∨ k = .identifier ∨ k = .callExpression
    ∨ isOperator k = true := by
  cases k <;> simp [isLiteral, isOperator]

/-! ## §2. Shapes. -/

/-- The two parts a node of a kind cannot do without. -/
def requiredParts : NodeKind → Option (Field × Field)
  | .callExpression => some (.function, .arguments)
  | .ifStatement => some (.condition, .consequence)
  | .switchStatement => some (.condition, .body)
  | _ => none

/-- A named part in a field. -/
def hasPart (f : Field) (cs : List Node) : Bool :=
  cs.any fun c => c.info.named && decide (c.info.field = some f)

/-- What the grammar promises of one node of an error-free tree: a named node
is not empty, no part of a name or literal is all of it, parts that must be
there are; anonymous nodes are tokens. -/
def shapedHere (i : NodeInfo) (cs : List Node) : Bool :=
  if i.named then
    decide (i.lo < i.hi)
      && (!(isLiteral i.kind || decide (i.kind = .identifier)) || cs.all fun c =>
        !c.info.named || decide (i.lo < c.info.lo) || decide (c.info.hi < i.hi))
      && (requiredParts i.kind).all fun p => hasPart p.1 cs && hasPart p.2 cs
  else cs.isEmpty && (requiredParts i.kind).isNone

mutual
/-- Every node of the tree has its shape. -/
def Node.shaped : Node → Bool
  | .mk i cs => shapedHere i cs && shapedAll cs

def shapedAll : List Node → Bool
  | [] => true
  | n :: ns => n.shaped && shapedAll ns
end

/-- Each node of a shaped list is shaped. -/
theorem shapedAll_mem {c : Node} : ∀ {ns : List Node}, shapedAll ns = true → c ∈ ns →
    c.shaped = true := by
  intro ns
  induction ns with
  | nil => exact fun _ hc => absurd hc List.not_mem_nil
  | cons n ns ih =>
      intro h hc
      obtain ⟨hn, hns⟩ := (Bool.and_eq_true _ _).mp h
      cases hc with
      | head => exact hn
      | tail _ hc => exact ih hns hc

/-- Each node of a shaped tree is shaped. -/
theorem Node.Sub.shaped {m n : Node} (hsub : m.Sub n) (h : n.shaped = true) :
    m.shaped = true := by
  induction hsub with
  | refl => exact h
  | child hc _ ih => exact ih (shapedAll_mem ((Bool.and_eq_true _ _).mp h).2 hc)

/-- Named nodes are not empty. -/
theorem Node.lo_lt_hi {n : Node} (h : n.shaped = true) (hn : n.info.named = true) :
    n.info.lo < n.info.hi := by
  cases n with
  | mk i cs =>
      have hhere := ((Bool.and_eq_true _ _).mp h).1
      unfold shapedHere at hhere
      rw [if_pos (show i.named = true from hn), Bool.and_eq_true, Bool.and_eq_true] at hhere
      exact of_decide_eq_true hhere.1.1

/-- Anonymous nodes are leaves without required parts. -/
theorem Node.of_anonymous {i : NodeInfo} {cs : List Node} (h : (Node.mk i cs).shaped = true)
    (hn : i.named = false) : cs = [] ∧ requiredParts i.kind = none := by
  have hhere := ((Bool.and_eq_true _ _).mp h).1
  unfold shapedHere at hhere
  rw [if_neg (by rw [hn]; exact nofun), Bool.and_eq_true] at hhere
  exact ⟨List.isEmpty_iff.mp hhere.1, Option.isNone_iff_eq_none.mp hhere.2⟩

/-- Nodes with required parts are named. -/
theorem Node.named_of_parts {n : Node} (h : n.shaped = true) (hp : requiredParts n.kind ≠ none) :
    n.info.named = true := by
  cases n with
  | mk i cs =>
      cases hi : i.named with
      | true => exact hi
      | false => exact absurd (Node.of_anonymous h hi).2 hp

/-! ## §3. Nodes that fill their parent. -/

/-- Named nodes are in order and not empty: one that fills its parent is alone. -/
theorem filter_named_of_fills {hi : Nat} {c : Node} (hc : c.info.named = true)
    (hhi : c.info.hi = hi) : ∀ {ns : List Node} {lo : Nat}, orderedIn lo hi ns = true →
      shapedAll ns = true → c ∈ ns → c.info.lo = lo →
      (ns.filter fun n => n.info.named) = [c] := by
  have hempty : ∀ {ns : List Node}, orderedIn hi hi ns = true → shapedAll ns = true →
      (ns.filter fun n => n.info.named) = [] := by
    intro ns hord hsh
    refine List.filter_eq_nil_iff.mpr fun n hn hnamed => ?_
    have := Node.lo_lt_hi (shapedAll_mem hsh hn) hnamed
    obtain ⟨_, h1, h2⟩ := orderedIn_mem hord hn
    omega
  intro ns
  induction ns with
  | nil => exact fun _ _ hmem _ => absurd hmem List.not_mem_nil
  | cons n ns ih =>
      intro lo hord hsh hmem hlo
      obtain ⟨h1, h2, h3, h4⟩ := orderedIn_cons.mp hord
      obtain ⟨hn, hns⟩ := (Bool.and_eq_true _ _).mp hsh
      cases hmem with
      | head =>
          rw [hhi] at h4
          rw [List.filter_cons, if_pos hc, hempty h4 hns]
      | tail _ hmem =>
          -- what comes before it would be empty
          obtain ⟨_, h5, _⟩ := orderedIn_mem h4 hmem
          have hle := Node.lo_le_hi h3
          have hanon : ¬ n.info.named = true := fun hnamed => by
            have := Node.lo_lt_hi hn hnamed
            omega
          rw [List.filter_cons, if_neg hanon]
          exact ih (by rw [show n.info.hi = lo by omega] at h4; exact h4) hns hmem hlo

/-- Two required parts are two named nodes. -/
theorem not_alone {f g : Field} {cs : List Node} {c : Node} (hfg : f ≠ g)
    (hf : hasPart f cs = true) (hg : hasPart g cs = true) :
    (cs.filter fun n => n.info.named) ≠ [c] := by
  intro h
  have hfield : ∀ {k : Field}, hasPart k cs = true → c.info.field = some k := by
    intro k hk
    obtain ⟨n, hn, hnk⟩ := List.any_eq_true.mp hk
    obtain ⟨hnamed, hnk⟩ := (Bool.and_eq_true _ _).mp hnk
    have hmem : n ∈ cs.filter fun n => n.info.named := List.mem_filter.mpr ⟨hn, hnamed⟩
    rw [h] at hmem
    rw [← List.mem_singleton.mp hmem]
    exact of_decide_eq_true hnk
  exact hfg (Option.some.inj ((hfield hf).symm.trans (hfield hg)))

/-- The two required parts of a kind are different fields. -/
theorem requiredParts_ne {k : NodeKind} {f g : Field} (h : requiredParts k = some (f, g)) :
    f ≠ g := by
  unfold requiredParts at h
  split at h <;> cases h <;> decide

/-- A named child that fills its parent is its only named child, and the
parent is an operator without required parts. -/
theorem fills {i : NodeInfo} {cs : List Node} {c : Node}
    (hw : (Node.mk i cs).wellSpanned = true) (hsh : (Node.mk i cs).shaped = true)
    (hi : i.named = true) (hmem : c ∈ cs) (hc : c.info.named = true) (hlo : c.info.lo = i.lo)
    (hhi : c.info.hi = i.hi) :
    (cs.filter fun n => n.info.named) = [c] ∧ isOperator i.kind = true
      ∧ requiredParts i.kind = none := by
  obtain ⟨hhere, hall⟩ := (Bool.and_eq_true _ _).mp hsh
  have hord := ((Bool.and_eq_true _ _).mp hw).2
  have halone := filter_named_of_fills hc hhi hord hall hmem hlo
  unfold shapedHere at hhere
  rw [if_pos hi, Bool.and_eq_true, Bool.and_eq_true] at hhere
  obtain ⟨⟨_, hleaf⟩, hparts⟩ := hhere
  have hnone : requiredParts i.kind = none := by
    cases hk : requiredParts i.kind with
    | none => rfl
    | some p =>
        rw [hk] at hparts
        obtain ⟨hf, hg⟩ := (Bool.and_eq_true _ _).mp hparts
        exact absurd halone (not_alone (requiredParts_ne hk) hf hg)
  refine ⟨halone, ?_, hnone⟩
  -- no child fills a literal or an identifier
  have hnoleaf : (isLiteral i.kind || decide (i.kind = .identifier)) = false := by
    cases hk : isLiteral i.kind || decide (i.kind = .identifier) with
    | false => rfl
    | true =>
        rw [hk, Bool.not_true, Bool.false_or, List.all_eq_true] at hleaf
        have := hleaf c hmem
        rw [hc, hlo, hhi] at this
        simp at this
  obtain ⟨hlit, hident⟩ := Bool.or_eq_false_iff.mp hnoleaf
  rcases kind_cases i.kind with hk | hk | hk | hk
  · rw [hlit] at hk
    cases hk
  · exact absurd hk (of_decide_eq_false hident)
  · rw [hk] at hnone
    cases hnone
  · exact hk

/-- The child above a node that fills a tree fills it too, and is named. -/
theorem Node.Sub.fills_child {i : NodeInfo} {cs : List Node} {c m : Node}
    (hw : (Node.mk i cs).wellSpanned = true) (hsh : (Node.mk i cs).shaped = true)
    (hmem : c ∈ cs) (hsub : m.Sub c) (hm : m.info.named = true)
    (hlo : m.info.lo = i.lo) (hhi : m.info.hi = i.hi) :
    c.info.named = true ∧ c.info.lo = i.lo ∧ c.info.hi = i.hi := by
  obtain ⟨hcw, hcin⟩ := Node.wellSpanned_child hw hmem
  obtain ⟨_, hmin⟩ := hsub.inside hcw
  unfold Node.Inside at hcin hmin
  simp only [Node.info_mk] at hcin
  refine ⟨?_, by omega, by omega⟩
  cases c with
  | mk j js =>
      cases hj : j.named with
      | true => exact hj
      -- below an anonymous node there is nothing else
      | false =>
          have hcsh := shapedAll_mem ((Bool.and_eq_true _ _).mp hsh).2 hmem
          rw [(Node.of_anonymous hcsh hj).1] at hsub
          cases hsub with
          | refl =>
              have hjm : j.named = true := hm
              rw [hj] at hjm
              cases hjm
          | child hc _ => exact absurd hc List.not_mem_nil

end ShaderClippy
