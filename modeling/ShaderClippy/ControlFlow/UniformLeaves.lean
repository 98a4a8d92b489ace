/-
  ShaderClippy.ControlFlow.UniformLeaves

  **WHICH EXPRESSIONS ARE CALLED UNIFORM?**

  The class of an expression is decided by its leaves: the literals, the names
  and the calls of known intrinsics it is built of. It is `Uniform` exactly if
  it has a leaf and all of its leaves are (`classify_uniform_iff`). Who stores
  to the names does not matter, and `LoopInvariant` is never given.
-/
import Mathlib.Data.List.Basic
import ShaderClippy.ControlFlow.UniformityTable
import ShaderClippy.Syntax.Calls

namespace ShaderClippy.ControlFlow

/-! ## §1. Leaves. -/

/-- A literal, a name or a call of a known intrinsic. -/
def isLeaf (bytes : Text) (n : Node) : Bool :=
  isLiteral n.kind || n.kind == .identifier
    || n.kind == .callExpression && (classifyCallee (ShaderClippy.calleeText bytes n)).isSome

/-- The class of a leaf. -/
def leafClass (div : List Text) (bytes : Text) (m : Node) : Uniformity :=
  match m.kind with
  | .identifier => classifyIdentifier div (m.text bytes)
  | .callExpression => (classifyCallee (ShaderClippy.calleeText bytes m)).getD .uniform
  | _ => .uniform

/-- `m` is a leaf of the expression `n`. Of other calls these are the leaves of
the arguments. -/
inductive Leaf (bytes : Text) (m : Node) : Node → Prop where
  | own : m.info.named = true → isLeaf bytes m = true → Leaf bytes m m
  | argument {n args c : Node} : n.info.named = true → n.kind = .callExpression → isLeaf bytes n = false →
      n.childByField .arguments = some args → c ∈ args.children → Leaf bytes m c → Leaf bytes m n
  | operand {n c : Node} : n.info.named = true → isOperator n.kind = true → c ∈ n.children → Leaf bytes m c →
      Leaf bytes m n

/-! ## §2. The join. -/

/-- The class is what the leaves make it. -/
inductive Sums (div : List Text) (bytes : Text) (leaves : Node → Prop) : Uniformity → Prop where
  | divergent (m : Node) : leaves m → leafClass div bytes m = .divergent → Sums div bytes leaves .divergent
  | uniform (m : Node) : leaves m → (∀ k, leaves k → leafClass div bytes k = .uniform) →
      Sums div bytes leaves .uniform
  | unknown : (∀ k, ¬ leaves k) → Sums div bytes leaves .unknown

section Join

variable {div : List Text} {bytes : Text} {A B : Node → Prop} {u v : Uniformity}

/-- No leaves. -/
theorem sums_none (div : List Text) (bytes : Text) : Sums div bytes (fun _ => False) .unknown :=
  .unknown fun _ h => h

theorem Sums.congr (h : Sums div bytes A u) (hAB : ∀ m, A m ↔ B m) : Sums div bytes B u := by
  have hsame : A = B := funext fun m => propext (hAB m)
  rwa [← hsame]

theorem Sums.join (h : Sums div bytes A u) (h' : Sums div bytes B v) :
    Sums div bytes (fun m => A m ∨ B m) (u.join v) := by
  cases h with
  | divergent m hm hclass => exact .divergent m (.inl hm) hclass
  | uniform m hm hall =>
      cases h' with
      | divergent k hk hclass => exact .divergent k (.inr hk) hclass
      | uniform k _ hall' => exact .uniform m (.inl hm) fun l hl => hl.elim (hall l) (hall' l)
      | unknown hnone => exact .uniform m (.inl hm) fun l hl => hl.elim (hall l) fun h => absurd h (hnone l)
  | unknown hnone =>
      have hjoin : Uniformity.unknown.join v = v := by
        cases v <;> rfl
      rw [hjoin]
      exact h'.congr fun m => ⟨.inr, fun hm => hm.resolve_left (hnone m)⟩

end Join

/-! ## §3. The class of an expression. -/

section Classify

variable {div : List Text} {bytes : Text}

theorem leafClass_cases (div : List Text) (bytes : Text) (m : Node) :
    leafClass div bytes m = .divergent ∨ leafClass div bytes m = .uniform := by
  have hcallee : ∀ text, classifyCallee text = none ∨ classifyCallee text = some .divergent
      ∨ classifyCallee text = some .uniform := by
    intro text
    unfold classifyCallee
    split
    · exact .inr (.inl rfl)
    · split
      · exact .inr (.inr rfl)
      · exact .inl rfl
  unfold leafClass
  split
  · unfold classifyIdentifier
    split
    · exact .inl rfl
    · split
      · exact .inl rfl
      · exact .inr rfl
  · rcases hcallee (ShaderClippy.calleeText bytes m) with h | h | h <;> rw [h]
    · exact .inr rfl
    · exact .inl rfl
    · exact .inr rfl
  · exact .inr rfl

/-- One leaf. -/
theorem sums_leaf {m : Node} : Sums div bytes (· = m) (leafClass div bytes m) := by
  rcases leafClass_cases div bytes m with h | h
  · rw [h]
    exact .divergent m rfl h
  · rw [h]
    exact .uniform m rfl fun k hk => hk ▸ h

theorem leaf_named {m n : Node} (h : Leaf bytes m n) : n.info.named = true := by
  cases h with
  | own hn _ => exact hn
  | argument hn _ _ _ _ _ => exact hn
  | operand hn _ _ _ => exact hn

/-- A leaf has no other leaves. -/
theorem leaf_iff_of_isLeaf {m n : Node} (hn : n.info.named = true) (hleaf : isLeaf bytes n = true) :
    Leaf bytes m n ↔ m = n := by
  constructor
  · intro h
    cases h with
    | own => rfl
    | argument _ _ hnot _ _ _ =>
        rw [hleaf] at hnot
        cases hnot
    | operand _ hop _ _ =>
        unfold isLeaf at hleaf
        cases hkind : n.kind <;> rw [hkind] at hop hleaf <;> cases hop <;> cases hleaf
  · rintro rfl
    exact .own hn hleaf

/-- The leaves of a call of something else are those of its arguments. -/
theorem leaf_iff_of_call {m n : Node} (hn : n.info.named = true) (hkind : n.kind = .callExpression)
    (hleaf : isLeaf bytes n = false) :
    Leaf bytes m n ↔ ∃ args, n.childByField .arguments = some args ∧ ∃ c ∈ args.children, Leaf bytes m c := by
  constructor
  · intro h
    cases h with
    | own _ hyes =>
        rw [hleaf] at hyes
        cases hyes
    | argument _ _ _ hargs hc hm => exact ⟨_, hargs, _, hc, hm⟩
    | operand _ hop _ _ =>
        rw [hkind] at hop
        cases hop
  · intro ⟨args, hargs, c, hc, hm⟩
    exact .argument hn hkind hleaf hargs hc hm

/-- The leaves of an operator are those of its operands. -/
theorem leaf_iff_of_operator {m n : Node} (hn : n.info.named = true) (hop : isOperator n.kind = true) :
    Leaf bytes m n ↔ ∃ c ∈ n.children, Leaf bytes m c := by
  constructor
  · intro h
    cases h with
    | own _ hleaf =>
        unfold isLeaf at hleaf
        cases hkind : m.kind <;> rw [hkind] at hop hleaf <;> cases hop <;> cases hleaf
    | argument _ hkind _ _ _ _ =>
        rw [hkind] at hop
        cases hop
    | operand _ _ hc hm => exact ⟨_, hc, hm⟩
  · intro ⟨c, hc, hm⟩
    exact .operand hn hop hc hm

mutual
/-- **The class of a named node is what its leaves make it.** -/
theorem classify_sums : ∀ (n : Node), n.info.named = true →
    Sums div bytes (fun m => Leaf bytes m n) (classify div bytes n).1
  | .mk i cs, hn => by
      have hnamed : i.named = true := hn
      have hself : isLeaf bytes (.mk i cs) = true → (classify div bytes (.mk i cs)).1
          = leafClass div bytes (.mk i cs) → Sums div bytes (fun m => Leaf bytes m (.mk i cs))
            (classify div bytes (.mk i cs)).1 := by
        intro hleaf hclass
        rw [hclass]
        exact sums_leaf.congr fun m => (leaf_iff_of_isLeaf hn hleaf).symm
      rcases kind_cases i.kind with hk | hk | hk | hk
      · -- a literal
        refine hself (by unfold isLeaf; rw [show (Node.mk i cs).kind = i.kind from rfl, hk]; rfl) ?_
        unfold classify leafClass
        rw [if_neg (by rw [hnamed]; nofun), show (Node.mk i cs).kind = i.kind from rfl]
        cases hkind : i.kind <;> rw [hkind] at hk <;> cases hk <;> rfl
      · refine hself (by unfold isLeaf; rw [show (Node.mk i cs).kind = i.kind from rfl, hk]; rfl) ?_
        rw [classify_identifier hnamed hk]
        unfold leafClass
        rw [show (Node.mk i cs).kind = i.kind from rfl, hk]
        rfl
      · have hclass : (classify div bytes (.mk i cs)).1
            = (match classifyCallee (ShaderClippy.calleeText bytes (.mk i cs)) with
              | some u => u
              | none => (classifyArguments div bytes cs).1) := by
          unfold classify
          rw [if_neg (by rw [hnamed]; nofun), hk]
          unfold ShaderClippy.calleeText optionText
          cases (Node.mk i cs).childByField .function <;> dsimp only <;> split <;> rename_i hcallee <;>
            rw [hcallee] <;> rfl
        cases hcallee : classifyCallee (ShaderClippy.calleeText bytes (.mk i cs)) with
        | some u =>
            rw [hcallee] at hclass
            refine hself ?_ (hclass.trans ?_)
            · unfold isLeaf
              rw [show (Node.mk i cs).kind = i.kind from rfl, hk, hcallee]
              rfl
            · unfold leafClass
              rw [show (Node.mk i cs).kind = i.kind from rfl, hk]
              dsimp only
              rw [hcallee]
              rfl
        | none =>
            rw [hcallee] at hclass
            have hleaf : isLeaf bytes (.mk i cs) = false := by
              unfold isLeaf
              rw [show (Node.mk i cs).kind = i.kind from rfl, hk, hcallee]
              rfl
            rw [hclass]
            exact (classifyArguments_sums cs).congr fun m => (leaf_iff_of_call hn hk hleaf).symm
      · rw [classify_operator hnamed hk]
        refine (classifyOperands_sums cs (sums_none div bytes)).congr fun m => ?_
        rw [leaf_iff_of_operator hn hk]
        exact ⟨fun h => h.resolve_left id, .inr⟩

theorem classifyOperands_sums : ∀ (ns : List Node) {A : Node → Prop} {u : Uniformity}, Sums div bytes A u →
    Sums div bytes (fun m => A m ∨ ∃ c ∈ ns, Leaf bytes m c) (classifyOperands div bytes u ns).1
  | [], A, u, h => by
      unfold classifyOperands
      exact h.congr fun m => ⟨.inl, fun hm => hm.resolve_right fun ⟨_, hc, _⟩ => absurd hc List.not_mem_nil⟩
  | n :: ns, A, u, h => by
      unfold classifyOperands
      split
      next hn =>
        have hrest := classifyOperands_sums ns (h.join (classify_sums n hn))
        refine hrest.congr fun m => ?_
        rw [List.exists_mem_cons_iff, or_assoc]
      next hn =>
        refine (classifyOperands_sums ns h).congr fun m => ?_
        rw [List.exists_mem_cons_iff]
        exact ⟨fun hm => hm.imp_right .inr, fun hm => hm.imp_right fun hc =>
          hc.resolve_left fun hleaf => hn (leaf_named hleaf)⟩

theorem classifyArguments_sums : ∀ (cs : List Node),
    Sums div bytes (fun m => ∃ args, (cs.find? fun c => decide (c.info.field = some .arguments)) = some args
      ∧ ∃ c ∈ args.children, Leaf bytes m c) (classifyArguments div bytes cs).1
  | [] => by
      unfold classifyArguments
      exact .unknown fun m ⟨args, h, _⟩ => by cases h
  | .mk i cs :: ns => by
      unfold classifyArguments
      split
      next hfield =>
        refine (classifyOperands_sums cs (sums_none div bytes)).congr fun m => ?_
        rw [List.find?_cons_of_pos (by exact decide_eq_true hfield)]
        constructor
        · intro h
          exact ⟨_, rfl, h.resolve_left id⟩
        · rintro ⟨args, ⟨⟩, h⟩
          exact .inr h
      next hfield =>
        rw [List.find?_cons, show decide ((Node.mk i cs).info.field = some .arguments) = false from decide_eq_false hfield]
        exact classifyArguments_sums ns
end

/-- **When an expression is called uniform**: it has leaves, and all of them are. -/
theorem classify_uniform_iff {n : Node} (hn : n.info.named = true) :
    (classify div bytes n).1 = .uniform
      ↔ (∃ m, Leaf bytes m n) ∧ ∀ m, Leaf bytes m n → leafClass div bytes m = .uniform := by
  have hsums := @classify_sums div bytes n hn
  generalize (classify div bytes n).1 = u at hsums
  cases hsums with
  | divergent m hm hclass =>
      refine ⟨nofun, fun h => ?_⟩
      rw [h.2 m hm] at hclass
      cases hclass
  | uniform m hm hall => exact ⟨fun _ => ⟨⟨m, hm⟩, hall⟩, fun _ => rfl⟩
  | unknown hnone => exact ⟨nofun, fun ⟨⟨m, hm⟩, _⟩ => absurd hm (hnone m)⟩

/-- `LoopInvariant` is never given. -/
theorem classify_ne_loopInvariant {n : Node} : (classify div bytes n).1 ≠ .loopInvariant := by
  intro h
  cases hn : n.info.named with
  | false =>
      rw [classify_anonymous hn] at h
      cases h
  | true =>
      have hsums := @classify_sums div bytes n hn
      rw [h] at hsums
      cases hsums

end Classify

end ShaderClippy.ControlFlow
