/-
  ShaderClippy.ControlFlow.UniformityTable

  **THE ORACLE ANSWERS WITH THE CLASS OF THE NODE IT IS ASKED ABOUT.**

  The analyzer files classes under byte spans, and files most of them more
  than once. In a tree of the grammar two named nodes with the same span
  have the same class, since one is the only operand of the other; so
  whichever write comes last, `of_expr` gives the class of the node, and
  `of_branch` that of the branch condition.
-/
import ShaderClippy.ControlFlow.UniformityAnalyzer
import ShaderClippy.Syntax.Shape

namespace ShaderClippy.ControlFlow

/-! ## §1. Classes by kind. -/

section Classes

variable {div : List Text} {bytes : Text} {i : NodeInfo} {cs : List Node}

/-- The class of a list is the join of the classes of its named nodes. -/
theorem classifyOperands_fst (u : Uniformity) :
    (classifyOperands div bytes u cs).1
      = (cs.filter fun c => c.info.named).foldl (fun u c => u.join (classify div bytes c).1) u := by
  induction cs generalizing u with
  | nil => rfl
  | cons c cs ih =>
      unfold classifyOperands
      rw [List.filter_cons]
      by_cases hc : c.info.named = true
      · rw [if_pos hc, if_pos hc]
        exact ih _
      · rw [if_neg hc, if_neg hc]
        exact ih u

/-- Anonymous nodes are not classified. -/
theorem classify_anonymous {n : Node} (h : n.info.named = false) :
    classify div bytes n = (.unknown, []) := by
  cases n with
  | mk i cs =>
      have hi : i.named = false := h
      unfold classify
      rw [if_pos (by rw [hi]; rfl)]

theorem classify_operator (hnamed : i.named = true) (hk : isOperator i.kind = true) :
    (classify div bytes (.mk i cs)).1 = (classifyOperands div bytes .unknown cs).1 := by
  unfold classify
  rw [if_neg (by rw [hnamed]; exact nofun)]
  split <;> first | rfl | simp_all [isOperator]

theorem classify_identifier (hnamed : i.named = true) (hk : i.kind = .identifier) :
    (classify div bytes (.mk i cs)).1 = classifyIdentifier div (textAt bytes i.lo i.hi) := by
  unfold classify
  rw [if_neg (by rw [hnamed]; exact nofun), hk]
  rfl

/-- The class of a node does not depend on the field it fills. -/
theorem classify_withField (n : Node) (f : Option Field) :
    classify div bytes (n.withField f) = classify div bytes n := by
  cases n with
  | mk i cs =>
      show classify div bytes (.mk { i with field := f } cs) = _
      unfold classify
      rfl

end Classes

/-! ## §2. One span, one class. -/

section Table

variable {div : List Text} {bytes : Text}

/-- A named node that fills a tree has the class of the tree. -/
theorem class_of_fills {m n : Node} (hsub : m.Sub n) (hw : n.wellSpanned = true)
    (hsh : n.shaped = true) (hn : n.info.named = true) (hm : m.info.named = true)
    (hlo : m.info.lo = n.info.lo) (hhi : m.info.hi = n.info.hi) :
    (classify div bytes m).1 = (classify div bytes n).1 := by
  induction hsub with
  | refl => rfl
  | @child i cs c hmem hsub ih =>
      obtain ⟨hc, hclo, hchi⟩ := hsub.fills_child hw hsh hmem hm hlo hhi
      have hi : i.named = true := hn
      obtain ⟨halone, hop, _⟩ := fills hw hsh hi hmem hc hclo hchi
      rw [classify_operator hi hop, classifyOperands_fst, halone]
      show _ = Uniformity.unknown.join _
      rw [ih (Node.wellSpanned_child hw hmem).1
        (shapedAll_mem ((Bool.and_eq_true _ _).mp hsh).2 hmem) hc (hlo.trans hclo.symm)
        (hhi.trans hchi.symm)]
      cases (classify div bytes c).1 <;> rfl

/-- **Named nodes with the same span have the same class.** -/
theorem class_of_span {root a b : Node} (hw : root.wellSpanned = true)
    (hsh : root.shaped = true) (ha : a.Sub root) (hb : b.Sub root) (han : a.info.named = true)
    (hbn : b.info.named = true) (hlo : a.info.lo = b.info.lo) (hhi : a.info.hi = b.info.hi) :
    (classify div bytes a).1 = (classify div bytes b).1 := by
  have hne := Node.lo_lt_hi (ha.shaped hsh) han
  rcases Node.nested_or_apart ha hb hw with h | h | h | h
  · exact class_of_fills h (hb.inside hw).1 (hb.shaped hsh) hbn han hlo hhi
  · exact (class_of_fills h (ha.inside hw).1 (ha.shaped hsh) han hbn hlo.symm hhi.symm).symm
  · omega
  · omega

/-! ## §3. The writes. -/

/-- The write a node makes for itself. -/
def ownWrite (div : List Text) (bytes : Text) (n : Node) : ByteSpan × Uniformity :=
  (⟨n.info.lo, n.info.hi⟩, (classify div bytes n).1)

/-- A named node makes the writes of its operands and its own. -/
theorem classify_writes_eq {i : NodeInfo} {cs : List Node} (hi : i.named = true) :
    ∃ inner : UniformityWrites,
      (classify div bytes (.mk i cs)).2 = inner ++ [ownWrite div bytes (.mk i cs)]
        ∧ (inner = [] ∨ inner = (classifyArguments div bytes cs).2
          ∨ inner = (classifyOperands div bytes .unknown cs).2) := by
  have hrecord : ∃ result : Uniformity × UniformityWrites,
      classify div bytes (.mk i cs) = record i result
        ∧ (result.2 = [] ∨ result = classifyArguments div bytes cs
          ∨ result = classifyOperands div bytes .unknown cs) := by
    unfold classify
    rw [if_neg (by rw [hi]; exact nofun)]
    split
    · exact ⟨_, rfl, Or.inl rfl⟩
    · exact ⟨_, rfl, Or.inl rfl⟩
    · exact ⟨_, rfl, Or.inl rfl⟩
    · exact ⟨_, rfl, Or.inl rfl⟩
    · exact ⟨_, rfl, Or.inl rfl⟩
    · dsimp only
      split
      · exact ⟨_, rfl, Or.inl rfl⟩
      · exact ⟨_, rfl, Or.inr (Or.inl rfl)⟩
    · exact ⟨_, rfl, Or.inr (Or.inr rfl)⟩
  obtain ⟨result, heq, hresult⟩ := hrecord
  refine ⟨result.2, ?_, ?_⟩
  · unfold ownWrite
    rw [heq]
    rfl
  · rcases hresult with h | h | h
    · exact Or.inl h
    · exact Or.inr (Or.inl (by rw [h]))
    · exact Or.inr (Or.inr (by rw [h]))

/-- A named node is filed. -/
theorem ownWrite_mem {n : Node} (hn : n.info.named = true) :
    ownWrite div bytes n ∈ (classify div bytes n).2 := by
  cases n with
  | mk i cs =>
      have hi : i.named = true := hn
      obtain ⟨inner, heq, _⟩ := @classify_writes_eq div bytes i cs hi
      rw [heq]
      exact List.mem_append_right _ (List.mem_singleton_self _)

mutual
/-- Every write is the own write of a named node. -/
theorem classify_writes : ∀ (n : Node), ∀ e ∈ (classify div bytes n).2,
    ∃ m : Node, m.Sub n ∧ m.info.named = true ∧ e = ownWrite div bytes m
  | .mk i cs, e, he => by
      cases hi : i.named with
      | false =>
          rw [classify_anonymous (n := .mk i cs) hi] at he
          exact absurd he List.not_mem_nil
      | true =>
          obtain ⟨inner, heq, hinner⟩ := @classify_writes_eq div bytes i cs hi
          rw [heq] at he
          rcases List.mem_append.mp he with he | he
          · rcases hinner with h | h | h
            · rw [h] at he
              exact absurd he List.not_mem_nil
            · rw [h] at he
              obtain ⟨c, hc, m, hm, hmn, rfl⟩ := classifyArguments_writes cs e he
              exact ⟨m, .child hc hm, hmn, rfl⟩
            · rw [h] at he
              obtain ⟨c, hc, m, hm, hmn, rfl⟩ := classifyOperands_writes cs .unknown e he
              exact ⟨m, .child hc hm, hmn, rfl⟩
          · exact ⟨_, .refl, hi, List.mem_singleton.mp he⟩

theorem classifyOperands_writes : ∀ (ns : List Node) (u : Uniformity),
    ∀ e ∈ (classifyOperands div bytes u ns).2,
      ∃ c ∈ ns, ∃ m : Node, m.Sub c ∧ m.info.named = true ∧ e = ownWrite div bytes m
  | [], _, _, he => absurd he List.not_mem_nil
  | n :: ns, u, e, he => by
      unfold classifyOperands at he
      split at he
      · rcases List.mem_append.mp he with he | he
        · obtain ⟨m, hm, hmn, rfl⟩ := classify_writes n e he
          exact ⟨n, List.mem_cons_self .., m, hm, hmn, rfl⟩
        · obtain ⟨c, hc, hm⟩ := classifyOperands_writes ns _ e he
          exact ⟨c, List.mem_cons_of_mem _ hc, hm⟩
      · obtain ⟨c, hc, hm⟩ := classifyOperands_writes ns u e he
        exact ⟨c, List.mem_cons_of_mem _ hc, hm⟩

theorem classifyArguments_writes : ∀ (ns : List Node),
    ∀ e ∈ (classifyArguments div bytes ns).2,
      ∃ c ∈ ns, ∃ m : Node, m.Sub c ∧ m.info.named = true ∧ e = ownWrite div bytes m
  | [], _, he => absurd he List.not_mem_nil
  | .mk i cs :: ns, e, he => by
      unfold classifyArguments at he
      split at he
      · obtain ⟨c, hc, m, hm, hmn, rfl⟩ := classifyOperands_writes cs .unknown e he
        exact ⟨_, List.mem_cons_self .., m, .child hc hm, hmn, rfl⟩
      · obtain ⟨c, hc, hm⟩ := classifyArguments_writes ns e he
        exact ⟨c, List.mem_cons_of_mem _ hc, hm⟩
end

/-! ## §4. The answers. -/

/-- A lookup among writes that agree on the span. -/
theorem lookupUniformity_eq {writes : UniformityWrites} {span : ByteSpan} {u : Uniformity}
    (hmem : (span, u) ∈ writes) (hall : ∀ v, (span, v) ∈ writes → v = u) :
    lookupUniformity writes span = u := by
  unfold lookupUniformity
  cases hfind : writes.reverse.find? fun e => decide (e.1 = span) with
  | none =>
      have := List.find?_eq_none.mp hfind _ (List.mem_reverse.mpr hmem)
      exact absurd (decide_eq_true rfl) this
  | some e =>
      have hspan : e.1 = span := by simpa using List.find?_some hfind
      have hin := List.mem_reverse.mp (List.mem_of_find?_eq_some hfind)
      exact hall e.2 (by rw [← hspan]; exact hin)

end Table

section Oracle

variable {root : Node} {bytes : Text}

/-- The condition of a branch is a node of the branch. -/
theorem branchCondition_sub {n c : Node} (h : branchCondition n = some c) : c.Sub n := by
  cases n with
  | mk i cs =>
      unfold branchCondition at h
      split at h
      · cases h
        exact .child (List.mem_of_find?_eq_some ‹_›) .refl
      · have hmem := List.mem_of_mem_head? h
        exact .child (List.mem_filter.mp hmem).1 .refl

/-- The writes to the expression map are own writes of named nodes. -/
theorem exprUniformity_mem {e : ByteSpan × Uniformity}
    (he : e ∈ (analyseUniformity root bytes).exprUniformity) :
    ∃ m : Node, m.Sub root ∧ m.info.named = true
      ∧ e = ownWrite (seedDivergentParameters bytes root) bytes m := by
  rcases List.mem_append.mp he with he | he
  · obtain ⟨n, hn, he⟩ := List.mem_flatMap.mp he
    split at he
    · obtain ⟨m, hm, hmn, rfl⟩ := classify_writes n e he
      exact ⟨m, hm.trans ((mem_popOrder root).mp hn), hmn, rfl⟩
    · exact absurd he List.not_mem_nil
  · obtain ⟨p, hp, he⟩ := List.mem_flatMap.mp he
    obtain ⟨n, hn, rfl⟩ := List.mem_map.mp hp
    unfold scanBranch at he
    split at he
    · split at he
      · exact absurd he List.not_mem_nil
      · rename_i cond hcond
        obtain ⟨m, hm, hmn, rfl⟩ := classify_writes cond e he
        exact ⟨m, (hm.trans (branchCondition_sub hcond)).trans ((mem_popOrder root).mp hn), hmn,
          rfl⟩
    · exact absurd he List.not_mem_nil

/-- **`of_expr` gives the class of the node.** -/
theorem ofExpr_eq {n : Node} {source : SourceId} (hw : root.wellSpanned = true)
    (hsh : root.shaped = true) (hn : n.Sub root) (hnamed : n.info.named = true) :
    (analyseUniformity root bytes).ofExpr (n.span source)
      = (classify (seedDivergentParameters bytes root) bytes n).1 := by
  refine lookupUniformity_eq (List.mem_append_left _ (List.mem_flatMap.mpr
    ⟨n, (mem_popOrder root).mpr hn, ?_⟩)) fun v hv => ?_
  · rw [if_pos hnamed]
    exact ownWrite_mem hnamed
  · obtain ⟨m, hm, hmn, heq⟩ := exprUniformity_mem hv
    obtain ⟨hspan, hclass⟩ := Prod.mk.inj heq
    obtain ⟨hlo, hhi⟩ := ByteSpan.mk.inj hspan
    rw [hclass]
    exact class_of_span hw hsh hm hn hmn hnamed hlo.symm hhi.symm

/-- A node with required parts is alone on its span among such nodes. -/
theorem eq_of_span {a b : Node} (hw : root.wellSpanned = true) (hsh : root.shaped = true)
    (ha : a.Sub root) (hb : b.Sub root) (hap : requiredParts a.kind ≠ none)
    (hbp : requiredParts b.kind ≠ none) (hlo : a.info.lo = b.info.lo)
    (hhi : a.info.hi = b.info.hi) : a = b := by
  have han := Node.named_of_parts (ha.shaped hsh) hap
  have hbn := Node.named_of_parts (hb.shaped hsh) hbp
  have hself : ∀ {m n : Node}, m.Sub n → n.Sub root → m.info.named = true → n.info.named = true →
      requiredParts n.kind ≠ none → m.info.lo = n.info.lo → m.info.hi = n.info.hi → m = n := by
    intro m n hmn hn hm hnn hp hlo hhi
    cases hmn with
    | refl => rfl
    | @child i cs c hmem hsub =>
        have hnw := (hn.inside hw).1
        obtain ⟨hc, hclo, hchi⟩ := hsub.fills_child hnw (hn.shaped hsh) hmem hm hlo hhi
        exact absurd (fills hnw (hn.shaped hsh) hnn hmem hc hclo hchi).2.2 hp
  have hne := Node.lo_lt_hi (ha.shaped hsh) han
  rcases Node.nested_or_apart ha hb hw with h | h | h | h
  · exact hself h hb han hbn hbp hlo hhi
  · exact (hself h ha hbn han hap hlo.symm hhi.symm).symm
  · omega
  · omega

/-- Branch statements. -/
def isBranch (n : Node) : Bool := decide (n.kind = .ifStatement || n.kind = .switchStatement)

theorem requiredParts_branch {n : Node} (h : isBranch n = true) : requiredParts n.kind ≠ none := by
  unfold isBranch at h
  rw [decide_eq_true_eq, Bool.or_eq_true, decide_eq_true_eq, decide_eq_true_eq] at h
  rcases h with h | h <;> rw [h] <;> exact nofun

/-- **`of_branch` gives the class of the condition.** -/
theorem ofBranch_eq {n cond : Node} {source : SourceId} (hw : root.wellSpanned = true)
    (hsh : root.shaped = true) (hn : n.Sub root) (hbranch : isBranch n = true)
    (hcond : branchCondition n = some cond) :
    (analyseUniformity root bytes).ofBranch (n.span source)
      = (classify (seedDivergentParameters bytes root) bytes cond).1 := by
  have hown : (scanBranch (seedDivergentParameters bytes root) bytes n).2
      = [(⟨n.info.lo, n.info.hi⟩,
          (classify (seedDivergentParameters bytes root) bytes cond).1)] := by
    unfold scanBranch
    rw [if_pos (of_decide_eq_true hbranch), hcond]
  refine lookupUniformity_eq (List.mem_flatMap.mpr ⟨_, List.mem_map.mpr
    ⟨n, (mem_popOrder root).mpr hn, rfl⟩, ?_⟩) fun v hv => ?_
  · rw [hown]
    exact List.mem_singleton_self _
  · obtain ⟨p, hp, he⟩ := List.mem_flatMap.mp hv
    obtain ⟨m, hm, rfl⟩ := List.mem_map.mp hp
    have hmsub := (mem_popOrder root).mp hm
    have hmb : isBranch m = true := by
      unfold scanBranch at he
      split at he
      · exact decide_eq_true ‹_›
      · exact absurd he List.not_mem_nil
    have hspan : (⟨n.info.lo, n.info.hi⟩ : ByteSpan) = ⟨m.info.lo, m.info.hi⟩ := by
      unfold scanBranch at he
      rw [if_pos (of_decide_eq_true hmb)] at he
      split at he
      · exact (Prod.mk.inj (List.mem_singleton.mp he)).1
      · exact (Prod.mk.inj (List.mem_singleton.mp he)).1
    obtain ⟨hlo, hhi⟩ := ByteSpan.mk.inj hspan
    have hmn := eq_of_span hw hsh hmsub hn (requiredParts_branch hmb)
      (requiredParts_branch hbranch) hlo.symm hhi.symm
    rw [hmn, hown] at he
    exact (Prod.mk.inj (List.mem_singleton.mp he)).2

end Oracle

end ShaderClippy.ControlFlow
