/-
  ShaderClippy.Syntax.Spans

  **THE SPANS OF A PARSER'S TREE NEST.**

  `Node.wellSpanned`: every node lies inside its parent and after its elder
  siblings. So a node of a subtree lies inside the subtree's root, and the
  functions of a source do not overlap.
-/
import ShaderClippy.Syntax.Stmt

namespace ShaderClippy

mutual
/-- Children lie inside their parent, one after another. -/
def Node.wellSpanned : Node → Bool
  | .mk i cs => decide (i.lo ≤ i.hi) && orderedIn i.lo i.hi cs

def orderedIn (lo hi : Nat) : List Node → Bool
  | [] => true
  | n :: ns => decide (lo ≤ n.info.lo) && decide (n.info.hi ≤ hi) && n.wellSpanned
      && orderedIn n.info.hi hi ns
end

/-- `m` is a node of the tree `n`. -/
inductive Node.Sub (m : Node) : Node → Prop where
  | refl : Node.Sub m m
  | child {i : NodeInfo} {cs : List Node} {c : Node} : c ∈ cs → Node.Sub m c →
      Node.Sub m (.mk i cs)

/-- `m` lies inside `n`. -/
def Node.Inside (m n : Node) : Prop := n.info.lo ≤ m.info.lo ∧ m.info.hi ≤ n.info.hi

theorem Node.Inside.refl (n : Node) : n.Inside n := ⟨Nat.le_refl _, Nat.le_refl _⟩

theorem Node.Inside.trans {l m n : Node} (h : l.Inside m) (h' : m.Inside n) : l.Inside n :=
  ⟨Nat.le_trans h'.1 h.1, Nat.le_trans h.2 h'.2⟩

/-- A node ends behind its beginning. -/
theorem Node.lo_le_hi {n : Node} (h : n.wellSpanned = true) : n.info.lo ≤ n.info.hi := by
  cases n with
  | mk i cs =>
      simp only [Node.wellSpanned, Bool.and_eq_true, decide_eq_true_eq] at h
      exact h.1

theorem orderedIn_cons {lo hi : Nat} {n : Node} {ns : List Node} :
    orderedIn lo hi (n :: ns) = true ↔ lo ≤ n.info.lo ∧ n.info.hi ≤ hi ∧ n.wellSpanned = true
      ∧ orderedIn n.info.hi hi ns = true := by
  simp only [orderedIn, Bool.and_eq_true, decide_eq_true_eq, and_assoc]

/-- Every child of an ordered list lies within its bounds. -/
theorem orderedIn_mem {hi : Nat} {c : Node} : ∀ {ns : List Node} {lo : Nat},
    orderedIn lo hi ns = true → c ∈ ns →
      c.wellSpanned = true ∧ lo ≤ c.info.lo ∧ c.info.hi ≤ hi := by
  intro ns
  induction ns with
  | nil => intro lo _ hc; exact absurd hc List.not_mem_nil
  | cons n ns ih =>
      intro lo h hc
      obtain ⟨h1, h2, h3, h4⟩ := orderedIn_cons.mp h
      cases hc with
      | head => exact ⟨h3, h1, h2⟩
      | tail _ hc =>
          obtain ⟨h5, h6, h7⟩ := ih h4 hc
          have := Node.lo_le_hi h3
          exact ⟨h5, by omega, h7⟩

/-- A child is well spanned and inside its parent. -/
theorem Node.wellSpanned_child {i : NodeInfo} {cs : List Node} {c : Node}
    (h : (Node.mk i cs).wellSpanned = true) (hc : c ∈ cs) :
    c.wellSpanned = true ∧ c.Inside (.mk i cs) := by
  simp only [Node.wellSpanned, Bool.and_eq_true, decide_eq_true_eq] at h
  obtain ⟨h1, h2, h3⟩ := orderedIn_mem h.2 hc
  exact ⟨h1, h2, h3⟩

/-- A node with a text has bytes. -/
theorem Node.lo_lt_hi_of_text {n : Node} {bytes : Text} (h : n.text bytes ≠ []) :
    n.info.lo < n.info.hi := by
  unfold Node.text textAt at h
  refine Nat.lt_of_not_le fun hle => h ?_
  split
  · rfl
  · rw [Nat.sub_eq_zero_of_le (by omega), List.take_zero]

/-- So has a node with a child that has a text. -/
theorem Node.lo_lt_hi_of_child {n c : Node} {bytes : Text} (hw : n.wellSpanned = true)
    (hc : c ∈ n.children) (h : c.text bytes ≠ []) : n.info.lo < n.info.hi := by
  cases n with
  | mk i cs =>
      have hlt := Node.lo_lt_hi_of_text h
      have ⟨hlo, hhi⟩ := (Node.wellSpanned_child hw hc).2
      show i.lo < i.hi
      have hlo' : i.lo ≤ c.info.lo := hlo
      have hhi' : c.info.hi ≤ i.hi := hhi
      omega

/-- **Subtrees nest.** -/
theorem Node.Sub.inside {m n : Node} (hsub : m.Sub n) (h : n.wellSpanned = true) :
    m.wellSpanned = true ∧ m.Inside n := by
  induction hsub with
  | refl => exact ⟨h, Node.Inside.refl m⟩
  | child hc _ ih =>
      obtain ⟨hw, hin⟩ := Node.wellSpanned_child h hc
      obtain ⟨hm, hmc⟩ := ih hw
      exact ⟨hm, hmc.trans hin⟩

/-- A part of a part is a part. -/
theorem Node.Sub.trans {l m n : Node} (h : l.Sub m) (h' : m.Sub n) : l.Sub n := by
  induction h' with
  | refl => exact h
  | child hc _ ih => exact .child hc ih

/-- Two children of one parent are one after the other. -/
theorem orderedIn_two {hi : Nat} {c d : Node} : ∀ {ns : List Node} {lo : Nat},
    orderedIn lo hi ns = true → c ∈ ns → d ∈ ns →
      c = d ∨ c.info.hi ≤ d.info.lo ∨ d.info.hi ≤ c.info.lo := by
  intro ns
  induction ns with
  | nil => intro lo _ hc; exact absurd hc List.not_mem_nil
  | cons n ns ih =>
      intro lo h hc hd
      obtain ⟨_, _, _, hrest⟩ := orderedIn_cons.mp h
      cases hc with
      | head =>
          cases hd with
          | head => exact Or.inl rfl
          | tail _ hd => exact Or.inr (Or.inl (orderedIn_mem hrest hd).2.1)
      | tail _ hc =>
          cases hd with
          | head => exact Or.inr (Or.inr (orderedIn_mem hrest hc).2.1)
          | tail _ hd => exact ih hrest hc hd

/-- **Two nodes of a tree are nested or apart.** -/
theorem Node.nested_or_apart {l m n : Node} (hl : l.Sub n) (hm : m.Sub n)
    (h : n.wellSpanned = true) :
    l.Sub m ∨ m.Sub l ∨ l.info.hi ≤ m.info.lo ∨ m.info.hi ≤ l.info.lo := by
  induction hl with
  | refl => exact Or.inr (Or.inl hm)
  | @child i cs c hc hlc ih =>
      cases hm with
      | refl => exact Or.inl (.child hc hlc)
      | @child _ _ d hd hmd =>
          have hord : orderedIn i.lo i.hi cs = true := by
            simp only [Node.wellSpanned, Bool.and_eq_true] at h
            exact h.2
          have hin := (hlc.inside (Node.wellSpanned_child h hc).1).2
          have hin' := (hmd.inside (Node.wellSpanned_child h hd).1).2
          unfold Node.Inside at hin hin'
          -- in one child, or in two that stand apart
          rcases orderedIn_two hord hc hd with rfl | hcd | hcd
          · exact ih hmd (Node.wellSpanned_child h hc).1
          · exact Or.inr (Or.inr (Or.inl (by omega)))
          · exact Or.inr (Or.inr (Or.inr (by omega)))

mutual
/-- The walk pops every node of the tree. -/
theorem mem_popOrder : ∀ {m : Node} (n : Node), m ∈ n.popOrder ↔ m.Sub n
  | m, .mk i cs => by
      unfold Node.popOrder
      rw [List.mem_cons, mem_popOrderAll cs]
      constructor
      · rintro (rfl | ⟨c, hc, hsub⟩)
        · exact .refl
        · exact .child hc hsub
      · intro h
        cases h with
        | refl => exact Or.inl rfl
        | child hc hsub => exact Or.inr ⟨_, hc, hsub⟩

/-- The stack order visits every node of a list of trees, and no other. -/
theorem mem_popOrderAll : ∀ {m : Node} (ns : List Node),
    m ∈ popOrderAll ns ↔ ∃ c ∈ ns, m.Sub c
  | m, [] => by
      unfold popOrderAll
      exact ⟨fun h => absurd h List.not_mem_nil, fun ⟨_, h, _⟩ => absurd h List.not_mem_nil⟩
  | m, n :: ns => by
      unfold popOrderAll
      rw [List.mem_append, mem_popOrderAll ns, mem_popOrder n]
      constructor
      · rintro (⟨c, hc, hsub⟩ | hsub)
        · exact ⟨c, List.mem_cons_of_mem _ hc, hsub⟩
        · exact ⟨n, List.mem_cons_self .., hsub⟩
      · rintro ⟨c, hc, hsub⟩
        cases hc with
        | head => exact Or.inr hsub
        | tail _ hc => exact Or.inl ⟨c, hc, hsub⟩
end

/-! ## §1. The functions of a source. -/

mutual
/-- A function that is collected is a node of the tree. -/
theorem collectFunctions_sub : ∀ (n : Node), ∀ f ∈ collectFunctions n, f.Sub n
  | .mk i cs, f, hf => by
      unfold collectFunctions at hf
      split at hf
      · rw [List.mem_singleton.mp hf]
        exact .refl
      · obtain ⟨c, hc, hsub⟩ := collectFunctionsAll_sub cs f hf
        exact .child hc hsub

theorem collectFunctionsAll_sub : ∀ (ns : List Node), ∀ f ∈ collectFunctionsAll ns,
    ∃ c ∈ ns, f.Sub c
  | [], f, hf => absurd hf List.not_mem_nil
  | n :: ns, f, hf => by
      unfold collectFunctionsAll at hf
      rcases List.mem_append.mp hf with hf | hf
      · exact ⟨n, List.mem_cons_self .., collectFunctions_sub n f hf⟩
      · obtain ⟨c, hc, hsub⟩ := collectFunctionsAll_sub ns f hf
        exact ⟨c, List.mem_cons_of_mem _ hc, hsub⟩
end

mutual
/-- **Functions do not overlap.** -/
theorem collectFunctions_pairwise : ∀ (n : Node), n.wellSpanned = true →
    (collectFunctions n).Pairwise fun f g => f.info.hi ≤ g.info.lo
  | .mk i cs, h => by
      unfold collectFunctions
      split
      · exact List.pairwise_singleton ..
      · simp only [Node.wellSpanned, Bool.and_eq_true] at h
        exact collectFunctionsAll_pairwise i.lo i.hi cs h.2

/-- The functions of a list of trees stand one behind another. -/
theorem collectFunctionsAll_pairwise (lo hi : Nat) : ∀ (ns : List Node),
    orderedIn lo hi ns = true →
      (collectFunctionsAll ns).Pairwise fun f g => f.info.hi ≤ g.info.lo
  | [], _ => List.Pairwise.nil
  | n :: ns, h => by
      obtain ⟨-, -, hw, hrest⟩ := orderedIn_cons.mp h
      unfold collectFunctionsAll
      refine List.pairwise_append.mpr ⟨collectFunctions_pairwise n hw,
        collectFunctionsAll_pairwise n.info.hi hi ns hrest, fun f hf g hg => ?_⟩
      obtain ⟨-, hfin⟩ := (collectFunctions_sub n f hf).inside hw
      obtain ⟨c, hc, hsub⟩ := collectFunctionsAll_sub ns g hg
      obtain ⟨hcw, hclo, -⟩ := orderedIn_mem hrest hc
      obtain ⟨-, hgin⟩ := hsub.inside hcw
      exact Nat.le_trans hfin.2 (Nat.le_trans hclo hgin.1)
end

/-- The function around a span is unique. -/
theorem collectFunctions_unique {root f g : Node} {i j lo hi : Nat}
    (hw : root.wellSpanned = true) (hf : (collectFunctions root)[i]? = some f)
    (hg : (collectFunctions root)[j]? = some g) (hne : lo < hi)
    (hinf : f.info.lo ≤ lo ∧ hi ≤ f.info.hi) (hing : g.info.lo ≤ lo ∧ hi ≤ g.info.hi) :
    i = j := by
  obtain ⟨hi', rfl⟩ := List.getElem?_eq_some_iff.mp hf
  obtain ⟨hj', rfl⟩ := List.getElem?_eq_some_iff.mp hg
  have hpair := List.pairwise_iff_getElem.mp (collectFunctions_pairwise root hw)
  rcases Nat.lt_trichotomy i j with hlt | heq | hlt
  · have := hpair i j hi' hj' hlt
    omega
  · exact heq
  · have := hpair j i hj' hi' hlt
    omega

/-! ## §2. The simple statements of a body. -/

mutual
/-- The simple statements of a statement. -/
def Stmt.simples : Stmt → List PlainNode
  | .simple n => [n]
  | .returnStmt .. | .breakStmt _ | .continueStmt _ => []
  | .compound _ body => body.simples
  | .ifThen _ _ thenStmt => thenStmt.simples
  | .ifElse _ _ thenStmt _ elseStmt => thenStmt.simples ++ elseStmt.simples
  | .forLoop _ _ _ _ body | .whileLoop _ _ body | .doLoop _ body _ => body.simples
  | .switch _ _ _ body | .caseStmt _ _ body => body.simples

def Stmts.simples : Stmts → List PlainNode
  | .nil => []
  | .cons s ss => s.simples ++ ss.simples
end

mutual
/-- A plain statement of a statement is a node of its tree. -/
theorem Stmt.simples_sub (s : Stmt) (f : Option Field) :
    ∀ n ∈ s.simples, ∃ g, (n.toNode g).Sub (s.toNode f) := by
  intro n hn
  cases s with
  | simple m =>
      rw [List.mem_singleton.mp hn]
      exact ⟨f, .refl⟩
  | returnStmt _ _ | breakStmt _ | continueStmt _ => exact absurd hn List.not_mem_nil
  | compound span body =>
      obtain ⟨g, c, hc, hsub⟩ := body.simples_sub n hn
      exact ⟨g, .child hc hsub⟩
  | ifThen span cond thenStmt =>
      obtain ⟨g, hsub⟩ := thenStmt.simples_sub (some .consequence) n hn
      exact ⟨g, .child (List.mem_cons_of_mem _ (List.mem_cons_self ..)) hsub⟩
  | ifElse span cond thenStmt elseSpan elseStmt =>
      rcases List.mem_append.mp hn with hn | hn
      · obtain ⟨g, hsub⟩ := thenStmt.simples_sub (some .consequence) n hn
        exact ⟨g, .child (List.mem_cons_of_mem _ (List.mem_cons_self ..)) hsub⟩
      · obtain ⟨g, hsub⟩ := elseStmt.simples_sub none n hn
        exact ⟨g, .child
          (List.mem_cons_of_mem _ (List.mem_cons_of_mem _ (List.mem_singleton_self _)))
          (.child (List.mem_singleton_self _) hsub)⟩
  | forLoop span init cond update body =>
      obtain ⟨g, hsub⟩ := body.simples_sub (some .body) n hn
      exact ⟨g, .child (List.mem_append_right _ (List.mem_singleton_self _)) hsub⟩
  | whileLoop span cond body =>
      obtain ⟨g, hsub⟩ := body.simples_sub (some .body) n hn
      exact ⟨g, .child (List.mem_cons_of_mem _ (List.mem_cons_self ..)) hsub⟩
  | doLoop span body cond =>
      obtain ⟨g, hsub⟩ := body.simples_sub (some .body) n hn
      exact ⟨g, .child (List.mem_cons_self ..) hsub⟩
  | switch span cond bodySpan body =>
      obtain ⟨g, c, hc, hsub⟩ := body.simples_sub n hn
      exact ⟨g, .child (List.mem_cons_of_mem _ (List.mem_cons_self ..)) (.child hc hsub)⟩
  | caseStmt span label body =>
      obtain ⟨g, c, hc, hsub⟩ := body.simples_sub n hn
      exact ⟨g, .child (List.mem_append_right _ hc) hsub⟩

theorem Stmts.simples_sub (ss : Stmts) :
    ∀ n ∈ ss.simples, ∃ g, ∃ c ∈ ss.toNodes, (n.toNode g).Sub c := by
  intro n hn
  cases ss with
  | nil => exact absurd hn List.not_mem_nil
  | cons s ss =>
      rcases List.mem_append.mp hn with hn | hn
      · obtain ⟨g, hsub⟩ := s.simples_sub none n hn
        exact ⟨g, _, List.mem_cons_self .., hsub⟩
      · obtain ⟨g, c, hc, hsub⟩ := ss.simples_sub n hn
        exact ⟨g, c, List.mem_cons_of_mem _ hc, hsub⟩
end

/-! ## §3. Where statements begin and end. -/

/-- The first byte of a statement. -/
def Stmt.start (s : Stmt) : Nat := (s.toNode none).info.lo

/-- The byte after a statement. -/
def Stmt.stop (s : Stmt) : Nat := (s.toNode none).info.hi

theorem Node.withField_spans (n : Node) (f : Option Field) :
    (n.withField f).info.lo = n.info.lo ∧ (n.withField f).info.hi = n.info.hi
      ∧ (n.withField f).wellSpanned = n.wellSpanned := by
  cases n
  exact ⟨rfl, rfl, rfl⟩

@[simp] theorem Stmt.toNode_lo (s : Stmt) (f : Option Field) :
    (s.toNode f).info.lo = s.start := by
  rw [← s.toNode_withField f, (Node.withField_spans _ f).1]
  rfl

@[simp] theorem Stmt.toNode_hi (s : Stmt) (f : Option Field) :
    (s.toNode f).info.hi = s.stop := by
  rw [← s.toNode_withField f, (Node.withField_spans _ f).2.1]
  rfl

/-- A simple statement lies inside the statement it is part of. -/
theorem Stmt.simples_inside {s : Stmt} {f : Option Field} (hw : (s.toNode f).wellSpanned = true)
    {m : PlainNode} (hm : m ∈ s.simples) :
    s.start ≤ m.node.info.lo ∧ m.node.info.hi ≤ s.stop := by
  obtain ⟨g, hsub⟩ := s.simples_sub f m hm
  obtain ⟨hlo, hhi⟩ := (hsub.inside hw).2
  obtain ⟨hmlo, hmhi, -⟩ := Node.withField_spans m.node g
  rw [Stmt.toNode_lo, show (m.toNode g).info.lo = _ from hmlo] at hlo
  rw [Stmt.toNode_hi, show (m.toNode g).info.hi = _ from hmhi] at hhi
  exact ⟨hlo, hhi⟩

/-- The plain statements of a list lie within its bounds. -/
theorem Stmts.simples_inside {lo hi : Nat} {m : PlainNode} : ∀ {ss : Stmts},
    orderedIn lo hi ss.toNodes = true → m ∈ ss.simples →
      lo ≤ m.node.info.lo ∧ m.node.info.hi ≤ hi := by
  intro ss h hm
  obtain ⟨g, c, hc, hsub⟩ := ss.simples_sub m hm
  obtain ⟨hcw, hclo, hchi⟩ := orderedIn_mem h hc
  obtain ⟨hlo, hhi⟩ := (hsub.inside hcw).2
  obtain ⟨hmlo, hmhi, -⟩ := Node.withField_spans m.node g
  rw [show (m.toNode g).info.lo = _ from hmlo] at hlo
  rw [show (m.toNode g).info.hi = _ from hmhi] at hhi
  exact ⟨Nat.le_trans hclo hlo, Nat.le_trans hhi hchi⟩

/-- A statement directly inside another one. -/
theorem Stmt.child_inside {s t : Stmt} {f g : Option Field}
    (hw : (s.toNode f).wellSpanned = true) (ht : t.toNode g ∈ (s.toNode f).children) :
    (t.toNode g).wellSpanned = true ∧ s.start ≤ t.start ∧ t.stop ≤ s.stop := by
  have hchild : ∀ {n c : Node}, n.wellSpanned = true → c ∈ n.children →
      c.wellSpanned = true ∧ c.Inside n := by
    intro n c hn hc
    cases n with
    | mk i cs => exact Node.wellSpanned_child hn hc
  obtain ⟨htw, hlo, hhi⟩ := hchild hw ht
  rw [Stmt.toNode_lo, Stmt.toNode_lo] at hlo
  rw [Stmt.toNode_hi, Stmt.toNode_hi] at hhi
  exact ⟨htw, hlo, hhi⟩

/-- The else clause comes after the then arm. -/
theorem Stmt.elseClause_after {span elseSpan : ByteSpan} {cond : PlainNode}
    {thenStmt elseStmt : Stmt} {f : Option Field}
    (hw : ((Stmt.ifElse span cond thenStmt elseSpan elseStmt).toNode f).wellSpanned = true) :
    thenStmt.stop ≤ elseSpan.lo := by
  simp only [Stmt.toNode, namedNode, Node.wellSpanned, Bool.and_eq_true] at hw
  obtain ⟨-, -, -, hrest⟩ := orderedIn_cons.mp hw.2
  obtain ⟨-, -, -, hrest⟩ := orderedIn_cons.mp hrest
  obtain ⟨hlo, -⟩ := orderedIn_cons.mp hrest
  rw [Stmt.toNode_hi] at hlo
  exact hlo

mutual
/-- **Simple statements do not overlap.** -/
theorem Stmt.simples_pairwise (s : Stmt) {f : Option Field}
    (hw : (s.toNode f).wellSpanned = true) :
    s.simples.Pairwise fun a b => a.node.info.hi ≤ b.node.info.lo := by
  cases s with
  | simple m => exact List.pairwise_singleton ..
  | returnStmt _ _ | breakStmt _ | continueStmt _ => exact List.Pairwise.nil
  | compound span body =>
      simp only [Stmt.toNode, namedNode, Node.wellSpanned, Bool.and_eq_true] at hw
      exact body.simples_pairwise hw.2
  | ifThen span cond thenStmt =>
      exact thenStmt.simples_pairwise (f := some .consequence)
        (Node.wellSpanned_child hw (by simp)).1
  | ifElse span cond thenStmt elseSpan elseStmt =>
      have ht := (Node.wellSpanned_child (c := thenStmt.toNode (some .consequence)) hw (by simp)).1
      have he := (Node.wellSpanned_child
        (c := namedNode .elseClause (some .alternative) elseSpan [elseStmt.toNode none]) hw
        (by simp)).1
      obtain ⟨hew, helo, -⟩ := Node.wellSpanned_child he (List.mem_singleton_self _)
      refine List.pairwise_append.mpr ⟨thenStmt.simples_pairwise ht, elseStmt.simples_pairwise hew,
        fun a ha b hb => ?_⟩
      -- the else clause stands behind the then part
      have horder := Stmt.elseClause_after hw
      have hain := Stmt.simples_inside ht ha
      have hbin := Stmt.simples_inside hew hb
      rw [Stmt.toNode_lo] at helo
      exact Nat.le_trans hain.2 (Nat.le_trans horder (Nat.le_trans helo hbin.1))
  | forLoop span init cond update body =>
      exact body.simples_pairwise (f := some .body) (Node.wellSpanned_child hw (by simp)).1
  | whileLoop span cond body =>
      exact body.simples_pairwise (f := some .body) (Node.wellSpanned_child hw (by simp)).1
  | doLoop span body cond =>
      exact body.simples_pairwise (f := some .body) (Node.wellSpanned_child hw (by simp)).1
  | switch span cond bodySpan body =>
      have hb := (Node.wellSpanned_child
        (c := namedNode .compoundStatement (some .body) bodySpan body.toNodes) hw (by simp)).1
      simp only [namedNode, Node.wellSpanned, Bool.and_eq_true] at hb
      exact body.simples_pairwise hb.2
  | caseStmt span label body =>
      simp only [Stmt.toNode, namedNode, Node.wellSpanned, Bool.and_eq_true] at hw
      cases label with
      | none => exact body.simples_pairwise hw.2
      | some l => exact body.simples_pairwise (orderedIn_cons.mp hw.2).2.2.2

theorem Stmts.simples_pairwise (ss : Stmts) {lo hi : Nat}
    (hw : orderedIn lo hi ss.toNodes = true) :
    ss.simples.Pairwise fun a b => a.node.info.hi ≤ b.node.info.lo := by
  cases ss with
  | nil => exact List.Pairwise.nil
  | cons s ss =>
      obtain ⟨-, -, hs, hrest⟩ := orderedIn_cons.mp hw
      refine List.pairwise_append.mpr ⟨s.simples_pairwise hs, ss.simples_pairwise hrest,
        fun a ha b hb => ?_⟩
      have hain := Stmt.simples_inside hs ha
      have hbin := Stmts.simples_inside hrest hb
      rw [Stmt.toNode_hi] at hbin
      exact Nat.le_trans hain.2 hbin.1
end

/-- A simple statement is known by its span. -/
theorem Stmt.simples_unique {s : Stmt} {f : Option Field} (hw : (s.toNode f).wellSpanned = true)
    {a b : PlainNode} (ha : a ∈ s.simples) (hb : b ∈ s.simples)
    (hne : a.node.info.lo < a.node.info.hi) (hlo : a.node.info.lo = b.node.info.lo)
    (hhi : a.node.info.hi = b.node.info.hi) : a = b := by
  obtain ⟨i, hi, rfl⟩ := List.getElem_of_mem ha
  obtain ⟨j, hj, rfl⟩ := List.getElem_of_mem hb
  have hpair := List.pairwise_iff_getElem.mp (s.simples_pairwise hw)
  rcases Nat.lt_trichotomy i j with hlt | heq | hlt
  · have := hpair i j hi hj hlt
    omega
  · subst heq
    rfl
  · have := hpair j i hj hi hlt
    omega

mutual
/-- The keyword or brace of a statement comes before the statements in it. -/
def Stmt.spaced : Stmt → Bool
  | .simple _ | .returnStmt .. | .breakStmt _ | .continueStmt _ => true
  | .compound span body => body.spacedFrom span.lo
  | .ifThen span _ thenStmt => decide (span.lo < thenStmt.start) && thenStmt.spaced
  | .ifElse span _ thenStmt elseSpan elseStmt =>
      decide (span.lo < thenStmt.start) && thenStmt.spaced
        && decide (elseSpan.lo < elseStmt.start) && elseStmt.spaced
  | .forLoop span _ _ _ body | .whileLoop span _ body | .doLoop span body _ =>
      decide (span.lo < body.start) && body.spaced
  | .switch _ _ bodySpan body => body.spacedFrom bodySpan.lo
  | .caseStmt span _ body => body.spacedFrom span.lo

def Stmts.spacedFrom (lo : Nat) : Stmts → Bool
  | .nil => true
  | .cons s ss => decide (lo < s.start) && s.spaced && ss.spacedFrom lo
end

end ShaderClippy
