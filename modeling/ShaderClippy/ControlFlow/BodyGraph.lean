/-
  ShaderClippy.ControlFlow.BodyGraph

  **THE GRAPH OF A BODY, STATEMENT BY STATEMENT.**

  A statement OWNS the blocks it creates: in the graph of the whole body, all
  edges into them are its own (`Owns`). So what holds of a block, being
  reachable or being dominated, follows from its predecessors inside the
  statement, and from the cursor the statement was walked with.
-/
import ShaderClippy.ControlFlow.Layout
import ShaderClippy.Lib.Dominance

namespace ShaderClippy.ControlFlow

open Graph

/-! ## §1. Where edges run. -/

/-- The cursor, or one of `k` new blocks from `n` on. -/
def InPart (n cur k b : Nat) : Prop := b = cur ∨ n ≤ b ∧ b < n + k

/-- Walked from block `c` just before `m`, a part stays from `c` on. -/
theorem InPart.bounds {c m k b : Nat} (h : InPart m c k b) (hc : c < m) :
    c ≤ b ∧ b < m + k := by
  unfold InPart at h
  omega

mutual
theorem endBlock_inPart (n cur : Nat) (s : Stmt) : InPart n cur (size s) (endBlock n cur s) := by
  cases s with
  | simple _ | breakStmt _ | continueStmt _ | caseStmt _ _ _ => exact Or.inl rfl
  | compound span body => exact endBlockAll_inPart n cur body
  | _ =>
      simp only [InPart, endBlock, size]
      omega

theorem endBlockAll_inPart (n cur : Nat) (ss : Stmts) :
    InPart n cur (sizeAll ss) (endBlockAll n cur ss) := by
  cases ss with
  | nil => exact Or.inl rfl
  | cons s ss =>
      have hs := endBlock_inPart n cur s
      have hss := endBlockAll_inPart (n + size s) (endBlock n cur s) ss
      unfold endBlockAll sizeAll
      unfold InPart at hs hss ⊢
      omega
end

/-- The edges of a `for` or `while`, from those of its body. -/
theorem loopEdges_range {n cur u v : Nat} {body : Stmt}
    (hinner : (u, v) ∈ edges (n + 2) (n + 1) body →
      InPart (n + 2) (n + 1) (size body) u ∧ n + 2 ≤ v ∧ v < n + 2 + size body)
    (h : (u, v) ∈ [(cur, n), (n, n + 1)] ++ edges (n + 2) (n + 1) body
      ++ [(endBlock (n + 2) (n + 1) body, n), (n, n + 2 + size body)]) :
    InPart n cur (size body + 3) u ∧ n ≤ v ∧ v < n + (size body + 3) := by
  have hend := (endBlock_inPart (n + 2) (n + 1) body).bounds (Nat.lt_succ_self _)
  simp only [List.cons_append, List.nil_append, List.mem_cons, List.mem_append,
    Prod.mk.injEq, List.not_mem_nil, or_false] at h
  rcases h with ⟨hu, hv⟩ | ⟨hu, hv⟩ | h | ⟨hu, hv⟩ | ⟨hu, hv⟩
  · exact ⟨Or.inl hu, by omega, by omega⟩
  · exact ⟨Or.inr (by omega), by omega, by omega⟩
  · obtain ⟨hu, hv⟩ := hinner h
    have hu := hu.bounds (Nat.lt_succ_self _)
    exact ⟨Or.inr (by omega), by omega, by omega⟩
  · exact ⟨Or.inr (by omega), by omega, by omega⟩
  · exact ⟨Or.inr (by omega), by omega, by omega⟩

mutual
/-- An edge of a statement leaves the cursor or a new block, and enters a new
block. -/
theorem edges_range {n cur u v : Nat} (s : Stmt) (h : (u, v) ∈ edges n cur s) :
    InPart n cur (size s) u ∧ n ≤ v ∧ v < n + size s := by
  cases s with
  | simple _ | returnStmt _ _ | breakStmt _ | continueStmt _ | caseStmt _ _ _ | switch _ _ _ _ =>
      exact absurd h List.not_mem_nil
  | compound span body => exact edgesAll_range body h
  | ifThen span cond thenStmt =>
      have hend := (endBlock_inPart (n + 1) n thenStmt).bounds (Nat.lt_succ_self n)
      have hinner := @edges_range (n + 1) n u v thenStmt
      simp only [edges, List.cons_append, List.mem_cons, List.mem_append, Prod.mk.injEq,
        List.not_mem_nil, or_false] at h
      show InPart n cur (size thenStmt + 2) u ∧ n ≤ v ∧ v < n + (size thenStmt + 2)
      rcases h with ⟨hu, hv⟩ | h | ⟨hu, hv⟩ | ⟨hu, hv⟩
      · exact ⟨Or.inl hu, by omega, by omega⟩
      · obtain ⟨hu, hv⟩ := hinner h
        have hu := hu.bounds (Nat.lt_succ_self n)
        exact ⟨Or.inr (by omega), by omega, by omega⟩
      · exact ⟨Or.inr (by omega), by omega, by omega⟩
      · exact ⟨Or.inl hu, by omega, by omega⟩
  | ifElse span cond thenStmt elseSpan elseStmt =>
      have hend := (endBlock_inPart (n + 1) n thenStmt).bounds (Nat.lt_succ_self n)
      have hinner := @edges_range (n + 1) n u v thenStmt
      simp only [edges, List.cons_append, List.mem_cons, List.mem_append, Prod.mk.injEq,
        List.not_mem_nil, or_false] at h
      show InPart n cur (size thenStmt + 3) u ∧ n ≤ v ∧ v < n + (size thenStmt + 3)
      rcases h with ⟨hu, hv⟩ | h | ⟨hu, hv⟩ | ⟨hu, hv⟩ | ⟨hu, hv⟩
      · exact ⟨Or.inl hu, by omega, by omega⟩
      · obtain ⟨hu, hv⟩ := hinner h
        have hu := hu.bounds (Nat.lt_succ_self n)
        exact ⟨Or.inr (by omega), by omega, by omega⟩
      · exact ⟨Or.inl hu, by omega, by omega⟩
      · exact ⟨Or.inr (by omega), by omega, by omega⟩
      · exact ⟨Or.inr (by omega), by omega, by omega⟩
  | forLoop span _ _ _ body | whileLoop span _ body =>
      exact loopEdges_range (fun he => edges_range body he) h
  | doLoop span body cond =>
      have hend := (endBlock_inPart (n + 1) n body).bounds (Nat.lt_succ_self n)
      have hinner := @edges_range (n + 1) n u v body
      simp only [edges, List.cons_append, List.mem_cons, List.mem_append, Prod.mk.injEq,
        List.not_mem_nil, or_false] at h
      show InPart n cur (size body + 3) u ∧ n ≤ v ∧ v < n + (size body + 3)
      rcases h with ⟨hu, hv⟩ | h | ⟨hu, hv⟩ | ⟨hu, hv⟩ | ⟨hu, hv⟩
      · exact ⟨Or.inl hu, by omega, by omega⟩
      · obtain ⟨hu, hv⟩ := hinner h
        have hu := hu.bounds (Nat.lt_succ_self n)
        exact ⟨Or.inr (by omega), by omega, by omega⟩
      · exact ⟨Or.inr (by omega), by omega, by omega⟩
      · exact ⟨Or.inr (by omega), by omega, by omega⟩
      · exact ⟨Or.inr (by omega), by omega, by omega⟩

theorem edgesAll_range {n cur u v : Nat} (ss : Stmts) (h : (u, v) ∈ edgesAll n cur ss) :
    InPart n cur (sizeAll ss) u ∧ n ≤ v ∧ v < n + sizeAll ss := by
  cases ss with
  | nil => exact absurd h List.not_mem_nil
  | cons s ss =>
      show InPart n cur (size s + sizeAll ss) u ∧ n ≤ v ∧ v < n + (size s + sizeAll ss)
      rcases List.mem_append.mp h with h | h
      · obtain ⟨hu, hv⟩ := edges_range s h
        exact ⟨hu.imp_right fun hu => by omega, by omega, by omega⟩
      · obtain ⟨hu, hv⟩ := edgesAll_range ss h
        have hend := endBlock_inPart n cur s
        unfold InPart at hend hu ⊢
        omega
end

theorem edges_lt {n cur u v : Nat} (s : Stmt) (h : (u, v) ∈ edges n cur s) : v < n + size s :=
  (edges_range s h).2.2

/-! ## §2. Leading through a statement. -/

mutual
/-- Do the edges lead through the statement, from where its walk begins to
where it ends? -/
def leadsThrough : Stmt → Bool
  | .simple _ | .breakStmt _ | .continueStmt _ | .caseStmt .. => true
  | .returnStmt .. | .switch .. => false
  | .compound _ body => leadsThroughAll body
  | .ifThen .. | .ifElse .. | .forLoop .. | .whileLoop .. => true
  | .doLoop _ body _ => leadsThrough body

def leadsThroughAll : Stmts → Bool
  | .nil => true
  | .cons s ss => leadsThrough s && leadsThroughAll ss
end

section Through

variable {E : Nat → Nat → Prop}

mutual
theorem leadsThrough_reach {n cur : Nat} (s : Stmt) (hE : ∀ u v, (u, v) ∈ edges n cur s → E u v)
    (h : leadsThrough s = true) : Reach E cur (endBlock n cur s) := by
  cases s with
  | simple _ | breakStmt _ | continueStmt _ | caseStmt _ _ _ => exact .refl
  | returnStmt _ _ | switch _ _ _ _ => cases h
  | compound span body => exact leadsThroughAll_reach body hE h
  | ifThen span cond thenStmt =>
      have hjoin : E cur (n + 1 + size thenStmt) := hE _ _ (by simp [edges])
      exact .single hjoin
  | ifElse span cond thenStmt elseSpan elseStmt =>
      have helse : E cur (n + 1 + size thenStmt) := hE _ _ (by simp [edges])
      have hjoin : E (n + 1 + size thenStmt) (n + 1 + size thenStmt + 1) := hE _ _ (by simp [edges])
      exact (Relation.ReflTransGen.single helse).tail hjoin
  | forLoop span _ _ _ body | whileLoop span _ body =>
      have hheader : E cur n := hE _ _ (by simp [edges])
      have hexit : E n (n + 2 + size body) := hE _ _ (by simp [edges])
      exact (Relation.ReflTransGen.single hheader).tail hexit
  | doLoop span body cond =>
      have hbody : E cur n := hE _ _ (by simp [edges])
      have hcond : E (endBlock (n + 1) n body) (n + 1 + size body) := hE _ _ (by simp [edges])
      have hexit : E (n + 1 + size body) (n + 1 + size body + 1) := hE _ _ (by simp [edges])
      have hthrough : Reach E n (endBlock (n + 1) n body) :=
        leadsThrough_reach body (fun u v he => hE u v (by simp [edges, he])) h
      exact (((Relation.ReflTransGen.single hbody).trans hthrough).tail hcond).tail hexit

theorem leadsThroughAll_reach {n cur : Nat} (ss : Stmts)
    (hE : ∀ u v, (u, v) ∈ edgesAll n cur ss → E u v) (h : leadsThroughAll ss = true) :
    Reach E cur (endBlockAll n cur ss) := by
  cases ss with
  | nil => exact .refl
  | cons s ss =>
      unfold leadsThroughAll at h
      rw [Bool.and_eq_true] at h
      have hs : Reach E cur (endBlock n cur s) :=
        leadsThrough_reach s (fun u v he => hE u v (by simp [edgesAll, he])) h.1
      have hss : Reach E (endBlock n cur s) (endBlockAll (n + size s) (endBlock n cur s) ss) :=
        leadsThroughAll_reach ss (fun u v he => hE u v (by simp [edgesAll, he])) h.2
      exact hs.trans hss
end

end Through

/-! ## §3. The edges a statement owns. -/

/-- In the graph `E`, the edges into the blocks from `lo` up to `hi` are those
of `es`. -/
def Owns (E : Nat → Nat → Prop) (es : List (Nat × Nat)) (lo hi : Nat) : Prop :=
  ∀ u v, lo ≤ v → v < hi → (E u v ↔ (u, v) ∈ es)

section Parts

variable {E : Nat → Nat → Prop} {n cur : Nat}

/-- The part of the edges that runs into a part of the blocks. -/
theorem Owns.inner {es is fs : List (Nat × Nat)} {lo hi lo' hi' : Nat}
    (h : Owns E (es ++ is ++ fs) lo hi) (hlo : lo ≤ lo') (hhi : hi' ≤ hi)
    (hout : ∀ e ∈ es ++ fs, e.2 < lo' ∨ hi' ≤ e.2) : Owns E is lo' hi' := by
  intro u v hv hv'
  rw [h u v (by omega) (by omega)]
  simp only [List.mem_append] at hout ⊢
  constructor
  · intro hor
    rcases hor with (he | he) | he
    · have : v < lo' ∨ hi' ≤ v := hout _ (Or.inl he)
      omega
    · exact he
    · have : v < lo' ∨ hi' ≤ v := hout _ (Or.inr he)
      omega
  · intro he
    exact Or.inl (Or.inr he)

/-- The edges into a block outside of that part. -/
theorem Owns.outer {es is fs : List (Nat × Nat)} {lo hi lo' hi' b : Nat}
    (h : Owns E (es ++ is ++ fs) lo hi) (hin : ∀ u v, (u, v) ∈ is → lo' ≤ v ∧ v < hi')
    (hlo : lo ≤ b) (hhi : b < hi) (hout : b < lo' ∨ hi' ≤ b) (u : Nat) :
    E u b ↔ (u, b) ∈ es ++ fs := by
  rw [h u b hlo hhi]
  simp only [List.mem_append]
  constructor
  · intro hor
    rcases hor with (he | he) | he
    · exact Or.inl he
    · have := hin u b he
      omega
    · exact Or.inr he
  · intro hor
    rcases hor with he | he
    · exact Or.inl (Or.inl he)
    · exact Or.inr he

/-- Without edges there is no way in. -/
theorem Owns.fresh {lo hi b : Nat} (h : Owns E [] lo hi) (hlo : lo ≤ b) (hhi : b < hi) :
    ∀ u, ¬ E u b := by
  intro u he
  exact absurd ((h u b hlo hhi).mp he) List.not_mem_nil

/-- A statement inside another one, with the edges around it. -/
theorem Owns.stmt {es fs : List (Nat × Nat)} {lo hi m c : Nat} {s : Stmt}
    (h : Owns E (es ++ edges m c s ++ fs) lo hi) (hlo : lo ≤ m) (hhi : m + size s ≤ hi)
    (hout : ∀ e ∈ es ++ fs, e.2 < m ∨ m + size s ≤ e.2) :
    Owns E (edges m c s) m (m + size s)
      ∧ ∀ b, lo ≤ b → b < hi → (b < m ∨ m + size s ≤ b) → ∀ u, E u b ↔ (u, b) ∈ es ++ fs :=
  ⟨h.inner hlo hhi hout,
    fun _ hb hb' hbout => h.outer (fun _ _ he => (edges_range s he).2) hb hb' hbout⟩

/-- An `if` without an else arm. -/
theorem Owns.ifThen {span : ByteSpan} {cond : PlainNode} {t : Stmt}
    (h : Owns E (edges n cur (.ifThen span cond t)) n (n + (size t + 2))) :
    (∀ u, E u n ↔ u = cur)
      ∧ Owns E (edges (n + 1) n t) (n + 1) (n + 1 + size t)
      ∧ ∀ u, E u (n + 1 + size t) ↔ u = endBlock (n + 1) n t ∨ u = cur := by
  have hparts : Owns E ([(cur, n)] ++ edges (n + 1) n t
      ++ [(endBlock (n + 1) n t, n + 1 + size t), (cur, n + 1 + size t)]) n (n + (size t + 2)) := h
  obtain ⟨ht, hpreds⟩ := hparts.stmt (by omega) (by omega) (by simp)
  refine ⟨fun u => ?_, ht, fun u => ?_⟩
  · rw [hpreds n (by omega) (by omega) (by omega) u]
    simp only [List.cons_append, List.nil_append, List.mem_cons, List.not_mem_nil, or_false,
      Prod.mk.injEq, and_true]
    omega
  · rw [hpreds _ (by omega) (by omega) (by omega) u]
    simp only [List.cons_append, List.nil_append, List.mem_cons, List.not_mem_nil, or_false,
      Prod.mk.injEq, and_true]
    omega

/-- An `if` with an else arm, which is one block. -/
theorem Owns.ifElse {span elseSpan : ByteSpan} {cond : PlainNode} {t e : Stmt}
    (h : Owns E (edges n cur (.ifElse span cond t elseSpan e)) n (n + (size t + 3))) :
    (∀ u, E u n ↔ u = cur)
      ∧ Owns E (edges (n + 1) n t) (n + 1) (n + 1 + size t)
      ∧ (∀ u, E u (n + 1 + size t) ↔ u = cur)
      ∧ ∀ u, E u (n + 1 + size t + 1) ↔ u = endBlock (n + 1) n t ∨ u = n + 1 + size t := by
  have hparts : Owns E ([(cur, n)] ++ edges (n + 1) n t
      ++ [(cur, n + 1 + size t), (endBlock (n + 1) n t, n + 1 + size t + 1),
        (n + 1 + size t, n + 1 + size t + 1)]) n (n + (size t + 3)) := h
  obtain ⟨ht, hpreds⟩ := hparts.stmt (by omega) (by omega) (by simp)
  refine ⟨fun u => ?_, ht, fun u => ?_, fun u => ?_⟩
  · rw [hpreds n (by omega) (by omega) (by omega) u]
    simp only [List.cons_append, List.nil_append, List.mem_cons, List.not_mem_nil, or_false,
      Prod.mk.injEq, and_true]
    omega
  · rw [hpreds _ (by omega) (by omega) (by omega) u]
    simp only [List.cons_append, List.nil_append, List.mem_cons, List.not_mem_nil, or_false,
      Prod.mk.injEq, and_true]
    omega
  · rw [hpreds _ (by omega) (by omega) (by omega) u]
    simp only [List.cons_append, List.nil_append, List.mem_cons, List.not_mem_nil, or_false,
      Prod.mk.injEq, and_true]
    omega

/-- `for` and `while`: the header, the body, the exit. -/
theorem Owns.loop {body : Stmt}
    (h : Owns E ([(cur, n), (n, n + 1)] ++ edges (n + 2) (n + 1) body
      ++ [(endBlock (n + 2) (n + 1) body, n), (n, n + 2 + size body)]) n (n + (size body + 3))) :
    (∀ u, E u n ↔ u = cur ∨ u = endBlock (n + 2) (n + 1) body)
      ∧ (∀ u, E u (n + 1) ↔ u = n)
      ∧ Owns E (edges (n + 2) (n + 1) body) (n + 2) (n + 2 + size body)
      ∧ ∀ u, E u (n + 2 + size body) ↔ u = n := by
  obtain ⟨hb, hpreds⟩ := h.stmt (by omega) (by omega) (by simp)
  refine ⟨fun u => ?_, fun u => ?_, hb, fun u => ?_⟩
  · rw [hpreds n (by omega) (by omega) (by omega) u]
    simp only [List.cons_append, List.nil_append, List.mem_cons, List.not_mem_nil, or_false,
      Prod.mk.injEq, and_true]
    omega
  · rw [hpreds _ (by omega) (by omega) (by omega) u]
    simp only [List.cons_append, List.nil_append, List.mem_cons, List.not_mem_nil, or_false,
      Prod.mk.injEq, and_true]
    omega
  · rw [hpreds _ (by omega) (by omega) (by omega) u]
    simp only [List.cons_append, List.nil_append, List.mem_cons, List.not_mem_nil, or_false,
      Prod.mk.injEq, and_true]
    omega

/-- `do`: the body, the condition, the exit. -/
theorem Owns.doLoop {span : ByteSpan} {cond : PlainNode} {body : Stmt}
    (h : Owns E (edges n cur (.doLoop span body cond)) n (n + (size body + 3))) :
    (∀ u, E u n ↔ u = cur ∨ u = n + 1 + size body)
      ∧ Owns E (edges (n + 1) n body) (n + 1) (n + 1 + size body)
      ∧ (∀ u, E u (n + 1 + size body) ↔ u = endBlock (n + 1) n body)
      ∧ ∀ u, E u (n + 1 + size body + 1) ↔ u = n + 1 + size body := by
  have hparts : Owns E ([(cur, n)] ++ edges (n + 1) n body
      ++ [(endBlock (n + 1) n body, n + 1 + size body), (n + 1 + size body, n),
        (n + 1 + size body, n + 1 + size body + 1)]) n (n + (size body + 3)) := h
  obtain ⟨hb, hpreds⟩ := hparts.stmt (by omega) (by omega) (by simp)
  refine ⟨fun u => ?_, hb, fun u => ?_, fun u => ?_⟩
  · rw [hpreds n (by omega) (by omega) (by omega) u]
    simp only [List.cons_append, List.nil_append, List.mem_cons, List.not_mem_nil, or_false,
      Prod.mk.injEq, and_true]
    omega
  · rw [hpreds _ (by omega) (by omega) (by omega) u]
    simp only [List.cons_append, List.nil_append, List.mem_cons, List.not_mem_nil, or_false,
      Prod.mk.injEq, and_true]
    omega
  · rw [hpreds _ (by omega) (by omega) (by omega) u]
    simp only [List.cons_append, List.nil_append, List.mem_cons, List.not_mem_nil, or_false,
      Prod.mk.injEq, and_true]
    omega

/-- One statement after another. -/
theorem Owns.seq {s : Stmt} {ss : Stmts}
    (h : Owns E (edgesAll n cur (.cons s ss)) n (n + (size s + sizeAll ss))) :
    Owns E (edges n cur s) n (n + size s)
      ∧ Owns E (edgesAll (n + size s) (endBlock n cur s) ss) (n + size s)
          (n + size s + sizeAll ss) := by
  have hparts : Owns E ([] ++ edges n cur s ++ edgesAll (n + size s) (endBlock n cur s) ss) n
      (n + (size s + sizeAll ss)) := h
  refine ⟨hparts.inner (Nat.le_refl n) (by omega) fun e he => ?_, ?_⟩
  · have := (edgesAll_range ss he).2
    omega
  · have hparts' : Owns E (edges n cur s ++ edgesAll (n + size s) (endBlock n cur s) ss ++ []) n
        (n + (size s + sizeAll ss)) := by
      rw [List.append_nil]
      exact h
    refine hparts'.inner (by omega) (by omega) fun e he => ?_
    rw [List.append_nil] at he
    have := (edges_range s he).2
    omega

/-- The cursor dominates the blocks of a part. -/
theorem Owns.dom {es : List (Nat × Nat)} {k : Nat} (h : Owns E es n (n + k))
    (hes : ∀ u v, (u, v) ∈ es → InPart n cur k u) (hn : 0 < n) {b : Nat} (hb : InPart n cur k b) :
    Dom E 0 cur b := by
  rcases hb with rfl | hb
  · exact Dom.refl b
  · have hentered : EnteredThrough E cur fun b => n ≤ b ∧ b < n + k := by
      intro u v he hv
      exact hes u v ((h u v hv.1 hv.2).mp he)
    exact hentered.dom (fun hzero => absurd hzero.1 (by omega)) hb

theorem Owns.dom_endBlock {s : Stmt} (h : Owns E (edges n cur s) n (n + size s)) (hn : 0 < n) :
    Dom E 0 cur (endBlock n cur s) :=
  h.dom (fun _ _ he => (edges_range s he).1) hn (endBlock_inPart n cur s)

theorem Owns.dom_endBlockAll {ss : Stmts} (h : Owns E (edgesAll n cur ss) n (n + sizeAll ss))
    (hn : 0 < n) : Dom E 0 cur (endBlockAll n cur ss) :=
  h.dom (fun _ _ he => (edgesAll_range ss he).1) hn (endBlockAll_inPart n cur ss)

/-- The edges of a statement are in the graph. -/
theorem Owns.edge {s : Stmt} (h : Owns E (edges n cur s) n (n + size s)) {u v : Nat}
    (he : (u, v) ∈ edges n cur s) : E u v := by
  have hrange := (edges_range s he).2
  exact (h u v hrange.1 hrange.2).mpr he

/-- In a loop, the header dominates the block its body ends on. -/
theorem Owns.dom_loop {body : Stmt} (hn : 0 < n) (hbody : ∀ u, E u (n + 1) ↔ u = n)
    (h : Owns E (edges (n + 2) (n + 1) body) (n + 2) (n + 2 + size body)) :
    Dom E 0 n (endBlock (n + 2) (n + 1) body) := by
  have hfirst : Dom E 0 n (n + 1) := by
    refine Dom.of_preds (by omega) fun p hp => ?_
    rw [(hbody p).mp hp]
    exact Dom.refl n
  exact hfirst.trans (h.dom_endBlock (by omega))

/-- So does the first block of the body of a `do` its condition. -/
theorem Owns.dom_do {body : Stmt} (hn : 0 < n)
    (h : Owns E (edges (n + 1) n body) (n + 1) (n + 1 + size body))
    (hcond : ∀ u, E u (n + 1 + size body) ↔ u = endBlock (n + 1) n body) :
    Dom E 0 n (n + 1 + size body) := by
  refine Dom.of_preds (by omega) fun p hp => ?_
  rw [(hcond p).mp hp]
  exact h.dom_endBlock (by omega)

/-- In a `for` or `while`, if so in its body. -/
theorem Owns.ascendingLoop {body : Stmt}
    (hinner : Owns E (edges (n + 2) (n + 1) body) (n + 2) (n + 2 + size body) →
      ∀ u v, E u v → n + 2 ≤ v → v < n + 2 + size body → u < v ∨ v < u ∧ Dom E 0 v u)
    (h : Owns E ([(cur, n), (n, n + 1)] ++ edges (n + 2) (n + 1) body
      ++ [(endBlock (n + 2) (n + 1) body, n), (n, n + 2 + size body)]) n (n + (size body + 3)))
    (hn : 0 < n) (hcur : cur < n) :
    ∀ u v, E u v → n ≤ v → v < n + (size body + 3) → u < v ∨ v < u ∧ Dom E 0 v u := by
  intro u v he hlo hhi
  obtain ⟨hheader, hfirst, hb, hexit⟩ := h.loop
  by_cases h1 : v = n
  · rw [h1] at he ⊢
    rcases (hheader u).mp he with rfl | rfl
    · exact Or.inl hcur
    · have hend := endBlock_inPart (n + 2) (n + 1) body
      unfold InPart at hend
      exact Or.inr ⟨by omega, Owns.dom_loop hn hfirst hb⟩
  · by_cases h2 : v = n + 1
    · rw [h2, hfirst] at he
      omega
    · by_cases h3 : v = n + 2 + size body
      · rw [h3, hexit] at he
        omega
      · exact hinner hb u v he (by omega) (by omega)

mutual
/-- **Edges go up, or back to a header.** -/
theorem Owns.ascending {n cur : Nat} (s : Stmt) (h : Owns E (edges n cur s) n (n + size s))
    (hn : 0 < n) (hcur : cur < n) :
    ∀ u v, E u v → n ≤ v → v < n + size s → u < v ∨ v < u ∧ Dom E 0 v u := by
  intro u v he hlo hhi
  cases s with
  | simple _ | breakStmt _ | continueStmt _ | caseStmt _ _ _ =>
      unfold size at hhi
      omega
  | returnStmt span value => exact absurd he (h.fresh hlo hhi u)
  | switch span cond bodySpan body => exact absurd he (h.fresh hlo hhi u)
  | compound span body => exact Owns.ascendingAll body h hn hcur u v he hlo hhi
  | ifThen span cond t =>
      obtain ⟨hthen, ht, hjoin⟩ := h.ifThen
      have hend := endBlock_inPart (n + 1) n t
      unfold InPart at hend
      simp only [size] at hhi
      by_cases h1 : v = n
      · rw [h1, hthen] at he
        omega
      · by_cases h2 : v = n + 1 + size t
        · rw [h2, hjoin] at he
          omega
        · exact Owns.ascending t ht (by omega) (by omega) u v he (by omega) (by omega)
  | ifElse span cond t elseSpan e =>
      obtain ⟨hthen, ht, helse, hjoin⟩ := h.ifElse
      have hend := endBlock_inPart (n + 1) n t
      unfold InPart at hend
      simp only [size] at hhi
      by_cases h1 : v = n
      · rw [h1, hthen] at he
        omega
      · by_cases h2 : v = n + 1 + size t
        · rw [h2, helse] at he
          omega
        · by_cases h3 : v = n + 1 + size t + 1
          · rw [h3, hjoin] at he
            omega
          · exact Owns.ascending t ht (by omega) (by omega) u v he (by omega) (by omega)
  | forLoop span _ _ _ body | whileLoop span _ body =>
      exact Owns.ascendingLoop
        (fun hb => Owns.ascending body hb (Nat.succ_pos _) (Nat.lt_succ_self _)) h hn hcur u v he
        hlo hhi
  | doLoop span body cond =>
      obtain ⟨hheader, hb, hcond, hexit⟩ := h.doLoop
      have hend := endBlock_inPart (n + 1) n body
      unfold InPart at hend
      simp only [size] at hhi
      by_cases h1 : v = n
      · rw [h1] at he ⊢
        rcases (hheader u).mp he with rfl | rfl
        · exact Or.inl hcur
        · exact Or.inr ⟨by omega, Owns.dom_do hn hb hcond⟩
      · by_cases h2 : v = n + 1 + size body
        · rw [h2, hcond] at he
          omega
        · by_cases h3 : v = n + 1 + size body + 1
          · rw [h3, hexit] at he
            omega
          · exact Owns.ascending body hb (by omega) (by omega) u v he (by omega) (by omega)

theorem Owns.ascendingAll {n cur : Nat} (ss : Stmts)
    (h : Owns E (edgesAll n cur ss) n (n + sizeAll ss)) (hn : 0 < n) (hcur : cur < n) :
    ∀ u v, E u v → n ≤ v → v < n + sizeAll ss → u < v ∨ v < u ∧ Dom E 0 v u := by
  intro u v he hlo hhi
  cases ss with
  | nil =>
      unfold sizeAll at hhi
      omega
  | cons s ss =>
      obtain ⟨hs, hss⟩ := h.seq
      have hend := endBlock_inPart n cur s
      unfold InPart at hend
      simp only [sizeAll] at hhi
      by_cases h1 : v < n + size s
      · exact Owns.ascending s hs hn hcur u v he hlo h1
      · exact Owns.ascendingAll ss hss (by omega) (by omega) u v he (by omega) (by omega)
end

/-- The graph of a body is numbered in order. -/
theorem edges_ascending (s : Stmt) : Ascending (fun u v => (u, v) ∈ edges 1 0 s) 0 := by
  intro u v he
  have hrange := (edges_range s he).2
  have howns : Owns (fun u v => (u, v) ∈ edges 1 0 s) (edges 1 0 s) 1 (1 + size s) :=
    fun _ _ _ _ => Iff.rfl
  exact howns.ascending s Nat.one_pos Nat.one_pos u v he hrange.1 hrange.2

end Parts

end ShaderClippy.ControlFlow
