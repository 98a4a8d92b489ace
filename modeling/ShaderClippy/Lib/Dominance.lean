/-
  ShaderClippy.Lib.Dominance

  **WALKS AND DOMINANCE IN A ROOTED DIRECTED GRAPH.**

  A graph is a relation `E` on any type of vertices. `Walk E r b ps`: the
  list `ps` is a walk from `r` to `b`. `Dom E r d b`: every walk from the
  root `r` to `b` contains `d`.

  Walks grow at their END: dominance is proved by asking what the last edge
  of a walk can be. A graph is REDUCIBLE when its forward edges, those
  whose target does not dominate their source, have no cycle: a rank that
  every edge raises, unless it returns to the entrance of a single-entry
  region, shows it (`reducible_of_rank`, `EnteredThrough.dom`).
-/
import Mathlib.Logic.Relation

namespace Graph

variable {V : Type} {E : V → V → Prop} {r : V}

/-! ## §1. Walks and dominance. -/

/-- `ps` lists the vertices of a walk from `r` to the index. -/
inductive Walk (E : V → V → Prop) (r : V) : V → List V → Prop where
  | start : Walk E r r [r]
  | step {p b : V} {ps : List V} : Walk E r p ps → E p b → Walk E r b (ps ++ [b])

/-- Reachability from the root. -/
abbrev Reach (E : V → V → Prop) (r b : V) : Prop := Relation.ReflTransGen E r b

theorem Walk.reach {b : V} {ps : List V} (h : Walk E r b ps) : Reach E r b := by
  induction h with
  | start => exact Relation.ReflTransGen.refl
  | step _ he ih => exact ih.tail he

theorem Reach.exists_walk {b : V} (h : Reach E r b) : ∃ ps, Walk E r b ps := by
  induction h with
  | refl => exact ⟨[r], Walk.start⟩
  | tail _ he ih =>
      obtain ⟨ps, hps⟩ := ih
      exact ⟨_, hps.step he⟩

/-- Beyond the root, reachability comes from a predecessor. -/
theorem reach_iff_pred {b : V} (hb : b ≠ r) : Reach E r b ↔ ∃ p, E p b ∧ Reach E r p := by
  constructor
  · intro h
    rcases Relation.ReflTransGen.cases_tail h with heq | ⟨p, hp, he⟩
    · exact absurd heq hb
    · exact ⟨p, he, hp⟩
  · intro ⟨p, he, hp⟩
    exact hp.tail he

/-- What no edge enters is not reached. -/
theorem not_reach_of_no_pred {b : V} (hb : b ≠ r) (h : ∀ p, ¬ E p b) : ¬ Reach E r b := by
  intro hreach
  obtain ⟨p, he, -⟩ := (reach_iff_pred hb).mp hreach
  exact h p he

theorem Walk.mem_end {b : V} {ps : List V} (h : Walk E r b ps) : b ∈ ps := by
  cases h with
  | start => exact List.mem_singleton_self _
  | step _ _ => exact List.mem_append_right _ (List.mem_singleton_self _)

theorem Walk.mem_root {b : V} {ps : List V} (h : Walk E r b ps) : r ∈ ps := by
  induction h with
  | start => exact List.mem_singleton_self _
  | step _ _ ih => exact List.mem_append_left _ ih

/-- A walk begins with its root. -/
theorem Walk.head_root {b : V} {ps : List V} (h : Walk E r b ps) : ∃ qs, ps = r :: qs := by
  induction h with
  | start => exact ⟨[], rfl⟩
  | step _ _ ih =>
      obtain ⟨qs, rfl⟩ := ih
      exact ⟨qs ++ [_], rfl⟩

theorem Walk.tail_append {b : V} {ps : List V} (h : Walk E r b ps) (c : V) :
    (ps ++ [c]).tail = ps.tail ++ [c] := by
  obtain ⟨qs, rfl⟩ := h.head_root
  rfl

/-- Every vertex of a walk is reachable. -/
theorem Walk.reach_mem {b : V} {ps : List V} (h : Walk E r b ps) : ∀ c ∈ ps, Reach E r c := by
  induction h with
  | start =>
      intro c hc
      rw [List.mem_singleton.mp hc]
  | step hw he ih =>
      intro c hc
      rcases List.mem_append.mp hc with hc | hc
      · exact ih c hc
      · rw [List.mem_singleton.mp hc]
        exact hw.reach.tail he

/-- Every walk from the root to `b` contains `d`. -/
def Dom (E : V → V → Prop) (r d b : V) : Prop := ∀ ps, Walk E r b ps → d ∈ ps

theorem Dom.refl (b : V) : Dom E r b b := fun _ h => h.mem_end

/-- Only the root dominates the root. -/
theorem Dom.eq_root {d : V} (h : Dom E r d r) : d = r :=
  List.mem_singleton.mp (h [r] Walk.start)

/-- A strict dominator of `b` dominates every predecessor of `b`. -/
theorem Dom.pred {d b p : V} (h : Dom E r d b) (hne : d ≠ b) (he : E p b) : Dom E r d p := by
  intro ps hps
  rcases List.mem_append.mp (h _ (hps.step he)) with hd | hd
  · exact hd
  · exact absurd (List.mem_singleton.mp hd) hne

/-- What dominates every predecessor of `b` dominates `b`. -/
theorem Dom.of_preds {d b : V} (hne : b ≠ r) (h : ∀ p, E p b → Dom E r d p) : Dom E r d b := by
  intro ps hps
  cases hps with
  | start => exact absurd rfl hne
  | step hw he => exact List.mem_append_left _ (h _ he _ hw)

/-- A walk begins with a walk to each of its vertices. -/
theorem Walk.exists_to {b c : V} {ps : List V} (h : Walk E r b ps) (hc : c ∈ ps) :
    ∃ qs, Walk E r c qs ∧ ∀ x ∈ qs, x ∈ ps := by
  induction h with
  | start =>
      rw [List.mem_singleton.mp hc]
      exact ⟨[r], Walk.start, fun _ hx => hx⟩
  | step hw he ih =>
      rcases List.mem_append.mp hc with hc | hc
      · obtain ⟨qs, hqs, hsub⟩ := ih hc
        exact ⟨qs, hqs, fun x hx => List.mem_append_left _ (hsub x hx)⟩
      · rw [List.mem_singleton.mp hc]
        exact ⟨_, hw.step he, fun _ hx => hx⟩

theorem Dom.trans {a b c : V} (hab : Dom E r a b) (hbc : Dom E r b c) : Dom E r a c := by
  intro ps hps
  obtain ⟨qs, hqs, hsub⟩ := hps.exists_to (hbc ps hps)
  exact hsub a (hab qs hqs)

/-- A dominator of a reachable vertex is reachable. -/
theorem Dom.reach {a b : V} (h : Dom E r a b) (hb : Reach E r b) : Reach E r a := by
  obtain ⟨ps, hps⟩ := hb.exists_walk
  exact hps.reach_mem a (h ps hps)

/-! ## §2. Single-entry regions and reducibility. -/

/-- The region `B` is entered through `h` only. -/
def EnteredThrough (E : V → V → Prop) (h : V) (B : V → Prop) : Prop :=
  ∀ u v, E u v → B v → u = h ∨ B u

/-- The entrance of a region without the root dominates the region. -/
theorem EnteredThrough.dom {h : V} {B : V → Prop} (hB : EnteredThrough E h B) (hr : ¬ B r)
    {b : V} (hb : B b) : Dom E r h b := by
  intro ps hps
  induction hps with
  | start => exact absurd hb hr
  | step hw he ih =>
      rcases hB _ _ he hb with heq | hp
      · rw [← heq]
        exact List.mem_append_left _ hw.mem_end
      · exact List.mem_append_left _ (ih hp)

/-- A forward edge: its target does not dominate its source. -/
def ForwardEdge (E : V → V → Prop) (r u v : V) : Prop := E u v ∧ ¬ Dom E r v u

/-- No reachable vertex lies on a cycle of forward edges. -/
def Reducible (E : V → V → Prop) (r : V) : Prop :=
  ∀ b, Reach E r b → ¬ Relation.TransGen (ForwardEdge E r) b b

/-- **A rank that every edge raises**, unless its target dominates its source. -/
theorem reducible_of_rank (rank : V → Nat)
    (h : ∀ u v, E u v → rank u < rank v ∨ Dom E r v u) : Reducible E r := by
  have hstep : ∀ u v, ForwardEdge E r u v → rank u < rank v := by
    intro u v huv
    exact (h u v huv.1).resolve_right huv.2
  have hpath : ∀ u v, Relation.TransGen (ForwardEdge E r) u v → rank u < rank v := by
    intro u v huv
    induction huv with
    | single he => exact hstep _ _ he
    | tail _ he ih => exact Nat.lt_trans ih (hstep _ _ he)
  intro b _ hcycle
  exact Nat.lt_irrefl _ (hpath b b hcycle)

/-! ## §3. Graphs numbered in order, and the vertices under a loop. -/

/-- Every edge goes up, or down to a dominator of its source. -/
def Ascending (E : Nat → Nat → Prop) (r : Nat) : Prop :=
  ∀ u v, E u v → u < v ∨ v < u ∧ Dom E r v u

section Numbered

variable {E : Nat → Nat → Prop} {r : Nat}

theorem Ascending.irrefl (h : Ascending E r) (u : Nat) : ¬ E u u := by
  intro he
  have := h u u he
  omega

/-- What is reachable is reachable upwards: an edge back to a dominator only
returns to a vertex the way up has passed. -/
theorem Ascending.reach_up (h : Ascending E r) {b : Nat} (hb : Reach E r b) :
    Reach (fun u v => E u v ∧ u < v) r b := by
  induction hb with
  | refl => exact Relation.ReflTransGen.refl
  | @tail p b _ he ih =>
      rcases h p b he with hlt | ⟨-, hdom⟩
      · exact ih.tail ⟨he, hlt⟩
      · obtain ⟨ps, hps⟩ := Reach.exists_walk ih
        have hmono : ∀ {c : Nat} {qs : List Nat}, Walk (fun u v => E u v ∧ u < v) r c qs →
            Walk E r c qs := by
          intro c qs hqs
          induction hqs with
          | start => exact Walk.start
          | step _ he ih => exact ih.step he.1
        exact hps.reach_mem b (hdom ps (hmono hps))

/-- **Dominators come first.** -/
theorem Ascending.dom_le (h : Ascending E r) {a b : Nat} (hb : Reach E r b) (hd : Dom E r a b) :
    a ≤ b := by
  obtain ⟨ps, hps⟩ := Reach.exists_walk (h.reach_up hb)
  have hup : ∀ {c : Nat} {qs : List Nat}, Walk (fun u v => E u v ∧ u < v) r c qs →
      Walk E r c qs ∧ ∀ x ∈ qs, x ≤ c := by
    intro c qs hqs
    induction hqs with
    | start => exact ⟨Walk.start, fun x hx => Nat.le_of_eq (List.mem_singleton.mp hx)⟩
    | step _ he ih =>
        refine ⟨ih.1.step he.1, fun x hx => ?_⟩
        rcases List.mem_append.mp hx with hx | hx
        · have := ih.2 x hx
          have := he.2
          omega
        · exact Nat.le_of_eq (List.mem_singleton.mp hx)
  obtain ⟨hwalk, hle⟩ := hup hps
  exact hle a (hd ps hwalk)

/-- A reachable vertex dominated by the target of a back edge whose source is
reachable. -/
def UnderLoop (E : Nat → Nat → Prop) (r b : Nat) : Prop :=
  Reach E r b ∧ ∃ t h, E t h ∧ Reach E r t ∧ Dom E r h t ∧ Dom E r h b

theorem UnderLoop.mono {a b : Nat} (h : UnderLoop E r a) (hd : Dom E r a b) (hb : Reach E r b) :
    UnderLoop E r b := by
  obtain ⟨-, t, x, he, ht, hxt, hxa⟩ := h
  exact ⟨hb, t, x, he, ht, hxt, hxa.trans hd⟩

/-- Beyond a header, the loops over `b` are over its predecessors. -/
theorem UnderLoop.pred {b p : Nat} (ha : Ascending E r) (h : UnderLoop E r b)
    (hless : ∀ u, E u b → u < b) (he : E p b) (hp : Reach E r p) : UnderLoop E r p := by
  obtain ⟨-, t, x, hback, ht, hxt, hxb⟩ := h
  have hne : x ≠ b := by
    intro heq
    rw [heq] at hback hxt
    have := hless t hback
    have := ha.dom_le ht hxt
    omega
  exact ⟨hp, t, x, hback, ht, hxt, hxb.pred hne he⟩

/-- **No loop begins**: when every edge into `b` comes from below, `b` is
under a loop exactly if its dominator `c` is, where a predecessor `p` of `b`
tells no more than `c`. -/
theorem underLoop_iff {b c p : Nat} (ha : Ascending E r) (hless : ∀ u, E u b → u < b)
    (he : E p b) (hc : Dom E r c b) (hcp : Reach E r c → Reach E r p)
    (hpc : UnderLoop E r p → UnderLoop E r c) : UnderLoop E r b ↔ UnderLoop E r c := by
  constructor
  · intro h
    exact hpc (h.pred ha hless he (hcp (hc.reach h.1)))
  · intro h
    exact h.mono hc ((hcp h.1).tail he)

/-- **A loop begins** at `b`, entered from `p` and closed from `t`. -/
theorem underLoop_header {b p t : Nat} (ha : Ascending E r)
    (honly : ∀ u, E u b → u = p ∨ u = t) (hp : E p b) (ht : E t b) (hlt : p < b)
    (hpb : Dom E r p b) (hbt : Dom E r b t) :
    UnderLoop E r b ↔ UnderLoop E r p ∨ Reach E r t := by
  constructor
  · intro ⟨hb, u, x, hback, hu, hxu, hxb⟩
    by_cases hne : x = b
    · rw [hne] at hback hxu
      rcases honly u hback with rfl | rfl
      · have := ha.dom_le hu hxu
        omega
      · exact Or.inr hu
    · exact Or.inl ⟨hpb.reach hb, u, x, hback, hu, hxu, hxb.pred hne hp⟩
  · intro h
    rcases h with h | h
    · exact h.mono hpb (h.1.tail hp)
    · exact ⟨hbt.reach h, t, b, ht, h, hbt, Dom.refl b⟩

end Numbered

end Graph
