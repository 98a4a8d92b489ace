/-
  ShaderClippy.Lib.DominatorTable

  **ITERATIVE DOMINATORS ON AN ARBITRARY GRAPH.**

  The iteration keeps a parent table and repeatedly visits the vertices in
  reverse postorder; visiting `v` makes the nearest common ancestor of the
  predecessors that have an entry the new parent of `v`.

    • `Table`    — what every table of a run satisfies. Its heart is
                   `closed`: a strict dominator of `b` dominates the parent
                   of `b`, so dominators are ancestors (`Table.anc_of_dom`).
    • `Settled`  — additionally, what holds BETWEEN two passes: a parent is
                   an ancestor of all forward predecessors.
    • `PassInv`  — the table `T` in the middle of a pass that started at `S`.
                   Visiting keeps it (`PassInv.visit`), because the new
                   parent is always an ancestor of the old one: entries only
                   take shortcuts, and the pass that changes nothing comes.
    • `anc_iff_dom` — at a fixpoint ancestors are EXACTLY the dominators.

  The rank of a vertex is its postorder number; irreducible graphs,
  self-loops and unreachable predecessors need no special treatment.
-/
import Mathlib.Algebra.Group.Action.Defs
import Mathlib.Algebra.Order.BigOperators.Group.List
import Mathlib.Algebra.Order.Ring.Nat
import ShaderClippy.Lib.Dominance
import ShaderClippy.Lib.ParentTable

namespace DominatorTable

open Graph ParentTable

variable {V : Type} {E : V → V → Prop} {rank : V → Nat} {r : V} {S T : V → Option V}

/-! ## §1. Numberings and tables. -/

/-- An edge from a reachable vertex of larger rank. -/
structure Forward (E : V → V → Prop) (rank : V → Nat) (r p v : V) : Prop where
  reach : Reach E r p
  edge : E p v
  higher : rank v < rank p

/-- What a depth-first postorder numbering of the reachable part provides. -/
structure Numbering (E : V → V → Prop) (rank : V → Nat) (r : V) : Prop where
  inj : ∀ b c, Reach E r b → Reach E r c → rank b = rank c → b = c
  top : ∀ b, Reach E r b → rank b ≤ rank r
  forward : ∀ v, Reach E r v → v ≠ r → ∃ p, Forward E rank r p v

/-- The invariant of the table. -/
structure Table (E : V → V → Prop) (rank : V → Nat) (r : V) (T : V → Option V) : Prop where
  ranked : Ranked T rank r
  reach : ∀ b, T b ≠ none → Reach E r b
  closed : ∀ b p d, T b = some p → b ≠ r → Dom E r d b → d ≠ b → Dom E r d p
  low : ∀ b p, T b = some p → b ≠ r →
    ∀ c, (∀ q, E q b → T q ≠ none → Anc T c q) → rank p ≤ rank c

/-- Between two passes. -/
structure Settled (E : V → V → Prop) (rank : V → Nat) (r : V) (T : V → Option V) : Prop where
  table : Table E rank r T
  forward : ∀ v p q, T v = some q → v ≠ r → Forward E rank r p v → T p ≠ none ∧ Anc T q p

/-- The predecessors of `v` that have an entry. -/
def Known (E : V → V → Prop) (T : V → Option V) (v q : V) : Prop := E q v ∧ T q ≠ none

/-- **Dominators are ancestors.** -/
theorem Table.anc_of_dom (h : Table E rank r T) {d : V} :
    ∀ (k : Nat) (b : V), rank r - rank b ≤ k → T b ≠ none → Dom E r d b → Anc T d b := by
  have hroot : ∀ b, b = r → Dom E r d b → Anc T d b := by
    rintro b rfl hd
    rw [hd.eq_root]
    exact Anc.refl T b
  intro k
  induction k with
  | zero =>
      intro b hk hb hd
      have hle := h.ranked.top b hb
      have hr : T r ≠ none := by
        rw [h.ranked.root]
        exact Option.some_ne_none _
      exact hroot b (h.ranked.inj b r hb hr (by omega)) hd
  | succ k ih =>
      intro b hk hb hd
      by_cases hbr : b = r
      · exact hroot b hbr hd
      by_cases hdb : d = b
      · rw [hdb]
        exact Anc.refl T b
      obtain ⟨p, hp⟩ := Option.ne_none_iff_exists'.mp hb
      obtain ⟨hlt, hpn⟩ := h.ranked.climb b p hp hbr
      have hle := h.ranked.top p hpn
      exact Anc.of_parent hp (ih p (by omega) hpn (h.closed b p d hp hbr hd hdb))

/-- A dominator of `b` dominates every vertex of the chain from `b` up to it. -/
theorem Table.dom_between (h : Table E rank r T) {d y b : V} (hyb : Anc T y b)
    (hdy : Anc T d y) (hd : Dom E r d b) : Dom E r d y := by
  induction hyb using Relation.ReflTransGen.head_induction_on with
  | refl => exact hd
  | @head b p hp hrest ih =>
      by_cases hdb : d = b
      · -- the chain has already passed `d`, so `y` is `d`
        have hyd : Anc T y d := by
          rw [hdb]
          exact Relation.ReflTransGen.head hp hrest
        by_cases hne : d = y
        · rw [hne]
          exact Dom.refl y
        · have h1 := hdy.rank_lt h.ranked hne
          have h2 := hyd.rank_le h.ranked
          omega
      · have hbr : b ≠ r := by
          rintro rfl
          exact hdb hd.eq_root
        exact ih (h.closed b p d hp hbr hd hdb)

/-! ## §2. Visiting a vertex. -/

/-- The side conditions under which `v` gets the parent `new`. -/
structure Visit (E : V → V → Prop) (rank : V → Nat) (r : V) (T : V → Option V) (v new : V) :
    Prop where
  reach : Reach E r v
  notRoot : v ≠ r
  nca : IsNca T new (Known E T v)
  seed : ∃ p, Forward E rank r p v ∧ T p ≠ none
  cut : ∀ old, T v = some old → Anc T new old

theorem Visit.ne_none {v new : V} (hv : Visit E rank r T v new) (h : Table E rank r T) : T new ≠ none := by
  obtain ⟨p, hp, hpn⟩ := hv.seed
  exact (hv.nca.anc ⟨hp.edge, hpn⟩).ne_none h.ranked hpn

theorem Visit.rank_lt {v new : V} (hv : Visit E rank r T v new) (h : Table E rank r T) :
    rank v < rank new := by
  obtain ⟨p, hp, hpn⟩ := hv.seed
  exact Nat.lt_of_lt_of_le hp.higher ((hv.nca.anc ⟨hp.edge, hpn⟩).rank_le h.ranked)

section Visit

variable [DecidableEq V] {v new : V}

/-- **Visiting never gains an ancestor** at a vertex that has an entry. -/
theorem Visit.shrinks (hv : Visit E rank r T v new) (h : Table E rank r T) {c x : V}
    (hx : T x ≠ none) (hc : Anc (Function.update T v (some new)) c x) : Anc T c x := by
  cases hold : T v with
  | none => exact hc.of_update_of_not fun hvx => hvx.ne_none h.ranked hx hold
  | some old => exact Anc.of_update hold (hv.cut old hold) hc

theorem update_ne_none {x : V} (hx : T x ≠ none) : Function.update T v (some new) x ≠ none := by
  by_cases hxv : x = v
  · rw [hxv, Function.update_self]
    exact Option.some_ne_none _
  · rw [Function.update_of_ne hxv]
    exact hx

/-- **Visiting keeps the table invariant.** -/
theorem Table.update (h : Table E rank r T) (hnum : Numbering E rank r)
    (hv : Visit E rank r T v new) : Table E rank r (Function.update T v (some new)) := by
  refine ⟨?_, ?_, ?_, ?_⟩
  · refine h.ranked.update hv.notRoot (hv.ne_none h) (hv.rank_lt h) ?_
    intro c hc hrank
    exact hnum.inj v c hv.reach (h.reach c hc) hrank
  · intro b hb
    by_cases hbv : b = v
    · rw [hbv]
      exact hv.reach
    · rw [Function.update_of_ne hbv] at hb
      exact h.reach b hb
  · intro b p d hp hbr hd hdb
    by_cases hbv : b = v
    · subst hbv
      rw [Function.update_self] at hp
      rw [← Option.some.inj hp]
      -- `d` dominates every known predecessor, so it is above `new`
      have hpred : ∀ q, Known E T b q → Anc T d q := by
        rintro q ⟨hq, hqn⟩
        exact h.anc_of_dom _ q (Nat.le_refl _) hqn (hd.pred hdb hq)
      obtain ⟨q, hq, hqn⟩ := hv.seed
      exact h.dom_between (hv.nca.anc ⟨hq.edge, hqn⟩) (hv.nca.anc_of_common hpred)
        (hd.pred hdb hq.edge)
    · rw [Function.update_of_ne hbv] at hp
      exact h.closed b p d hp hbr hd hdb
  · intro b p hp hbr c hc
    have hc' : ∀ q, E q b → T q ≠ none → Anc T c q :=
      fun q hq hqn => hv.shrinks h hqn (hc q hq (update_ne_none hqn))
    by_cases hbv : b = v
    · subst hbv
      rw [Function.update_self] at hp
      rw [← Option.some.inj hp]
      exact (hv.nca.anc_of_common fun q hq => hc' q hq.1 hq.2).rank_le h.ranked
    · rw [Function.update_of_ne hbv] at hp
      exact h.low b p hp hbr c hc'

end Visit

/-! ## §3. One pass. -/

/-- The pass started at the table `S`, has visited `done` and is now at `T`. -/
structure PassInv (E : V → V → Prop) (rank : V → Nat) (r : V) (S T : V → Option V)
    (done : V → Prop) : Prop where
  table : Table E rank r T
  keeps : ∀ x, S x ≠ none → T x ≠ none
  shrinks : ∀ c x, S x ≠ none → Anc T c x → Anc S c x
  agree : ∀ x, ¬ done x → T x = S x
  nested : ∀ c x y, S y ≠ none → Anc S x y → Anc T c y → rank x ≤ rank c → Anc T c x
  settled : ∀ v, done v → T v ≠ none
    ∧ ∀ p q, T v = some q → v ≠ r → Forward E rank r p v → T p ≠ none ∧ Anc T q p

theorem PassInv.start (h : Settled E rank r S) : PassInv E rank r S S (· = r) := by
  refine ⟨h.table, fun _ hx => hx, fun _ _ _ hc => hc, fun _ _ => rfl, ?_, ?_⟩
  · intro c x y _ hx hc hrank
    exact hx.of_rank_le h.table.ranked hc hrank
  · rintro v rfl
    refine ⟨?_, fun p q _ hvr => absurd rfl hvr⟩
    rw [h.table.ranked.root]
    exact Option.some_ne_none _

theorem PassInv.finish {done : V → Prop} (h : PassInv E rank r S T done)
    (hall : ∀ v, Reach E r v → done v) : Settled E rank r T := by
  refine ⟨h.table, fun v p q hq hvr hp => ?_⟩
  have hv : Reach E r v := h.table.reach v (by rw [hq]; exact Option.some_ne_none _)
  exact (h.settled v (hall v hv)).2 p q hq hvr hp

/-- A chain of `S` up to `v` is still there: everything below `v` is unvisited. -/
theorem PassInv.anc_below {done : V → Prop} (h : PassInv E rank r S T done)
    (hS : Table E rank r S) {v y : V} (hdone : ∀ u, done u → rank v < rank u)
    (hy : Anc S v y) : Anc T v y := by
  induction hy using Relation.ReflTransGen.head_induction_on with
  | refl => exact Anc.refl T v
  | @head y z hz hrest ih =>
      by_cases hne : v = y
      · rw [hne]
        exact Anc.refl T y
      · have hlt : rank y < rank v :=
          Anc.rank_lt hS.ranked (Relation.ReflTransGen.head hz hrest) hne
        have hnot : ¬ done y := fun hd => absurd (hdone y hd) (by omega)
        exact Anc.of_parent (by rw [h.agree y hnot]; exact hz) ih

/-- **The new parent is an ancestor of the old one.** -/
theorem PassInv.cut {done : V → Prop} {v new old : V} (h : PassInv E rank r S T done)
    (hS : Settled E rank r S) (hnum : Numbering E rank r) (hv : Reach E r v) (hvr : v ≠ r)
    (hdone : ∀ u, done u → rank v < rank u) (hnca : IsNca T new (Known E T v))
    (hold : T v = some old) : Anc T new old := by
  have hnot : ¬ done v := fun hd => absurd (hdone v hd) (by omega)
  have hSv : S v = some old := by
    rw [← h.agree v hnot]
    exact hold
  obtain ⟨p, hp⟩ := hnum.forward v hv hvr
  obtain ⟨hpn, hanc⟩ := hS.forward v p old hSv hvr hp
  -- `new` is a common ancestor, so it is not below `old`
  have hrank : rank old ≤ rank new :=
    h.table.low v old hold hvr new fun q hq hqn => hnca.anc ⟨hq, hqn⟩
  exact h.nested new old p hpn hanc (hnca.anc ⟨hp.edge, h.keeps p hpn⟩) hrank

/-- **Step lemma of a pass**: visiting the next vertex in rank order. -/
theorem PassInv.visit [DecidableEq V] {done : V → Prop} {v new : V}
    (h : PassInv E rank r S T done) (hS : Settled E rank r S) (hnum : Numbering E rank r)
    (hv : Reach E r v) (hvr : v ≠ r) (hdone : ∀ u, done u → rank v < rank u)
    (hnext : ∀ p, Forward E rank r p v → done p) (hnca : IsNca T new (Known E T v)) :
    PassInv E rank r S (Function.update T v (some new)) (fun x => done x ∨ x = v) := by
  have hvisit : Visit E rank r T v new := by
    obtain ⟨p, hp⟩ := hnum.forward v hv hvr
    exact ⟨hv, hvr, hnca, ⟨p, hp, (h.settled p (hnext p hp)).1⟩,
      fun old hold => h.cut hS hnum hv hvr hdone hnca hold⟩
  -- chains that start above `v` never come near it
  have hhigh : ∀ {c x : V}, rank v < rank x → Anc T c x →
      Anc (Function.update T v (some new)) c x := by
    intro c x hx hc
    exact hc.update fun hvx => absurd (hvx.rank_le h.table.ranked) (by omega)
  refine ⟨h.table.update hnum hvisit, ?_, ?_, ?_, ?_, ?_⟩
  · intro x hx
    exact update_ne_none (h.keeps x hx)
  · intro c x hx hc
    exact h.shrinks c x hx (hvisit.shrinks h.table (h.keeps x hx) hc)
  · intro x hx
    rw [Function.update_of_ne fun hxv => hx (Or.inr hxv)]
    exact h.agree x fun hd => hx (Or.inl hd)
  · intro c x y hy hxy hc hrank
    have hcx : Anc T c x :=
      h.nested c x y hy hxy (hvisit.shrinks h.table (h.keeps y hy) hc) hrank
    rcases hcx.update_or v new with hgood | ⟨hvx, hcv⟩
    · exact hgood
    · -- `c` is above `v` on the old chain of `x`; the chain of `y` runs through `v` too
      refine Anc.trans ?_ hvx
      by_cases hcveq : c = v
      · rw [hcveq]
        exact Anc.refl _ v
      have hxn : S x ≠ none := hxy.ne_none hS.table.ranked hy
      have hTvx : Anc T v x :=
        hvisit.shrinks h.table (h.keeps x hxn) hvx
      have hSvy : Anc S v y := Anc.trans (h.shrinks v x hxn hTvx) hxy
      have hTvy : Anc T v y := h.anc_below hS.table hdone hSvy
      have hvy : Anc (Function.update T v (some new)) v y := by
        rcases hTvy.update_or v new with h1 | ⟨h1, _⟩ <;> exact h1
      have hlt : rank v < rank c := hcv.rank_lt h.table.ranked hcveq
      exact hvy.of_rank_le (h.table.update hnum hvisit).ranked hc (Nat.le_of_lt hlt)
  · rintro x (hx | rfl)
    · obtain ⟨hxn, hfwd⟩ := h.settled x hx
      have hlt := hdone x hx
      have hxv : x ≠ v := by
        rintro rfl
        omega
      refine ⟨update_ne_none hxn, fun p q hq hxr hp => ?_⟩
      rw [Function.update_of_ne hxv] at hq
      obtain ⟨hpn, hanc⟩ := hfwd p q hq hxr hp
      exact ⟨update_ne_none hpn, hhigh (Nat.lt_trans hlt hp.higher) hanc⟩
    · refine ⟨by rw [Function.update_self]; exact Option.some_ne_none _, ?_⟩
      intro p q hq _ hp
      rw [Function.update_self] at hq
      rw [← Option.some.inj hq]
      have hpn := (h.settled p (hnext p hp)).1
      exact ⟨update_ne_none hpn, hhigh hp.higher (hnca.anc ⟨hp.edge, hpn⟩)⟩

/-! ## §4. Progress. -/

/-- How far the entries of `vs` have climbed; `0` for no entry. -/
def potential (rank : V → Nat) (vs : List V) (T : V → Option V) : Nat :=
  (vs.map fun v => match T v with
    | none => 0
    | some p => rank p + 1).sum

theorem potential_le (vs : List V) (bound : Nat)
    (h : ∀ v p, T v = some p → rank p < bound) : potential rank vs T ≤ vs.length * bound := by
  have hle := List.sum_le_card_nsmul (vs.map fun v => match T v with
    | none => 0
    | some p => rank p + 1) bound ?_
  · rw [List.length_map, smul_eq_mul] at hle
    exact hle
  · intro x hx
    obtain ⟨v, _, rfl⟩ := List.mem_map.mp hx
    cases hv : T v with
    | none => exact Nat.zero_le _
    | some p => exact h v p hv

/-- **An entry that changes makes progress.** -/
theorem PassInv.potential_lt [DecidableEq V] {done : V → Prop} {v new : V} {vs : List V}
    (h : PassInv E rank r S T done) (hS : Settled E rank r S) (hnum : Numbering E rank r)
    (hv : Reach E r v) (hvr : v ≠ r) (hdone : ∀ u, done u → rank v < rank u)
    (hnca : IsNca T new (Known E T v)) (hmem : v ∈ vs) (hne : T v ≠ some new) :
    potential rank vs T < potential rank vs (Function.update T v (some new)) := by
  have hstrict : ∀ old, T v = some old → rank old < rank new := by
    intro old hold
    refine (h.cut hS hnum hv hvr hdone hnca hold).rank_lt h.table.ranked ?_
    rintro rfl
    exact hne hold
  refine List.sum_lt_sum _ _ ?_ ⟨v, hmem, ?_⟩
  · intro x _
    by_cases hxv : x = v
    · subst hxv
      rw [Function.update_self]
      cases hx : T x with
      | none => exact Nat.zero_le _
      | some old => exact Nat.succ_le_succ (Nat.le_of_lt (hstrict old hx))
    · rw [Function.update_of_ne hxv]
  · rw [Function.update_self]
    cases hx : T v with
    | none => exact Nat.succ_pos _
    | some old => exact Nat.succ_lt_succ (hstrict old hx)

/-! ## §5. The fixpoint. -/

/-- Every reachable vertex but the root has its predecessors' nearest common
ancestor as parent. -/
def Fixpoint (E : V → V → Prop) (r : V) (T : V → Option V) : Prop :=
  ∀ v, Reach E r v → v ≠ r → ∃ q, T v = some q ∧ IsNca T q (Known E T v)

theorem Fixpoint.ne_none (hfix : Fixpoint E r T) (h : Table E rank r T) {v : V}
    (hv : Reach E r v) : T v ≠ none := by
  by_cases hvr : v = r
  · rw [hvr, h.ranked.root]
    exact Option.some_ne_none _
  · obtain ⟨q, hq, _⟩ := hfix v hv hvr
    rw [hq]
    exact Option.some_ne_none _

/-- At a fixpoint every walk collects all ancestors of its end. -/
theorem Fixpoint.anc_mem_walk (hfix : Fixpoint E r T) (h : Table E rank r T) {b : V}
    {ps : List V} (hw : Walk E r b ps) : ∀ a, Anc T a b → a ∈ ps := by
  induction hw with
  | start =>
      intro a ha
      rw [ha.eq_root h.ranked]
      exact List.mem_singleton_self _
  | @step p b ps hw he ih =>
      intro a ha
      by_cases hbr : b = r
      · rw [hbr] at ha
        rw [ha.eq_root h.ranked]
        exact List.mem_append_left _ hw.mem_root
      rcases ha.cases with rfl | ⟨q, hq, haq⟩
      · exact List.mem_append_right _ (List.mem_singleton_self _)
      · obtain ⟨q', hq', hnca⟩ := hfix b (hw.reach.tail he) hbr
        rw [hq] at hq'
        rw [← Option.some.inj hq'] at hnca
        have hqp : Anc T q p := hnca.anc ⟨he, hfix.ne_none h hw.reach⟩
        exact List.mem_append_left _ (ih a (haq.trans hqp))

/-- **At a fixpoint the ancestors of a reachable vertex are exactly its
dominators.** -/
theorem Fixpoint.anc_iff_dom (hfix : Fixpoint E r T) (h : Table E rank r T) {a b : V}
    (hb : Reach E r b) : Anc T a b ↔ Dom E r a b := by
  constructor
  · intro ha ps hw
    exact hfix.anc_mem_walk h hw a ha
  · intro hd
    exact h.anc_of_dom _ b (Nat.le_refl _) (hfix.ne_none h hb) hd

end DominatorTable
