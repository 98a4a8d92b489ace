/-
  ShaderClippy.Lib.BackwardFlow

  **BACKWARD GEN/KILL DATAFLOW, SOLVED BY SWEEPS IN PLACE.**

  Every vertex of a graph reads some facts (`use`) and ends others (`kill`);
  a fact holds before a vertex if the vertex reads it, or does not end it and
  it holds before some successor (`Live`): if some path leads to a reader and
  ends the fact nowhere on the way (`live_iff_path`).

  `sweep` recomputes the sets of the listed vertices one after another, in
  any order, each from what is there at the time. The sets grow and never
  hold more than what is live, and the k-th sweep has covered all paths of
  fewer than k steps. No path needs more steps than there are vertices
  (`Live.within`), so two sweeps more than there are vertices give the least
  fixpoint (`iterate_liveIn`, `iterate_liveOut`).

  Sweeps that leave vertices out solve the problem without these
  (`iterate_restrict`).
-/
import Mathlib.Data.Finset.Card
import Mathlib.Data.Finset.Union
import Mathlib.Data.List.Chain

namespace BackwardFlow

/-- A graph whose vertices read and end facts. -/
structure Problem (V X : Type) where
  succ : V → List V
  use : V → Finset X
  kill : V → Finset X

variable {V X : Type} (P : Problem V X)

/-! ## §1. What is live. -/

/-- `x` is live before the vertex. -/
inductive Live (x : X) : V → Prop where
  | use {v : V} : x ∈ P.use v → Live x v
  | step {v w : V} : w ∈ P.succ v → x ∉ P.kill v → Live x w → Live x v

/-- `ps` leads from `v` to a reader of `x`, and no vertex before the last
ends `x`. -/
structure LivePath (x : X) (v : V) (ps : List V) : Prop where
  head : ps.head? = some v
  chain : ps.IsChain fun a b => b ∈ P.succ a
  reads : ∃ last, ps.getLast? = some last ∧ x ∈ P.use last
  kept : ∀ a ∈ ps.dropLast, x ∉ P.kill a

/-- **Liveness is a matter of paths.** -/
theorem live_iff_path {x : X} {v : V} : Live P x v ↔ ∃ ps, LivePath P x v ps := by
  constructor
  · intro h
    induction h with
    | @use v hv =>
        exact ⟨[v], rfl, List.isChain_singleton v, ⟨v, rfl, hv⟩,
          fun a ha => absurd ha List.not_mem_nil⟩
    | @step v w hw hk _ ih =>
        obtain ⟨ps, hhead, hchain, ⟨last, hlast, huse⟩, hkept⟩ := ih
        cases ps with
        | nil => cases hhead
        | cons q ps =>
            obtain rfl : q = w := Option.some.inj hhead
            refine ⟨v :: q :: ps, rfl, List.isChain_cons_cons.mpr ⟨hw, hchain⟩,
              ⟨last, ?_, huse⟩, ?_⟩
            · rw [List.getLast?_cons_cons]
              exact hlast
            · intro a ha
              rw [List.dropLast_cons_cons] at ha
              rcases List.mem_cons.mp ha with rfl | ha
              · exact hk
              · exact hkept a ha
  · intro ⟨ps, hps⟩
    induction ps generalizing v with
    | nil => cases hps.head
    | cons q ps ih =>
        obtain ⟨hhead, hchain, ⟨last, hlast, huse⟩, hkept⟩ := hps
        obtain rfl : q = v := Option.some.inj hhead
        cases ps with
        | nil =>
            cases hlast
            exact .use huse
        | cons w ps =>
            obtain ⟨hw, hchain⟩ := List.isChain_cons_cons.mp hchain
            rw [List.dropLast_cons_cons] at hkept
            rw [List.getLast?_cons_cons] at hlast
            refine .step hw (hkept q (List.mem_cons_self ..)) (ih ?_)
            exact ⟨rfl, hchain, ⟨last, hlast, huse⟩,
              fun a ha => hkept a (List.mem_cons_of_mem _ ha)⟩

/-- `x` is live before the vertex by a path of `k` steps at most. -/
def Within (x : X) : Nat → V → Prop
  | 0, v => x ∈ P.use v
  | k + 1, v => x ∈ P.use v ∨ (x ∉ P.kill v ∧ ∃ w ∈ P.succ v, Within x k w)

theorem Within.mono {x : X} : ∀ {k : Nat} {v : V}, Within P x k v → Within P x (k + 1) v
  | 0, _, h => .inl h
  | k + 1, _, h => by
      rcases h with h | ⟨hk, w, hw, h⟩
      · exact .inl h
      · exact .inr ⟨hk, w, hw, h.mono⟩

theorem Within.mono_le {x : X} {k l : Nat} {v : V} (hkl : k ≤ l) (h : Within P x k v) :
    Within P x l v := by
  induction hkl with
  | refl => exact h
  | step _ ih => exact ih.mono

theorem Live.exists_within {x : X} {v : V} (h : Live P x v) : ∃ k, Within P x k v := by
  induction h with
  | use hv => exact ⟨0, hv⟩
  | step hw hk _ ih =>
      obtain ⟨k, hk'⟩ := ih
      exact ⟨k + 1, .inr ⟨hk, _, hw, hk'⟩⟩

/-- The vertices have all their successors among them. -/
def Closed (vs : List V) : Prop := ∀ v ∈ vs, ∀ w ∈ P.succ v, w ∈ vs

/-- A path does not leave such vertices. -/
theorem Closed.chain {vs : List V} (h : Closed P vs) {ps : List V} {v : V} (hv : v ∈ vs)
    (hhead : ps.head? = some v) (hchain : ps.IsChain fun a b => b ∈ P.succ a) :
    ∀ a ∈ ps, a ∈ vs := by
  induction ps generalizing v with
  | nil => exact absurd hhead nofun
  | cons q ps ih =>
      obtain rfl : q = v := Option.some.inj hhead
      intro a ha
      rcases List.mem_cons.mp ha with rfl | ha
      · exact hv
      · cases ps with
        | nil => exact absurd ha List.not_mem_nil
        | cons w ps =>
            have ⟨hw, hrest⟩ := List.isChain_cons_cons.mp hchain
            exact ih (h q hv w hw) rfl hrest a ha

/-- **No path needs more steps than there are vertices**: as long as one more
step reaches a new vertex there is one vertex less to reach. -/
theorem Live.within [DecidableEq V] {vs : List V} (hclosed : Closed P vs) {x : X} {v : V}
    (hv : v ∈ vs) (h : Live P x v) : Within P x vs.length v := by
  classical
  let reached (k : Nat) : Finset V := vs.toFinset.filter fun u => Within P x k u
  have hmem : ∀ {k u}, u ∈ reached k ↔ u ∈ vs ∧ Within P x k u := by
    intro k u
    simp only [reached, Finset.mem_filter, List.mem_toFinset]
  have hsub : ∀ k, reached k ⊆ reached (k + 1) := by
    intro k u hu
    exact hmem.mpr ⟨(hmem.mp hu).1, (hmem.mp hu).2.mono⟩
  -- once a step reaches nothing new, no later step does
  have hstop : ∀ {k}, reached (k + 1) = reached k → ∀ j, reached (k + j) = reached k := by
    intro k hk j
    induction j with
    | zero => rfl
    | succ j ih =>
        refine Finset.Subset.antisymm (fun u hu => ?_) (fun u hu => ?_)
        · obtain ⟨huv, hw⟩ := hmem.mp hu
          rw [← hk]
          refine hmem.mpr ⟨huv, ?_⟩
          rcases hw with hw | ⟨hkill, w, hw, hwithin⟩
          · exact .inl hw
          · have hwj : w ∈ reached (k + j) := hmem.mpr ⟨hclosed u huv w hw, hwithin⟩
            rw [ih] at hwj
            exact .inr ⟨hkill, w, hw, (hmem.mp hwj).2⟩
        · rw [← ih] at hu
          exact hsub (k + j) hu
  -- so each step adds a vertex, or it was the last to add one
  have hgrows : ∀ k, (∀ j, reached (k + j) = reached k) ∨ k ≤ (reached k).card := by
    intro k
    induction k with
    | zero => exact .inr (Nat.zero_le _)
    | succ k ih =>
        by_cases hk : reached (k + 1) = reached k
        · refine .inl fun j => ?_
          rw [hk, Nat.add_assoc]
          exact hstop hk (1 + j)
        · rcases ih with ih | ih
          · exact absurd (ih 1) hk
          · have hlt : (reached k).card < (reached (k + 1)).card :=
              Finset.card_lt_card (Finset.ssubset_iff_subset_ne.mpr ⟨hsub k, Ne.symm hk⟩)
            exact .inr (by omega)
  obtain ⟨k, hk⟩ := h.exists_within
  rcases hgrows vs.length with hstill | hall
  · -- whatever the length of the path, `v` was reached by then
    have hreached : v ∈ reached (vs.length + k) :=
      hmem.mpr ⟨hv, hk.mono_le P (Nat.le_add_left k vs.length)⟩
    rw [hstill k] at hreached
    exact (hmem.mp hreached).2
  · -- as many are reached as there are
    have hcard : reached vs.length = vs.toFinset :=
      Finset.eq_of_subset_of_card_le (Finset.filter_subset _ _)
        (Nat.le_trans (List.toFinset_card_le vs) hall)
    have hreached : v ∈ reached vs.length := by
      rw [hcard]
      exact List.mem_toFinset.mpr hv
    exact (hmem.mp hreached).2

/-! ## §2. Sweeps. -/

/-- The facts before and after every vertex. -/
@[ext] structure Sets (V X : Type) where
  liveIn : V → Finset X
  liveOut : V → Finset X

/-- Nothing anywhere. -/
def Sets.empty : Sets V X := ⟨fun _ => ∅, fun _ => ∅⟩

/-- What holds before some successor. -/
def out [DecidableEq V] [DecidableEq X] (L : V → Finset X) (v : V) : Finset X := (P.succ v).toFinset.biUnion L

/-- What holds before the vertex. -/
def transfer [DecidableEq V] [DecidableEq X] (L : V → Finset X) (v : V) : Finset X :=
  P.use v ∪ (out P L v \ P.kill v)

variable [DecidableEq V] [DecidableEq X]

/-- Recompute the sets of one vertex. -/
def visit (s : Sets V X) (v : V) : Sets V X :=
  ⟨Function.update s.liveIn v (transfer P s.liveIn v),
    Function.update s.liveOut v (out P s.liveIn v)⟩

/-- Recompute the sets of the listed vertices in turn. -/
def sweep (vs : List V) (s : Sets V X) : Sets V X := vs.foldl (visit P) s

/-- `k` sweeps from nothing. -/
def iterate (vs : List V) : Nat → Sets V X
  | 0 => Sets.empty
  | k + 1 => sweep P vs (iterate vs k)

theorem iterate_eq (vs : List V) (k : Nat) : iterate P vs k = (sweep P vs)^[k] Sets.empty := by
  induction k with
  | zero => rfl
  | succ k ih => rw [iterate, ih, Function.iterate_succ_apply']

theorem mem_out {L : V → Finset X} {v : V} {x : X} :
    x ∈ out P L v ↔ ∃ w ∈ P.succ v, x ∈ L w := by
  simp only [out, Finset.mem_biUnion, List.mem_toFinset]

theorem mem_transfer {L : V → Finset X} {v : V} {x : X} :
    x ∈ transfer P L v ↔ x ∈ P.use v ∨ (x ∉ P.kill v ∧ ∃ w ∈ P.succ v, x ∈ L w) := by
  -- `use` and what is not killed
  rw [transfer, Finset.mem_union, Finset.mem_sdiff, mem_out]
  constructor
  · intro h
    exact h.imp id fun h => ⟨h.2, h.1⟩
  · intro h
    exact h.imp id fun h => ⟨h.2, h.1⟩

theorem transfer_mono {L L' : V → Finset X} (h : ∀ v, L v ⊆ L' v) (v : V) :
    transfer P L v ⊆ transfer P L' v := by
  intro x hx
  rw [mem_transfer] at hx ⊢
  rcases hx with hx | ⟨hk, w, hw, hx⟩
  · exact .inl hx
  · exact .inr ⟨hk, w, hw, h w hx⟩

/-! ## §3. The invariant. -/

/-- The sets hold nothing but what is live, and recomputing any of them only
adds to it. -/
structure Growing (s : Sets V X) : Prop where
  sound : ∀ v, ∀ x ∈ s.liveIn v, Live P x v
  grows : ∀ v, s.liveIn v ⊆ transfer P s.liveIn v

theorem Growing.empty : Growing P (Sets.empty : Sets V X) :=
  ⟨fun _ _ hx => absurd hx (Finset.notMem_empty _), fun _ => Finset.empty_subset _⟩

/-- What a visit leaves before `v`. -/
theorem visit_liveIn (s : Sets V X) (u v : V) :
    (visit P s u).liveIn v = if v = u then transfer P s.liveIn u else s.liveIn v :=
  Function.update_apply s.liveIn u _ v

theorem visit_liveOut (s : Sets V X) (u v : V) :
    (visit P s u).liveOut v = if v = u then out P s.liveIn u else s.liveOut v :=
  Function.update_apply s.liveOut u _ v

theorem Growing.le_visit {s : Sets V X} (h : Growing P s) (u v : V) :
    s.liveIn v ⊆ (visit P s u).liveIn v := by
  rw [visit_liveIn]
  split
  next huv =>
    rw [huv]
    exact h.grows u
  next => exact Finset.Subset.refl _

/-- **Step lemma**: a visit keeps the invariant. -/
theorem Growing.visit {s : Sets V X} (h : Growing P s) (u : V) :
    Growing P (visit P s u) := by
  constructor
  · intro v x hx
    rw [visit_liveIn] at hx
    split at hx
    next hvu =>
      rw [hvu]
      rcases (mem_transfer P).mp hx with hx | ⟨hk, w, hw, hx⟩
      · exact .use hx
      · exact .step hw hk (h.sound w x hx)
    next => exact h.sound v x hx
  · intro v
    have hmono := transfer_mono P (h.le_visit P u) v
    rw [visit_liveIn]
    split
    next hvu =>
      -- the new set is the transfer of the old facts, and there are only more of them
      rw [hvu] at hmono ⊢
      exact hmono
    next => exact Finset.Subset.trans (h.grows v) hmono

/-- **Run lemma**: so does a sweep, and it only adds. -/
theorem Growing.sweep {s : Sets V X} (h : Growing P s) (vs : List V) :
    Growing P (sweep P vs s) ∧ ∀ v, s.liveIn v ⊆ (BackwardFlow.sweep P vs s).liveIn v := by
  induction vs generalizing s with
  | nil => exact ⟨h, fun _ => Finset.Subset.refl _⟩
  | cons u vs ih =>
      obtain ⟨hgrow, hle⟩ := ih (h.visit P u)
      exact ⟨hgrow, fun v => Finset.Subset.trans (h.le_visit P u v) (hle v)⟩

theorem iterate_growing (vs : List V) (k : Nat) : Growing P (iterate P vs k) := by
  induction k with
  | zero => exact Growing.empty P
  | succ k ih => exact (ih.sweep P vs).1

/-! ## §4. How much a sweep adds. -/

/-- A sweep carries every fact one step back. -/
theorem sweep_within {vs : List V} (hclosed : Closed P vs) {s : Sets V X} (h : Growing P s)
    {x : X} {k : Nat} (hk : ∀ w ∈ vs, Within P x k w → x ∈ s.liveIn w) :
    ∀ v ∈ vs, Within P x (k + 1) v → x ∈ (sweep P vs s).liveIn v := by
  intro v hv hwithin
  obtain ⟨pre, post, hsplit⟩ := List.append_of_mem hv
  obtain ⟨hpre, hle⟩ := h.sweep P pre
  -- when its turn comes, `v` takes over what its successors have
  have hturn : x ∈ (visit P (sweep P pre s) v).liveIn v := by
    rw [visit_liveIn, if_pos rfl, mem_transfer]
    rcases hwithin with hx | ⟨hkill, w, hw, hx⟩
    · exact .inl hx
    · exact .inr ⟨hkill, w, hw, hle w (hk w (hclosed v hv w hw) hx)⟩
  have hrest := ((hpre.visit P v).sweep P post).2 v hturn
  rw [hsplit, sweep, List.foldl_append, List.foldl_cons]
  exact hrest

/-- After a sweep every vertex has read what it needs itself. -/
theorem sweep_use {vs : List V} {s : Sets V X} (h : Growing P s) {x : X} :
    ∀ v ∈ vs, x ∈ P.use v → x ∈ (sweep P vs s).liveIn v := by
  intro v hv hx
  obtain ⟨pre, post, hsplit⟩ := List.append_of_mem hv
  -- its own turn adds what it uses, and later visits only add
  have hturn : x ∈ (visit P (sweep P pre s) v).liveIn v := by
    rw [visit_liveIn, if_pos rfl, mem_transfer]
    exact .inl hx
  have hrest := (((h.sweep P pre).1.visit P v).sweep P post).2 v hturn
  rw [hsplit, sweep, List.foldl_append, List.foldl_cons]
  exact hrest

theorem iterate_within {vs : List V} (hclosed : Closed P vs) {x : X} (k : Nat) :
    ∀ v ∈ vs, Within P x k v → x ∈ (iterate P vs (k + 1)).liveIn v := by
  induction k with
  | zero => exact sweep_use P (iterate_growing P vs 0)
  | succ k ih => exact sweep_within P hclosed (iterate_growing P vs (k + 1)) ih

/-- **After one sweep more than there are vertices the sets are what is
live.** -/
theorem iterate_liveIn {vs : List V} (hclosed : Closed P vs) {k : Nat} (hk : vs.length < k)
    {v : V} (hv : v ∈ vs) {x : X} : x ∈ (iterate P vs k).liveIn v ↔ Live P x v := by
  constructor
  · exact (iterate_growing P vs k).sound v x
  · intro h
    cases k with
    | zero => omega
    | succ k =>
        -- no path needs more steps than there were sweeps
        exact iterate_within P hclosed k v hv ((h.within P hclosed hv).mono_le P (by omega))

/-- **And after one more, what follows every vertex is what is live before
its successors.** -/
theorem iterate_liveOut {vs : List V} (hclosed : Closed P vs) {k : Nat} (hk : vs.length + 1 < k)
    {v : V} (hv : v ∈ vs) : (iterate P vs k).liveOut v = out P (iterate P vs k).liveIn v := by
  cases k with
  | zero => omega
  | succ k =>
      -- whatever this sweep has done already, the facts are those that are live
      have hlive : ∀ {s : Sets V X}, Growing P s →
          (∀ w, (iterate P vs k).liveIn w ⊆ s.liveIn w) → ∀ w ∈ vs, ∀ x,
            x ∈ s.liveIn w ↔ Live P x w := by
        intro s hs hle w hw x
        refine ⟨hs.sound w x, fun hx => hle w ?_⟩
        exact (iterate_liveIn P hclosed (by omega) hw).mpr hx
      -- every state of this sweep has the same facts before the successors of `v`
      have hsame : ∀ {s t : Sets V X}, Growing P s → Growing P t →
          (∀ w, (iterate P vs k).liveIn w ⊆ s.liveIn w) →
            (∀ w, (iterate P vs k).liveIn w ⊆ t.liveIn w) →
              out P s.liveIn v = out P t.liveIn v := by
        intro s t hs ht hles hlet
        ext x
        rw [mem_out, mem_out]
        constructor
        · intro ⟨w, hw, hx⟩
          have hwv := hclosed v hv w hw
          exact ⟨w, hw, (hlive ht hlet w hwv x).mpr ((hlive hs hles w hwv x).mp hx)⟩
        · intro ⟨w, hw, hx⟩
          have hwv := hclosed v hv w hw
          exact ⟨w, hw, (hlive hs hles w hwv x).mpr ((hlive ht hlet w hwv x).mp hx)⟩
      have hbase := iterate_growing P vs k
      obtain ⟨hend, hleend⟩ := hbase.sweep P vs
      -- from the last visit of `v` on its set is not touched
      have hrun : ∀ (us : List V) (s : Sets V X), Growing P s →
          (∀ w, (iterate P vs k).liveIn w ⊆ s.liveIn w) →
            (v ∈ us ∨ s.liveOut v = out P (iterate P vs k).liveIn v) →
              (sweep P us s).liveOut v = out P (iterate P vs k).liveIn v := by
        intro us
        induction us with
        | nil =>
            intro s _ _ hor
            exact hor.resolve_left List.not_mem_nil
        | cons u us ih =>
            intro s hs hle hor
            refine ih _ (hs.visit P u)
              (fun w => Finset.Subset.trans (hle w) (hs.le_visit P u w)) ?_
            rw [visit_liveOut]
            by_cases hvu : v = u
            · rw [if_pos hvu, ← hvu]
              exact .inr (hsame hs hbase hle fun _ => Finset.Subset.refl _)
            · rw [if_neg hvu]
              exact hor.imp (fun hmem => (List.mem_cons.mp hmem).resolve_left hvu) id
      show (sweep P vs (iterate P vs k)).liveOut v = _
      rw [hrun vs _ hbase (fun _ => Finset.Subset.refl _) (.inl hv)]
      exact hsame hbase hend (fun _ => Finset.Subset.refl _) hleend

/-! ## §5. Vertices that are left out. -/

/-- The problem on the listed vertices alone. -/
def Problem.restrict (vs : List V) : Problem V X :=
  { P with succ := fun v => (P.succ v).filter fun w => decide (w ∈ vs) }

omit [DecidableEq X] in
theorem closed_restrict (vs : List V) : Closed (P.restrict vs) vs :=
  fun _ _ _ hw => of_decide_eq_true (List.mem_filter.mp hw).2

/-- Nothing holds before or after the vertices that are not listed. -/
def BlankOff (vs : List V) (s : Sets V X) : Prop := ∀ w ∉ vs, s.liveIn w = ∅ ∧ s.liveOut w = ∅

variable {vs : List V} {s : Sets V X}

/-- **Step lemma**: a visit of a listed vertex does not see the others. -/
theorem visit_restrict (hs : BlankOff vs s) {v : V} (hv : v ∈ vs) :
    visit (P.restrict vs) s v = visit P s v ∧ BlankOff vs (visit P s v) := by
  -- a successor that is not listed holds nothing
  have hout : out (P.restrict vs) s.liveIn v = out P s.liveIn v := by
    ext x
    rw [mem_out, mem_out]
    constructor
    · intro ⟨w, hw, hx⟩
      exact ⟨w, (List.mem_filter.mp hw).1, hx⟩
    · intro ⟨w, hw, hx⟩
      refine ⟨w, List.mem_filter.mpr ⟨hw, decide_eq_true ?_⟩, hx⟩
      by_contra hoff
      rw [(hs w hoff).1] at hx
      exact absurd hx (Finset.notMem_empty x)
  constructor
  · unfold visit transfer
    rw [hout]
    rfl
  · intro w hw
    -- and the visit does not touch it
    have hne : w ≠ v := fun heq => hw (heq ▸ hv)
    rw [visit_liveIn, visit_liveOut, if_neg hne, if_neg hne]
    exact hs w hw

/-- **Run lemma**: nor does a sweep of listed vertices. -/
theorem sweep_restrict {us : List V} (hus : ∀ u ∈ us, u ∈ vs) (hs : BlankOff vs s) :
    sweep (P.restrict vs) us s = sweep P us s ∧ BlankOff vs (sweep P us s) := by
  induction us generalizing s with
  | nil => exact ⟨rfl, hs⟩
  | cons u us ih =>
      have ⟨heq, hblank⟩ := visit_restrict P hs (hus u (List.mem_cons_self ..))
      have hrest := ih (fun w hw => hus w (List.mem_cons_of_mem _ hw)) hblank
      show sweep (P.restrict vs) us (visit (P.restrict vs) s u) = _ ∧ _
      rw [heq]
      exact hrest

/-- **Sweeps solve the problem on the listed vertices.** -/
theorem iterate_restrict (vs : List V) (k : Nat) :
    iterate (P.restrict vs) vs k = iterate P vs k ∧ BlankOff vs (iterate P vs k) := by
  induction k with
  | zero => exact ⟨rfl, fun _ _ => ⟨rfl, rfl⟩⟩
  | succ k ih =>
      have hsweep := sweep_restrict P (fun _ hu => hu) ih.2
      show sweep (P.restrict vs) vs (iterate (P.restrict vs) vs k) = _ ∧ _
      rw [ih.1]
      exact hsweep

end BackwardFlow
