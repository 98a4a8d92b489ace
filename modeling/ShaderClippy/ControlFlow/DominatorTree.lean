/-
  ShaderClippy.ControlFlow.DominatorTree

  **`compute_dominators` TERMINATES AND IS CORRECT.**

  The list tables of the code are read as the parent tables of
  `Lib.ParentTable`, the postorder numbers as ranks. Bottom up:

    • `intersect` returns the nearest common ancestor   (`intersect_spec`)
    • the predecessor loop folds it                     (`newIdomLoop_spec`)
    • a sweep is a pass of `Lib.DominatorTable`         (`sweepBlocks_spec`)
    • every sweep but the last makes progress           (`iterate_spec`)
    • the parent walk of `dominates_query` finds exactly the ancestors
                                                        (`dominatesWalk_iff`)
-/
import Mathlib.Data.List.Nodup
import Mathlib.Data.List.Pairwise
import Mathlib.Data.List.Perm.Subperm
import ShaderClippy.ControlFlow.Postorder
import ShaderClippy.Lib.DominatorTable

namespace ShaderClippy.ControlFlow

open Graph DominatorTable ParentTable
open Loop (Turn TurnOk loop loop_spec)

variable {fn : CfgFunction} {rpo : List Nat}

/-! ## §1. Postorder numbers are ranks. -/

theorem numberFrom_of_not_mem {size b : Nat} :
    ∀ (bs : List Nat) (i : Nat) (post : List Nat), b ∉ bs →
      (numberFrom size i bs post).getD b 0 = post.getD b 0 := by
  intro bs
  induction bs with
  | nil => intro i post _; rfl
  | cons c bs ih =>
      intro i post hb
      rw [List.mem_cons, not_or] at hb
      obtain ⟨hne, hbs⟩ := hb
      rw [numberFrom, ih _ _ hbs, List.getD_eq_getElem?_getD, List.getD_eq_getElem?_getD,
        List.getElem?_set_ne (Ne.symm hne)]

/-- Numbers fall along the list and stay below `size - i`. -/
theorem numberFrom_pairwise {size : Nat} :
    ∀ (bs : List Nat) (i : Nat) (post : List Nat), bs.Nodup → (∀ b ∈ bs, b < post.length) →
      i + bs.length ≤ size →
      bs.Pairwise (fun a b =>
          (numberFrom size i bs post).getD b 0 < (numberFrom size i bs post).getD a 0)
        ∧ ∀ b ∈ bs, (numberFrom size i bs post).getD b 0 + i + 1 ≤ size := by
  intro bs
  induction bs with
  | nil => intro i post _ _ _; exact ⟨List.Pairwise.nil, fun b hb => absurd hb List.not_mem_nil⟩
  | cons c bs ih =>
      intro i post hnd hlt hsize
      obtain ⟨hc, hbs⟩ := List.nodup_cons.mp hnd
      rw [List.length_cons] at hsize
      obtain ⟨hpair, hbound⟩ := ih (i + 1) (post.set c (size - 1 - i)) hbs
        (fun b hb => by rw [List.length_set]; exact hlt b (List.mem_cons_of_mem _ hb)) (by omega)
      have hhead : (numberFrom size (i + 1) bs (post.set c (size - 1 - i))).getD c 0
          = size - 1 - i := by
        rw [numberFrom_of_not_mem bs _ _ hc, List.getD_eq_getElem?_getD,
          List.getElem?_set_self (hlt c (List.mem_cons_self ..))]
        rfl
      rw [numberFrom]
      refine ⟨List.pairwise_cons.mpr ⟨fun b hb => ?_, hpair⟩, fun b hb => ?_⟩
      · have := hbound b hb
        omega
      · rcases List.mem_cons.mp hb with rfl | hb
        · omega
        · have := hbound b hb
          omega

/-- The rank of a block. -/
def rankIn (post : List Nat) (b : Nat) : Nat := post.getD b 0

theorem IsReversePostorder.pairwise (h : IsReversePostorder fn rpo) (h0 : 0 < fn.blocks.length) :
    rpo.Pairwise fun a b => rankIn (postorderNum fn rpo) b < rankIn (postorderNum fn rpo) a := by
  refine (numberFrom_pairwise rpo 0 _ h.nodup ?_ (Nat.le_of_eq (Nat.zero_add _))).1
  intro b hb
  rw [List.length_replicate]
  exact CfgFunction.lt_of_reach h0 ((h.mem_iff b).mp hb)

theorem IsReversePostorder.rank_lt (h : IsReversePostorder fn rpo) (h0 : 0 < fn.blocks.length)
    {b : Nat} (hb : b ∈ rpo) : rankIn (postorderNum fn rpo) b < rpo.length := by
  have hlen : ∀ b ∈ rpo, b < (List.replicate fn.blocks.length 0).length := by
    intro b hb
    rw [List.length_replicate]
    exact CfgFunction.lt_of_reach h0 ((h.mem_iff b).mp hb)
  have hbound := (numberFrom_pairwise rpo 0 _ h.nodup hlen (Nat.le_of_eq (Nat.zero_add _))).2 b hb
  unfold rankIn postorderNum
  omega

theorem IsReversePostorder.length_le (h : IsReversePostorder fn rpo)
    (h0 : 0 < fn.blocks.length) : rpo.length ≤ fn.blocks.length := by
  have hsub : rpo ⊆ List.range fn.blocks.length := fun v hv =>
    List.mem_range.mpr (CfgFunction.lt_of_reach h0 ((h.mem_iff v).mp hv))
  have hle := (List.Nodup.subperm h.nodup hsub).length_le
  rwa [List.length_range] at hle

/-- Reverse postorder starts with the entry: any other first block would
have a predecessor before it. -/
theorem IsReversePostorder.eq_cons (h : IsReversePostorder fn rpo) : ∃ bs, rpo = 0 :: bs := by
  have hzero : 0 ∈ rpo := (h.mem_iff 0).mpr Relation.ReflTransGen.refl
  cases hr : rpo with
  | nil =>
      rw [hr] at hzero
      exact absurd hzero List.not_mem_nil
  | cons x bs =>
      by_cases hx : x = 0
      · exact ⟨bs, by rw [hx]⟩
      · obtain ⟨p, -, hsub⟩ := h.above x (by rw [hr]; exact List.mem_cons_self ..) hx
        have hnd := h.nodup
        rw [hr] at hsub hnd
        have hxbs : x ∉ bs := (List.nodup_cons.mp hnd).1
        have hmem : x ∈ bs := by
          cases hsub with
          | cons _ hsub => exact hsub.subset (by simp)
          | cons_cons _ hsub => exact hsub.subset (by simp)
        exact absurd hmem hxbs

/-- **Postorder numbers number the reachable part.** -/
theorem IsReversePostorder.numbering (h : IsReversePostorder fn rpo)
    (h0 : 0 < fn.blocks.length) :
    Numbering fn.Edge (rankIn (postorderNum fn rpo)) 0 := by
  have hpair := h.pairwise h0
  refine ⟨?_, ?_, ?_⟩
  · intro b c hb hc hrank
    by_contra hne
    have hsymm : Std.Symm fun a b : Nat =>
        rankIn (postorderNum fn rpo) a ≠ rankIn (postorderNum fn rpo) b := ⟨fun _ _ h => h.symm⟩
    have hdiff := hpair.imp fun hlt => (Nat.ne_of_lt hlt).symm
    exact hdiff.forall ((h.mem_iff b).mpr hb) ((h.mem_iff c).mpr hc) hne hrank
  · intro b hb
    obtain ⟨bs, hbs⟩ := h.eq_cons
    have hmem := (h.mem_iff b).mpr hb
    rw [hbs] at hmem
    rcases List.mem_cons.mp hmem with rfl | hmem
    · exact Nat.le_refl _
    · have hp := hpair
      generalize hpost : postorderNum fn rpo = post at hp ⊢
      rw [hbs] at hp
      exact Nat.le_of_lt ((List.pairwise_cons.mp hp).1 b hmem)
  · intro v hv hv0
    obtain ⟨p, he, hsub⟩ := h.above v ((h.mem_iff v).mpr hv) hv0
    refine ⟨p, (h.mem_iff p).mp (hsub.subset (by simp)), he, hpair.forall_sublist hsub⟩

/-! ## §2. `intersect` returns the nearest common ancestor. -/

/-- The list table as a parent table. -/
def tableOf (idom : List (Option Nat)) (b : Nat) : Option Nat := idom.getD b none

section Intersect

variable {idom : List (Option Nat)} {post : List Nat}

/-- Climbing from `b` stops at its first ancestor not below `target`. -/
theorem climb_spec (h : Ranked (tableOf idom) (rankIn post) 0) {b target : Nat}
    (hb : tableOf idom b ≠ none) (ht : tableOf idom target ≠ none) {fuel : Nat}
    (hfuel : rankIn post 0 - rankIn post b < fuel) :
    ∃ c, loop (climbStep idom post target) fuel b = some (some c)
      ∧ Anc (tableOf idom) c b ∧ rankIn post target ≤ rankIn post c
      ∧ (∀ d, Anc (tableOf idom) d b → rankIn post target ≤ rankIn post d →
          Anc (tableOf idom) d c)
      ∧ (rankIn post target ≤ rankIn post b → c = b) := by
  have hstep : ∀ s, (Anc (tableOf idom) s b
        ∧ (∀ d, Anc (tableOf idom) d b → rankIn post target ≤ rankIn post d →
            Anc (tableOf idom) d s)
        ∧ (rankIn post target ≤ rankIn post b → s = b)) →
      TurnOk (fun s => Anc (tableOf idom) s b
          ∧ (∀ d, Anc (tableOf idom) d b → rankIn post target ≤ rankIn post d →
              Anc (tableOf idom) d s)
          ∧ (rankIn post target ≤ rankIn post b → s = b))
        (fun s => rankIn post 0 - rankIn post s)
        (fun r => ∃ c, r = some c ∧ Anc (tableOf idom) c b ∧ rankIn post target ≤ rankIn post c
          ∧ (∀ d, Anc (tableOf idom) d b → rankIn post target ≤ rankIn post d →
              Anc (tableOf idom) d c)
          ∧ (rankIn post target ≤ rankIn post b → c = b))
        s (climbStep idom post target s) := by
    rintro s ⟨hanc, hlow, hstay⟩
    have hs : tableOf idom s ≠ none := hanc.ne_none h hb
    unfold climbStep
    split
    next hlt =>
      obtain ⟨p, hp⟩ := Option.ne_none_iff_exists'.mp hs
      have hsr : s ≠ 0 := by
        rintro rfl
        exact absurd (h.top target ht) (Nat.not_le.mpr hlt)
      obtain ⟨hclimb, hpn⟩ := h.climb s p hp hsr
      have hps : p ≠ s := by
        rintro rfl
        exact absurd hclimb (Nat.lt_irrefl _)
      have hp' : idom.getD s none = some p := hp
      rw [hp']
      simp only
      rw [if_neg hps]
      refine ⟨⟨Anc.trans (Anc.of_parent hp (Anc.refl _ p)) hanc, ?_, ?_⟩, ?_⟩
      · intro d hd hdt
        rcases (hlow d hd hdt).cases with rfl | ⟨q, hq, hdq⟩
        · exact absurd hdt (Nat.not_le.mpr hlt)
        · rw [hp] at hq
          rw [Option.some.inj hq]
          exact hdq
      · intro hle
        rw [hstay hle] at hlt
        exact absurd hle (Nat.not_le.mpr hlt)
      · have := h.top p hpn
        simp only
        omega
    next hge => exact ⟨s, rfl, hanc, Nat.not_lt.mp hge, hlow, hstay⟩
  obtain ⟨r, hr, c, rfl, hpost⟩ :=
    loop_spec hstep fuel b ⟨Anc.refl _ b, fun d hd _ => hd, fun _ => rfl⟩ hfuel
  exact ⟨c, hr, hpost⟩

/-- The common ancestors of two blocks. -/
def Common (idom : List (Option Nat)) (x y d : Nat) : Prop :=
  Anc (tableOf idom) d x ∧ Anc (tableOf idom) d y

/-- One turn keeps the common ancestors and climbs. -/
theorem intersectStep_ok (h : Ranked (tableOf idom) (rankIn post) 0)
    (htop : rankIn post 0 ≤ idom.length) (x y : Nat) (s : Nat × Nat)
    (hs : tableOf idom s.1 ≠ none ∧ tableOf idom s.2 ≠ none
      ∧ ∀ d, Common idom s.1 s.2 d ↔ Common idom x y d) :
    TurnOk (fun s => tableOf idom s.1 ≠ none ∧ tableOf idom s.2 ≠ none
        ∧ ∀ d, Common idom s.1 s.2 d ↔ Common idom x y d)
      (fun s => 2 * rankIn post 0 - (rankIn post s.1 + rankIn post s.2))
      (fun r => ∃ c, r = some c ∧ tableOf idom c ≠ none
        ∧ ∀ d, Anc (tableOf idom) d c ↔ Common idom x y d)
      s (intersectStep idom post s) := by
  obtain ⟨b1, b2⟩ := s
  obtain ⟨h1, h2, hcommon⟩ := hs
  simp only at h1 h2 hcommon
  unfold intersectStep
  simp only
  split
  next heq =>
    subst heq
    refine ⟨b1, rfl, h1, fun d => ?_⟩
    rw [← hcommon d]
    exact (and_self_iff).symm
  next hne =>
    obtain ⟨c1, hc1, hanc1, hge1, hlow1, hstay1⟩ :=
      climb_spec h h1 h2 (Nat.lt_succ_of_le (Nat.le_trans (Nat.sub_le _ _) htop))
    have hn1 : tableOf idom c1 ≠ none := hanc1.ne_none h h1
    obtain ⟨c2, hc2, hanc2, hge2, hlow2, -⟩ :=
      climb_spec h h2 hn1 (Nat.lt_succ_of_le (Nat.le_trans (Nat.sub_le _ _) htop))
    have hn2 : tableOf idom c2 ≠ none := hanc2.ne_none h h2
    rw [hc1]
    simp only
    rw [hc2]
    simp only
    have hinj : ¬ ((decide (post.getD c1 0 = post.getD c2 0) && decide (c1 ≠ c2)) = true) := by
      rw [Bool.and_eq_true, decide_eq_true_eq, decide_eq_true_eq]
      rintro ⟨heq, hne'⟩
      exact hne' (h.inj c1 c2 hn1 hn2 heq)
    rw [if_neg hinj]
    refine ⟨⟨hn1, hn2, fun d => ?_⟩, ?_⟩
    · rw [← hcommon d]
      constructor
      · rintro ⟨hd1, hd2⟩
        exact ⟨hd1.trans hanc1, hd2.trans hanc2⟩
      · rintro ⟨hd1, hd2⟩
        have hd1' : Anc (tableOf idom) d c1 := hlow1 d hd1 (hd2.rank_le h)
        exact ⟨hd1', hlow2 d hd2 (hd1'.rank_le h)⟩
    · -- one of the two sides has moved up
      have hle1 := hanc1.rank_le h
      have hle2 := hanc2.rank_le h
      have hb1 := h.top c1 hn1
      have hb2 := h.top c2 hn2
      have hdiff : rankIn post b1 ≠ rankIn post b2 := fun heq => hne (h.inj b1 b2 h1 h2 heq)
      simp only
      by_cases hlt : rankIn post b1 < rankIn post b2
      · omega
      · have hcb : c1 = b1 := hstay1 (by omega)
        rw [hcb] at hge2 ⊢
        omega

/-- **`intersect` terminates in the nearest common ancestor.** -/
theorem intersect_spec (h : Ranked (tableOf idom) (rankIn post) 0)
    (htop : rankIn post 0 ≤ idom.length) {x y : Nat} (hx : tableOf idom x ≠ none)
    (hy : tableOf idom y ≠ none) :
    ∃ c, intersect x y idom post = some (some c) ∧ tableOf idom c ≠ none
      ∧ ∀ d, Anc (tableOf idom) d c ↔ Common idom x y d := by
  obtain ⟨r, hr, c, rfl, hc⟩ := loop_spec (intersectStep_ok h htop x y)
    (2 * idom.length + 1) (x, y) ⟨hx, hy, fun d => Iff.rfl⟩ (by simp only; omega)
  exact ⟨c, hr, hc⟩

/-! ## §3. The loop over the predecessors. -/

/-- The value so far: the nearest common ancestor of `Q`, `none` for no block. -/
def AccOk (idom : List (Option Nat)) (Q : Nat → Prop) : Option Nat → Prop
  | none => ∀ q, ¬ Q q
  | some d => tableOf idom d ≠ none ∧ IsNca (tableOf idom) d Q

theorem newIdomLoop_spec (h : Ranked (tableOf idom) (rankIn post) 0)
    (htop : rankIn post 0 ≤ idom.length) :
    ∀ (ps : List Nat) (Q : Nat → Prop) (acc : Option Nat), AccOk idom Q acc →
      ∃ r, newIdomLoop idom post ps acc = some r
        ∧ AccOk idom (fun q => Q q ∨ (q ∈ ps ∧ tableOf idom q ≠ none)) r := by
  have hcongr : ∀ {Q Q' : Nat → Prop} {r : Option Nat}, (∀ q, Q q ↔ Q' q) →
      AccOk idom Q r → AccOk idom Q' r := by
    intro Q Q' r hQ hr
    have hQQ : Q = Q' := funext fun q => propext (hQ q)
    rw [← hQQ]
    exact hr
  intro ps
  induction ps with
  | nil =>
      intro Q acc hacc
      exact ⟨acc, rfl, hcongr (fun q => by simp) hacc⟩
  | cons p ps ih =>
      intro Q acc hacc
      unfold newIdomLoop
      cases hp : idom.getD p none with
      | none =>
          obtain ⟨r, hr, hok⟩ := ih Q acc hacc
          refine ⟨r, hr, hcongr (fun q => ?_) hok⟩
          have hpn : tableOf idom p = none := hp
          rw [List.mem_cons]
          constructor
          · rintro (hq | ⟨hq, hqn⟩)
            · exact Or.inl hq
            · exact Or.inr ⟨Or.inr hq, hqn⟩
          · rintro (hq | ⟨rfl | hq, hqn⟩)
            · exact Or.inl hq
            · exact absurd hpn hqn
            · exact Or.inr ⟨hq, hqn⟩
      | some parent =>
          have hpn : tableOf idom p ≠ none := by
            rw [tableOf, hp]
            exact Option.some_ne_none _
          -- whatever the value so far, it is now the one for `Q` and `p`
          suffices hnext : ∀ d, tableOf idom d ≠ none →
              IsNca (tableOf idom) d (fun q => Q q ∨ q = p) →
              ∃ r, newIdomLoop idom post ps (some d) = some r
                ∧ AccOk idom (fun q => Q q ∨ (q ∈ p :: ps ∧ tableOf idom q ≠ none)) r by
            cases acc with
            | none =>
                refine hnext p hpn fun d => ⟨?_, fun hd => hd p (Or.inr rfl)⟩
                rintro hd q (hq | rfl)
                · exact absurd hq (hacc q)
                · exact hd
            | some e =>
                obtain ⟨c, hc, hcn, hcommon⟩ := intersect_spec h htop hpn hacc.1
                simp only
                rw [hc]
                refine hnext c hcn fun d => ?_
                rw [hcommon d, Common, hacc.2 d]
                constructor
                · rintro ⟨h1, h2⟩ q (hq | rfl)
                  · exact h2 q hq
                  · exact h1
                · intro hd
                  exact ⟨hd p (Or.inr rfl), fun q hq => hd q (Or.inl hq)⟩
          intro d hdn hd
          obtain ⟨r, hr, hok⟩ := ih (fun q => Q q ∨ q = p) (some d) ⟨hdn, hd⟩
          refine ⟨r, hr, hcongr (fun q => ?_) hok⟩
          rw [List.mem_cons]
          constructor
          · rintro ((hq | rfl) | ⟨hq, hqn⟩)
            · exact Or.inl hq
            · exact Or.inr ⟨Or.inl rfl, hpn⟩
            · exact Or.inr ⟨Or.inr hq, hqn⟩
          · rintro (hq | ⟨rfl | hq, hqn⟩)
            · exact Or.inl (Or.inl hq)
            · exact Or.inl (Or.inr rfl)
            · exact Or.inr ⟨hq, hqn⟩

end Intersect

theorem mem_computePredecessors {b p : Nat} (hb : b < fn.blocks.length) :
    p ∈ (computePredecessors fn).getD b [] ↔ fn.Edge p b := by
  have hget : (computePredecessors fn).getD b []
      = (List.range fn.blocks.length).flatMap fun u =>
          ((fn.successors u).filter (· = b)).map fun _ => u := by
    rw [computePredecessors, List.getD_eq_getElem?_getD, List.getElem?_map,
      List.getElem?_range hb]
    rfl
  rw [hget, List.mem_flatMap]
  constructor
  · rintro ⟨u, -, hu⟩
    obtain ⟨s, hs, rfl⟩ := List.mem_map.mp hu
    obtain ⟨hs1, hs2⟩ := List.mem_filter.mp hs
    rw [decide_eq_true_eq] at hs2
    rw [hs2] at hs1
    exact ⟨hs1, hb⟩
  · intro he
    refine ⟨p, List.mem_range.mpr he.src_lt, List.mem_map.mpr ⟨b, ?_, rfl⟩⟩
    exact List.mem_filter.mpr ⟨he.1, by simp⟩

/-! ## §4. One sweep. -/

theorem tableOf_set {idom : List (Option Nat)} {b new : Nat} (hb : b < idom.length) :
    tableOf (idom.set b (some new)) = Function.update (tableOf idom) b (some new) := by
  funext x
  by_cases hx : x = b
  · subst hx
    rw [Function.update_self, tableOf, List.getD_eq_getElem?_getD,
      List.getElem?_set_self hb]
    rfl
  · rw [Function.update_of_ne hx, tableOf, tableOf, List.getD_eq_getElem?_getD,
      List.getD_eq_getElem?_getD, List.getElem?_set_ne (Ne.symm hx)]

/-- The sweep started at the table `start` and has visited `done`. -/
structure SweepInv (fn : CfgFunction) (rpo : List Nat) (start : List (Option Nat)) (s : Sweep)
    (done : List Nat) : Prop where
  length : s.idom.length = fn.blocks.length
  pass : PassInv fn.Edge (rankIn (postorderNum fn rpo)) 0 (tableOf start) (tableOf s.idom)
    (· ∈ done)
  progress :
    (s.changed = true ∧ potential (rankIn (postorderNum fn rpo)) rpo (tableOf start)
        < potential (rankIn (postorderNum fn rpo)) rpo (tableOf s.idom))
      ∨ (s.changed = false ∧ s.idom = start ∧ ∀ v ∈ done, v ≠ 0 →
          ∃ q, tableOf start v = some q
            ∧ IsNca (tableOf start) q (Known fn.Edge (tableOf start) v))

/-- What is swept before a block: higher blocks, and all that lead forward to it. -/
theorem IsReversePostorder.swept (hrpo : IsReversePostorder fn rpo) (h0 : 0 < fn.blocks.length)
    {done bs : List Nat} {b : Nat} (hsplit : rpo = done ++ b :: bs) :
    (∀ u, u ∈ done → rankIn (postorderNum fn rpo) b < rankIn (postorderNum fn rpo) u)
      ∧ ∀ p, Forward fn.Edge (rankIn (postorderNum fn rpo)) 0 p b → p ∈ done := by
  have hpair := hrpo.pairwise h0
  set post := postorderNum fn rpo
  rw [hsplit] at hpair
  obtain ⟨-, hbehind, hbefore⟩ := List.pairwise_append.mp hpair
  refine ⟨fun u hu => hbefore u hu b (List.mem_cons_self ..), fun p hp => ?_⟩
  have hpmem : p ∈ rpo := (hrpo.mem_iff p).mpr hp.reach
  rw [hsplit] at hpmem
  rcases List.mem_append.mp hpmem with hpd | hpd
  · exact hpd
  · exfalso
    rcases List.mem_cons.mp hpd with rfl | hpd
    · exact absurd hp.higher (Nat.lt_irrefl _)
    · have hlower := (List.pairwise_cons.mp hbehind).1 p hpd
      have hhigher := hp.higher
      omega

/-- **The loop over the predecessors** computes their nearest common ancestor. -/
theorem newIdomLoop_isNca (hrpo : IsReversePostorder fn rpo) (h0 : 0 < fn.blocks.length)
    {start : List (Option Nat)} {s : Sweep} {done : List Nat} {b : Nat}
    (h : SweepInv fn rpo start s done) (hb : Reach fn.Edge 0 b) (hb0 : b ≠ 0)
    (hnext : ∀ p, Forward fn.Edge (rankIn (postorderNum fn rpo)) 0 p b → p ∈ done) :
    ∃ new, newIdomLoop s.idom (postorderNum fn rpo) ((computePredecessors fn).getD b []) none
        = some (some new)
      ∧ IsNca (tableOf s.idom) new (Known fn.Edge (tableOf s.idom) b) := by
  have hblt : b < fn.blocks.length := CfgFunction.lt_of_reach h0 hb
  have htop : rankIn (postorderNum fn rpo) 0 ≤ s.idom.length := by
    have hrank := hrpo.rank_lt h0 ((hrpo.mem_iff 0).mpr Relation.ReflTransGen.refl)
    have hlen := hrpo.length_le h0
    rw [h.length]
    omega
  obtain ⟨r, hr, hok⟩ := newIdomLoop_spec h.pass.table.ranked htop
    ((computePredecessors fn).getD b []) (fun _ => False) none (fun _ hq => hq)
  have hknown : (fun q => False ∨ (q ∈ (computePredecessors fn).getD b []
      ∧ tableOf s.idom q ≠ none)) = Known fn.Edge (tableOf s.idom) b := by
    funext q
    rw [false_or, mem_computePredecessors hblt]
    rfl
  rw [hknown] at hok
  cases r with
  | some new => exact ⟨new, hr, hok.2⟩
  | none =>
      -- a predecessor that leads forward to `b` is swept already
      obtain ⟨p, hp⟩ := (hrpo.numbering h0).forward b hb hb0
      exact absurd ⟨hp.edge, (h.pass.settled p (hnext p hp)).1⟩ (hok p)

/-- **Step lemma of the sweep.** -/
theorem sweepBlock_spec (hrpo : IsReversePostorder fn rpo) (h0 : 0 < fn.blocks.length)
    {start : List (Option Nat)} {s : Sweep} {done bs : List Nat} {b : Nat}
    (hS : Settled fn.Edge (rankIn (postorderNum fn rpo)) 0 (tableOf start))
    (h : SweepInv fn rpo start s done) (hsplit : rpo = done ++ b :: bs) (hzero : 0 ∈ done) :
    ∃ s', sweepBlock (postorderNum fn rpo) (computePredecessors fn) s b = some s'
      ∧ SweepInv fn rpo start s' (done ++ [b]) := by
  have hnum := hrpo.numbering h0
  obtain ⟨hdone, hnext⟩ := hrpo.swept h0 hsplit
  have hmem : b ∈ rpo := by
    rw [hsplit]
    exact List.mem_append_right _ (List.mem_cons_self ..)
  have hb : Reach fn.Edge 0 b := (hrpo.mem_iff b).mp hmem
  have hblt : b < fn.blocks.length := CfgFunction.lt_of_reach h0 hb
  have hb0 : b ≠ 0 := by
    rintro rfl
    exact absurd (hdone 0 hzero) (Nat.lt_irrefl _)
  obtain ⟨new, hr, hnca⟩ := newIdomLoop_isNca hrpo h0 h hb hb0 hnext
  -- the invariant of the pass, whether the entry changes or not
  have hvisit := h.pass.visit hS hnum hb hb0 hdone hnext hnca
  have hdoneEq : (fun x => x ∈ done ∨ x = b) = (· ∈ done ++ [b]) := by
    funext x
    rw [List.mem_append, List.mem_singleton]
  rw [hdoneEq] at hvisit
  set post := postorderNum fn rpo with hpost
  unfold sweepBlock
  rw [hr]
  simp only
  split
  next hne =>
    refine ⟨_, rfl, by rw [List.length_set]; exact h.length, ?_, ?_⟩
    · rw [tableOf_set (by rw [h.length]; exact hblt)]
      exact hvisit
    · refine Or.inl ⟨rfl, ?_⟩
      rw [tableOf_set (by rw [h.length]; exact hblt), ← hpost]
      -- a change raises the potential
      have hlt : potential (rankIn post) rpo (tableOf s.idom)
          < potential (rankIn post) rpo (Function.update (tableOf s.idom) b (some new)) :=
        h.pass.potential_lt hS hnum hb hb0 hdone hnca hmem hne
      rcases h.progress with ⟨-, hprog⟩ | ⟨-, hsame, -⟩
      · exact Nat.lt_trans hprog hlt
      · rw [hsame] at hlt ⊢
        exact hlt
  next heq =>
    -- the entry is already the nearest common ancestor
    have heq' : tableOf s.idom b = some new := by
      by_contra hne
      exact heq hne
    rw [← heq', Function.update_eq_self] at hvisit
    refine ⟨s, rfl, h.length, hvisit, ?_⟩
    rcases h.progress with hprog | ⟨hflag, hsame, hfix⟩
    · exact Or.inl hprog
    · refine Or.inr ⟨hflag, hsame, fun v hv hv0 => ?_⟩
      rcases List.mem_append.mp hv with hv | hv
      · exact hfix v hv hv0
      · rw [List.mem_singleton.mp hv]
        rw [hsame] at heq' hnca
        exact ⟨new, heq', hnca⟩

/-- **Run lemma of the sweep.** -/
theorem sweepBlocks_spec (hrpo : IsReversePostorder fn rpo) (h0 : 0 < fn.blocks.length)
    {start : List (Option Nat)}
    (hS : Settled fn.Edge (rankIn (postorderNum fn rpo)) 0 (tableOf start)) :
    ∀ (bs done : List Nat) (s : Sweep), SweepInv fn rpo start s done → rpo = done ++ bs →
      0 ∈ done →
      ∃ s', sweepBlocks (postorderNum fn rpo) (computePredecessors fn) bs s = some s'
        ∧ SweepInv fn rpo start s' rpo := by
  intro bs
  induction bs with
  | nil =>
      intro done s h hsplit _
      rw [List.append_nil] at hsplit
      exact ⟨s, rfl, hsplit ▸ h⟩
  | cons b bs ih =>
      intro done s h hsplit hzero
      obtain ⟨s', hs', h'⟩ := sweepBlock_spec hrpo h0 hS h hsplit hzero
      rw [sweepBlocks, hs']
      exact ih (done ++ [b]) s' h' (by rw [hsplit]; simp) (List.mem_append_left _ hzero)

/-! ## §5. The outer loop. -/

/-- Between two sweeps. -/
def SettledList (fn : CfgFunction) (rpo : List Nat) (idom : List (Option Nat)) : Prop :=
  idom.length = fn.blocks.length
    ∧ Settled fn.Edge (rankIn (postorderNum fn rpo)) 0 (tableOf idom)

theorem iterateStep_ok (hrpo : IsReversePostorder fn rpo) (h0 : 0 < fn.blocks.length)
    (idom : List (Option Nat)) (h : SettledList fn rpo idom) :
    TurnOk (SettledList fn rpo)
      (fun idom => rpo.length * rpo.length
        - potential (rankIn (postorderNum fn rpo)) rpo (tableOf idom))
      (fun idom => SettledList fn rpo idom ∧ Fixpoint fn.Edge 0 (tableOf idom))
      idom (iterateStep rpo (postorderNum fn rpo) (computePredecessors fn) idom) := by
  obtain ⟨hlen, hS⟩ := h
  obtain ⟨bs, hbs⟩ := hrpo.eq_cons
  have hstart : SweepInv fn rpo idom ⟨idom, false⟩ [0] := by
    refine ⟨hlen, ?_, Or.inr ⟨rfl, rfl, fun v hv hv0 => absurd (List.mem_singleton.mp hv) hv0⟩⟩
    have hdone : (· ∈ [0]) = (· = 0) := by
      funext x
      rw [List.mem_singleton]
    rw [hdone]
    exact PassInv.start hS
  obtain ⟨s, hs, hinv⟩ := sweepBlocks_spec hrpo h0 hS rpo.tail [0] ⟨idom, false⟩ hstart
    (by rw [hbs]; rfl) (List.mem_singleton_self _)
  have hsettled : SettledList fn rpo s.idom :=
    ⟨hinv.length, hinv.pass.finish fun v hv => (hrpo.mem_iff v).mpr hv⟩
  unfold iterateStep
  rw [hs]
  simp only
  rcases hinv.progress with ⟨hflag, hprog⟩ | ⟨hflag, hsame, hfix⟩
  · rw [hflag, if_pos rfl]
    refine ⟨hsettled, ?_⟩
    have hbound : potential (rankIn (postorderNum fn rpo)) rpo (tableOf s.idom)
        ≤ rpo.length * rpo.length := by
      refine potential_le rpo rpo.length fun v p hp => ?_
      have hpn : tableOf s.idom p ≠ none := hsettled.2.table.ranked.parent_ne_none hp
      exact hrpo.rank_lt h0 ((hrpo.mem_iff p).mpr (hsettled.2.table.reach p hpn))
    simp only
    omega
  · rw [hflag]
    refine ⟨hsettled, fun v hv hv0 => ?_⟩
    rw [hsame]
    exact hfix v ((hrpo.mem_iff v).mpr hv) hv0

/-- The first table knows the entry block only. -/
theorem settledList_start (h0 : 0 < fn.blocks.length) :
    SettledList fn rpo ((List.replicate fn.blocks.length none).set 0 (some 0)) := by
  have htable : ∀ b, b ≠ 0 →
      tableOf ((List.replicate fn.blocks.length none).set 0 (some 0)) b = none := by
    intro b hb
    rw [tableOf_set (by rw [List.length_replicate]; exact h0), Function.update_of_ne hb, tableOf,
      List.getD_eq_getElem?_getD, List.getElem?_replicate]
    split <;> rfl
  have hroot : tableOf ((List.replicate fn.blocks.length none).set 0 (some 0)) 0 = some 0 := by
    rw [tableOf_set (by rw [List.length_replicate]; exact h0), Function.update_self]
  have honly : ∀ b, tableOf ((List.replicate fn.blocks.length none).set 0 (some 0)) b ≠ none →
      b = 0 := by
    intro b hb
    by_contra hne
    exact hb (htable b hne)
  have hvac : ∀ {b p : Nat} {P : Prop},
      tableOf ((List.replicate fn.blocks.length none).set 0 (some 0)) b = some p → b ≠ 0 → P := by
    intro b p P hp hb
    rw [htable b hb] at hp
    exact absurd hp (by simp)
  refine ⟨by simp, ⟨⟨hroot, fun b p hp hb => hvac hp hb, ?_, ?_⟩, ?_, ?_, ?_⟩, ?_⟩
  · intro b hb
    rw [honly b hb]
  · intro b c hb hc _
    rw [honly b hb, honly c hc]
  · intro b hb
    rw [honly b hb]
  · intro b p d hp hb
    exact hvac hp hb
  · intro b p hp hb
    exact hvac hp hb
  · intro v p q hq hv
    exact hvac hq hv

/-- **The sweeps end at a fixpoint.** -/
theorem iterate_spec (hrpo : IsReversePostorder fn rpo) (h0 : 0 < fn.blocks.length) :
    ∃ idom, iterate fn rpo = some idom
      ∧ SettledList fn rpo idom ∧ Fixpoint fn.Edge 0 (tableOf idom) := by
  unfold iterate
  refine loop_spec (iterateStep_ok hrpo h0) _ _ (settledList_start h0) ?_
  omega

/-! ## §6. The query. -/

/-- **The parent walk finds exactly the ancestors.** -/
theorem dominatesWalk_iff {idom : List (Option Nat)} {post : List Nat}
    (h : Ranked (tableOf idom) (rankIn post) 0) (a : Nat) :
    ∀ (guard b : Nat), tableOf idom b ≠ none → rankIn post 0 - rankIn post b < guard →
      (dominatesWalk (idom.map fun parent => parent.getD 0) a guard b = true ↔
        Anc (tableOf idom) a b) := by
  intro guard
  induction guard with
  | zero => intro b _ hlt; exact absurd hlt (Nat.not_lt_zero _)
  | succ guard ih =>
      intro b hb hlt
      obtain ⟨p, hp⟩ := Option.ne_none_iff_exists'.mp hb
      have hparent : (idom.map fun parent => parent.getD 0).getD b 0 = p := by
        have hp' : idom[b]?.getD none = some p := by
          rw [← List.getD_eq_getElem?_getD]
          exact hp
        rw [List.getD_eq_getElem?_getD, List.getElem?_map]
        cases hget : idom[b]? with
        | none =>
            rw [hget] at hp'
            exact absurd hp' (by simp)
        | some x =>
            rw [hget] at hp'
            rw [show x = some p from hp']
            rfl
      rw [dominatesWalk]
      simp only
      rw [hparent]
      split
      next hba =>
        subst hba
        exact ⟨fun _ => Anc.refl _ b, fun _ => rfl⟩
      next hba =>
        split
        next hpb =>
          -- the entry block
          have hb0 : b = 0 := by
            by_contra hb0
            have := (h.climb b p hp hb0).1
            rw [hpb] at this
            exact absurd this (Nat.lt_irrefl _)
          rw [beq_iff_eq]
          constructor
          · intro hab
            exact absurd hab.symm hba
          · intro hanc
            rw [hb0] at hanc ⊢
            exact hanc.eq_root h
        next hpb =>
          have hb0 : b ≠ 0 := by
            rintro rfl
            rw [h.root] at hp
            exact hpb (Option.some.inj hp).symm
          obtain ⟨hclimb, hpn⟩ := h.climb b p hp hb0
          have := h.top p hpn
          rw [ih p hpn (by omega)]
          constructor
          · exact Anc.of_parent hp
          · intro hanc
            rcases hanc.cases with rfl | ⟨q, hq, haq⟩
            · exact absurd rfl hba
            · rw [hp] at hq
              rw [Option.some.inj hq]
              exact haq

/-- The pass only writes the parent table. -/
theorem computeDominators_blocks {fn fn' : CfgFunction} (h : computeDominators fn = some fn') :
    fn'.blocks = fn.blocks := by
  unfold computeDominators at h
  split at h
  · split at h <;> (cases h; rfl)
  · split at h
    · cases h
      rfl
    · split at h
      · exact absurd h nofun
      · split at h
        · exact absurd h nofun
        · cases h
          rfl

/-- The parent table the pass writes, and the one it comes from. -/
theorem computeDominators_table (fn : CfgFunction) (hskip : fn.errorSkipped = false)
    (hpos : 0 < fn.blocks.length) :
    ∃ rpo idom, computeDominators fn
        = some { fn with idom := idom.map fun parent => parent.getD 0 }
      ∧ IsReversePostorder fn rpo ∧ SettledList fn rpo idom ∧ Fixpoint fn.Edge 0 (tableOf idom) := by
  obtain ⟨rpo, hr, hrpo⟩ := computeReversePostorder_spec hpos
  obtain ⟨idom, hidom, hsettled, hfix⟩ := iterate_spec hrpo hpos
  refine ⟨rpo, idom, ?_, hrpo, hsettled, hfix⟩
  unfold computeDominators
  rw [hskip, if_neg (by decide), if_neg (Nat.ne_of_gt hpos), hr]
  simp only
  rw [hidom]

/-- The parents written: of the entry itself, and of a block without one. -/
theorem getD_parents {idom : List (Option Nat)} {b : Nat}
    (h : tableOf idom b = none ∨ tableOf idom b = some 0) :
    (idom.map fun parent => parent.getD 0).getD b 0 = 0 := by
  unfold tableOf at h
  rw [List.getD_eq_getElem?_getD] at h ⊢
  rw [List.getElem?_map]
  cases hget : idom[b]? with
  | none => rfl
  | some parent =>
      rw [hget] at h
      change parent = none ∨ parent = some 0 at h
      rcases h with rfl | rfl <;> rfl

/-- The parent table has an entry for each block. -/
theorem computeDominators_length {fn fn' : CfgFunction} (hskip : fn.errorSkipped = false)
    (h : computeDominators fn = some fn') : fn'.idom.length = fn.blocks.length := by
  by_cases h0 : fn.blocks.length = 0
  · unfold computeDominators at h
    rw [hskip, if_neg (by decide), if_pos h0] at h
    cases h
    exact h0.symm
  · obtain ⟨rpo, idom, htable, -, ⟨hlen, -⟩, -⟩ :=
      computeDominators_table fn hskip (Nat.pos_of_ne_zero h0)
    rw [htable] at h
    cases h
    exact (List.length_map ..).trans hlen

/-- **A block that is not reached hangs under the entry.** -/
theorem computeDominators_unreached {fn fn' : CfgFunction} (hskip : fn.errorSkipped = false)
    (h : computeDominators fn = some fn') (hpos : 0 < fn.blocks.length) :
    fn'.idom.getD 0 0 = 0 ∧ ∀ b, ¬ Reach fn.Edge 0 b → fn'.idom.getD b 0 = 0 := by
  obtain ⟨rpo, idom, htable, -, ⟨-, hsettled⟩, -⟩ := computeDominators_table fn hskip hpos
  rw [htable] at h
  cases h
  refine ⟨getD_parents (Or.inr hsettled.table.ranked.root),
    fun b hb => getD_parents (Or.inl ?_)⟩
  by_contra hne
  exact hb (hsettled.table.reach b hne)

/-- What the pass computes for a function that was not skipped. -/
theorem computeDominators_spec (fn : CfgFunction) (hskip : fn.errorSkipped = false) :
    ∃ fn', computeDominators fn = some fn' ∧ fn' = { fn with idom := fn'.idom }
      ∧ ∀ b, b < fn.blocks.length → Reach fn.Edge 0 b → ∀ a,
          (dominatesQuery fn' a b = true ↔ Dom fn.Edge 0 a b) := by
  by_cases h0 : fn.blocks.length = 0
  · refine ⟨{ fn with idom := [] }, ?_, rfl, fun b hb => absurd hb (by omega)⟩
    unfold computeDominators
    rw [hskip, if_neg (by decide), if_pos h0]
  have hpos : 0 < fn.blocks.length := Nat.pos_of_ne_zero h0
  obtain ⟨rpo, idom, htable, hrpo, ⟨hlen, hsettled⟩, hfix⟩ :=
    computeDominators_table fn hskip hpos
  refine ⟨{ fn with idom := idom.map fun parent => parent.getD 0 }, htable, rfl, ?_⟩
  intro b hb hreach a
  have hdom : Anc (tableOf idom) a b ↔ Dom fn.Edge 0 a b :=
    hfix.anc_iff_dom hsettled.table hreach
  have hrange : Dom fn.Edge 0 a b → a < fn.blocks.length := by
    intro hd
    obtain ⟨path, hpath⟩ := hreach.exists_walk
    exact CfgFunction.lt_of_reach hpos (hpath.reach_mem a (hd path hpath))
  have hwalk := dominatesWalk_iff hsettled.table.ranked a (fn.blocks.length + 1) b
    (hfix.ne_none hsettled.table hreach) (by
      have h1 := hrpo.rank_lt hpos ((hrpo.mem_iff 0).mpr Relation.ReflTransGen.refl)
      have h2 := hrpo.length_le hpos
      omega)
  unfold dominatesQuery
  simp only
  by_cases ha : a < fn.blocks.length
  · have hguard : ¬ ((decide (a ≥ fn.blocks.length) || decide (b ≥ fn.blocks.length)) = true) := by
      simp only [Bool.or_eq_true, decide_eq_true_eq]
      omega
    rw [if_neg hguard, if_neg (by rw [List.length_map, hlen]; simp), hwalk, hdom]
  · have hguard : (decide (a ≥ fn.blocks.length) || decide (b ≥ fn.blocks.length)) = true := by
      simp only [Bool.or_eq_true, decide_eq_true_eq]
      omega
    rw [if_pos hguard]
    exact ⟨fun hf => absurd hf (by decide), fun hd => absurd (hrange hd) ha⟩

/-- **`compute_dominators` terminates on every function that was not skipped,
changes nothing but the parent table, and makes `dominates_query` decide
dominance for every reachable block.** -/
theorem computeDominators_dominates (fn : CfgFunction) (hskip : fn.errorSkipped = false) :
    ∃ fn', computeDominators fn = some fn' ∧ fn' = { fn with idom := fn'.idom }
      ∧ ∀ b, b < fn.blocks.length → Reach fn.Edge 0 b → ∀ a,
          (dominatesQuery fn' a b = true ↔ ∀ path, Walk fn.Edge 0 b path → a ∈ path) :=
  computeDominators_spec fn hskip

/-- Blocks with these successor lists, over an empty span. -/
def blocksOf (successors : List (List Nat)) : List BasicBlock :=
  successors.map fun succ => { BasicBlock.fresh emptySpan with successors := succ }

/-- An irreducible loop between blocks 1 and 2, a duplicate edge, an edge out
of range, and an unreachable block 4 pointing into the loop. -/
def irreducible : CfgFunction :=
  ⟨emptySpan, [], blocksOf [[1, 2, 2], [2, 9], [1, 3], [3], [2]], [], false⟩

theorem computeDominators_dominates_irreducible :
    ∃ fn', computeDominators irreducible = some fn'
      ∧ (dominatesQuery fn' 2 3 = true ↔ ∀ path, Walk irreducible.Edge 0 3 path → 2 ∈ path) := by
  obtain ⟨fn', hfn', -, hdom⟩ := computeDominators_dominates irreducible rfl
  have h02 : irreducible.Edge 0 2 := by decide
  have h23 : irreducible.Edge 2 3 := by decide
  have hreach : Reach irreducible.Edge 0 3 := (Relation.ReflTransGen.single h02).tail h23
  exact ⟨fn', hfn', hdom 3 (by decide) hreach 2⟩

/-- A chain `0 → 1 → 2` in a function marked as skipped. -/
def skippedChain : CfgFunction :=
  ⟨emptySpan, [], blocksOf [[1], [2], []], [], true⟩

/-- **A skipped function keeps a table in which only the entry dominates**:
every walk to block 2 runs through block 1, and the query denies it. -/
theorem skippedChain_not_dominated :
    ∃ fn', computeDominators skippedChain = some fn' ∧ dominatesQuery fn' 1 2 = false
      ∧ Reach skippedChain.Edge 0 2
      ∧ ∀ path, Walk skippedChain.Edge 0 2 path → 1 ∈ path := by
  refine ⟨{ skippedChain with idom := [0, 0, 0] }, rfl, rfl, ?_, ?_⟩
  · have h01 : skippedChain.Edge 0 1 := by decide
    have h12 : skippedChain.Edge 1 2 := by decide
    exact (Relation.ReflTransGen.single h01).tail h12
  · intro path hpath
    cases hpath with
    | @step p _ ps hps he =>
        have hp : p = 1 := by
          have hlt : p < 3 := he.src_lt
          have hall : ∀ q < 3, skippedChain.Edge q 2 → q = 1 := by decide
          exact hall p hlt he
        rw [hp] at hps
        exact List.mem_append_left _ hps.mem_end

end ShaderClippy.ControlFlow
