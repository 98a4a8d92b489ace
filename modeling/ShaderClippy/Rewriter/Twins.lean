/-
  ShaderClippy.Rewriter.Twins

  **TWO FIXES WITH THE SAME EDITS.**

  Of two fixes with the same edits, one of them not empty, the one that comes
  second in priority order is always dropped: it clashes with the first, or
  with what the first clashed with. A dropped fix leaves no trace in the text,
  so the text is that of a call without it (`apply_twins`).
-/
import ShaderClippy.Rewriter.Greedy

namespace ShaderClippy.Rewriter

variable {α : Type}

/-! ## §1. The order without one fix. -/

theorem precedes_asymm {a b : PrioritisedFix α × Nat} (h : Precedes a b) : ¬ Precedes b a := by
  unfold Precedes at *
  rw [priorityGreater_iff] at *
  exact lt_asymm h

/-- The index counts between equal priorities, and only as an order. -/
theorem precedes_of_index {a b : PrioritisedFix α × Nat} (h : Precedes a b) {i j : Nat}
    (hij : a.2 < b.2 → i < j) : Precedes (a.1, i) (b.1, j) := by
  unfold Precedes priorityGreater at *
  grind

/-- **A fix can be left out of the order**: the others keep theirs. -/
theorem order_without (l r : List (PrioritisedFix α)) (b : PrioritisedFix α) :
    ∃ xs ys, order (l ++ b :: r) = xs ++ (b, l.length) :: ys
      ∧ (order (l ++ r)).map Prod.fst = (xs ++ ys).map Prod.fst := by
  have hzip : (l ++ b :: r).zipIdx
      = l.zipIdx ++ (b, l.length) :: r.zipIdx (l.length + 1) := by
    rw [List.zipIdx_append, List.zipIdx_cons, Nat.zero_add]
  have hperm : (order (l ++ b :: r)).Perm (l ++ b :: r).zipIdx :=
    List.perm_insertionSort Outranks _
  have hmem : (b, l.length) ∈ order (l ++ b :: r) := by
    rw [hperm.mem_iff, hzip]
    simp
  obtain ⟨xs, ys, horder⟩ := List.append_of_mem hmem
  refine ⟨xs, ys, horder, ?_⟩
  -- the indices behind the fix are one less without it
  let shift : PrioritisedFix α × Nat → PrioritisedFix α × Nat :=
    fun p => (p.1, if p.2 < l.length then p.2 else p.2 + 1)
  have hshift : ((l ++ r).zipIdx).map shift = l.zipIdx ++ r.zipIdx (l.length + 1) := by
    have hleft : l.zipIdx.map shift = l.zipIdx := by
      have hsame : l.zipIdx.map shift = l.zipIdx.map id := by
        refine List.map_congr_left fun p hp => ?_
        have hlt : p.2 < l.length := by
          have := List.snd_lt_of_mem_zipIdx hp
          omega
        show (p.1, if p.2 < l.length then p.2 else p.2 + 1) = p
        rw [if_pos hlt]
      rw [hsame, List.map_id]
    have hright : (r.zipIdx l.length).map shift = r.zipIdx (l.length + 1) := by
      rw [List.zipIdx_succ]
      refine List.map_congr_left fun p hp => ?_
      show (p.1, if p.2 < l.length then p.2 else p.2 + 1) = (p.1, p.2 + 1)
      rw [if_neg (Nat.not_lt.mpr (List.le_snd_of_mem_zipIdx hp))]
    rw [List.zipIdx_append, List.map_append, Nat.zero_add, hleft, hright]
  have hprecedes : ((order (l ++ r)).map shift).Pairwise Precedes := by
    rw [List.pairwise_map]
    refine (order_precedes (l ++ r)).imp fun {p q} hpq => precedes_of_index hpq fun hlt => ?_
    split <;> split <;> omega
  have hothers : (xs ++ ys).Pairwise Precedes := by
    have hall := order_precedes (l ++ b :: r)
    rw [horder] at hall
    exact hall.sublist (List.Sublist.append_left (List.sublist_cons_self ..) xs)
  have hsame : (order (l ++ r)).map shift = xs ++ ys := by
    refine List.Perm.eq_of_pairwise (fun a b _ _ hab hba => absurd hba (precedes_asymm hab))
      hprecedes hothers ?_
    have hleft : ((order (l ++ r)).map shift).Perm (l.zipIdx ++ r.zipIdx (l.length + 1)) := by
      rw [← hshift]
      exact (List.perm_insertionSort Outranks _).map shift
    refine hleft.trans (List.Perm.cons_inv (a := (b, l.length)) ?_)
    have hfull := hperm
    rw [horder, hzip] at hfull
    exact (List.perm_middle.symm.trans (hfull.symm.trans List.perm_middle))
  rw [← hsame, List.map_map]
  rfl

/-! ## §2. The second of two twins is dropped. -/

/-- The same edits, one of them over some text. -/
structure Twins (a b : PrioritisedFix α) : Prop where
  edits : a.fix.edits = b.fix.edits
  nonempty : ∃ e ∈ a.fix.edits, e.span.bytes.lo < e.span.bytes.hi

theorem Twins.symm {a b : PrioritisedFix α} (h : Twins a b) : Twins b a := by
  refine ⟨h.edits.symm, ?_⟩
  rw [← h.edits]
  exact h.nonempty

/-- A clash stays one when more is accepted. -/
theorem acceptStep_keeps_clash {st : Acceptance α} {f : Fix α} (pf : PrioritisedFix α)
    (h : findOverlap st.acceptedEdits f ≠ none) :
    findOverlap (acceptStep st pf).acceptedEdits f ≠ none := by
  cases hclash : findOverlap st.acceptedEdits pf.fix with
  | some clash =>
      obtain ⟨first, _, hstep⟩ := @acceptStep_clash _ _ (pf, 0) _ hclash
      rw [hstep]
      exact h
  | none =>
      rw [@acceptStep_free _ _ (pf, 0) hclash]
      exact fun hnone => h (findOverlap_none_append hnone).1

theorem foldl_keeps_clash {f : Fix α} (l : List (PrioritisedFix α)) :
    ∀ st : Acceptance α, findOverlap st.acceptedEdits f ≠ none →
      findOverlap (l.foldl acceptStep st).acceptedEdits f ≠ none := by
  induction l with
  | nil => exact fun _ h => h
  | cons pf l ih => exact fun st h => ih _ (acceptStep_keeps_clash pf h)

/-- Behind a fix its twin clashes: with the fix, or with what the fix clashed
with. -/
theorem acceptStep_twin {a b : PrioritisedFix α} (h : Twins a b) (st : Acceptance α) :
    findOverlap (acceptStep st a).acceptedEdits b.fix ≠ none := by
  have hsame : ∀ acc : List (AcceptedEdit α), findOverlap acc b.fix = findOverlap acc a.fix := by
    intro acc
    rw [findOverlap, findOverlap, h.edits]
  rw [hsame]
  cases hclash : findOverlap st.acceptedEdits a.fix with
  | some clash =>
      refine acceptStep_keeps_clash a ?_
      rw [hclash]
      exact Option.some_ne_none _
  | none =>
      rw [@acceptStep_free _ _ (a, 0) hclash]
      intro hnone
      obtain ⟨e, he, hlt⟩ := h.nonempty
      refine @not_fixesOverlap _ (a, 0) _ (findOverlap_none_append hnone).2 ⟨e, he, e, he, ?_⟩
      exact overlaps_iff.mpr ⟨hlt, hlt⟩

theorem foldl_twin {a b : PrioritisedFix α} (h : Twins a b) {l : List (PrioritisedFix α)}
    (ha : a ∈ l) (st : Acceptance α) :
    findOverlap (l.foldl acceptStep st).acceptedEdits b.fix ≠ none := by
  obtain ⟨xs, ys, rfl⟩ := List.append_of_mem ha
  rw [List.foldl_append, List.foldl_cons]
  exact foldl_keeps_clash ys _ (acceptStep_twin h _)

/-- What is accepted does not depend on the conflicts so far. -/
theorem foldl_acceptedEdits (l : List (PrioritisedFix α)) :
    ∀ {st st' : Acceptance α}, st.acceptedEdits = st'.acceptedEdits →
      (l.foldl acceptStep st).acceptedEdits = (l.foldl acceptStep st').acceptedEdits := by
  induction l with
  | nil => exact fun h => h
  | cons pf l ih =>
      intro st st' h
      refine ih ?_
      cases hclash : findOverlap st.acceptedEdits pf.fix with
      | some clash =>
          obtain ⟨_, _, hstep⟩ := @acceptStep_clash _ _ (pf, 0) _ hclash
          rw [h] at hclash
          obtain ⟨_, _, hstep'⟩ := @acceptStep_clash _ _ (pf, 0) _ hclash
          rw [hstep, hstep']
          exact h
      | none =>
          have hclash' := hclash
          rw [h] at hclash'
          rw [@acceptStep_free _ _ (pf, 0) hclash, @acceptStep_free _ _ (pf, 0) hclash', h]

/-- **A twin of an earlier fix changes nothing.** -/
theorem foldl_without_twin {a b : PrioritisedFix α} (h : Twins a b) {xs : List (PrioritisedFix α)}
    (ha : a ∈ xs) (ys : List (PrioritisedFix α)) (st : Acceptance α) :
    ((xs ++ b :: ys).foldl acceptStep st).acceptedEdits
      = ((xs ++ ys).foldl acceptStep st).acceptedEdits := by
  rw [List.foldl_append, List.foldl_append, List.foldl_cons]
  refine foldl_acceptedEdits ys ?_
  obtain ⟨clash, hclash⟩ := Option.ne_none_iff_exists'.mp (foldl_twin h ha st)
  obtain ⟨first, _, hstep⟩ := @acceptStep_clash _ _ (b, 0) _ hclash
  rw [hstep]

/-- A fix whose twin comes before it in the order can be left out. -/
theorem accept_without_twin {l r : List (PrioritisedFix α)} {a b : PrioritisedFix α} {i : Nat}
    (h : Twins a b) {xs ys : List (PrioritisedFix α × Nat)}
    (horder : order (l ++ b :: r) = xs ++ (b, l.length) :: ys) (ha : (a, i) ∈ xs)
    (hothers : (order (l ++ r)).map Prod.fst = (xs ++ ys).map Prod.fst) :
    (accept (l ++ b :: r)).acceptedEdits = (accept (l ++ r)).acceptedEdits := by
  rw [accept_eq_fst, accept_eq_fst, horder, hothers, List.map_append, List.map_cons,
    List.map_append]
  exact foldl_without_twin h (List.mem_map_of_mem ha) _ _

/-- In the order two fixes of a call stand one before the other. -/
theorem mem_before_or_behind {l : List (PrioritisedFix α × Nat)} {p q : PrioritisedFix α × Nat}
    {xs ys : List (PrioritisedFix α × Nat)} (hl : l = xs ++ q :: ys) (hp : p ∈ l) (hne : p ≠ q) :
    p ∈ xs ∨ p ∈ ys := by
  rw [hl, List.mem_append, List.mem_cons] at hp
  rcases hp with hp | hp | hp
  · exact Or.inl hp
  · exact absurd hp hne
  · exact Or.inr hp

theorem precedes_of_order {l : List (PrioritisedFix α)} {p q : PrioritisedFix α × Nat}
    {xs ys : List (PrioritisedFix α × Nat)} (hl : order l = xs ++ p :: ys) (hq : q ∈ ys) :
    Precedes p q := by
  have hall := order_precedes l
  rw [hl] at hall
  exact List.rel_of_pairwise_cons (List.pairwise_append.mp hall).2.1 hq

/-- **Of two twins one is dropped**: the text is as without the second, or as
without the first. -/
theorem apply_twins (sort : DescendingSort α) (source : List α) {a b : PrioritisedFix α}
    (h : Twins a b) (l m r : List (PrioritisedFix α)) :
    (apply sort source (l ++ a :: m ++ b :: r)).1 = (apply sort source (l ++ a :: m ++ r)).1
      ∨ (apply sort source (l ++ a :: m ++ b :: r)).1
          = (apply sort source (l ++ m ++ b :: r)).1 := by
  have hfixes : l ++ a :: m ++ b :: r = l ++ a :: (m ++ b :: r) := by
    rw [List.append_assoc, List.cons_append]
  obtain ⟨xs, ys, horder, hothers⟩ := order_without (l ++ a :: m) r b
  obtain ⟨xs', ys', horder', hothers'⟩ := order_without l (m ++ b :: r) a
  rw [← hfixes] at horder'
  have hne : (a, l.length) ≠ (b, (l ++ a :: m).length) := by
    intro heq
    have hlen := congrArg Prod.snd heq
    simp only [List.length_append, List.length_cons] at hlen
    omega
  have ha : (a, l.length) ∈ order (l ++ a :: m ++ b :: r) := by
    rw [horder']
    simp
  have hb : (b, (l ++ a :: m).length) ∈ order (l ++ a :: m ++ b :: r) := by
    rw [horder]
    simp
  rw [apply_fst, apply_fst, apply_fst]
  rcases mem_before_or_behind horder ha hne with hbefore | hbehind
  · exact Or.inl (by rw [accept_without_twin h horder hbefore hothers])
  · refine Or.inr ?_
    rcases mem_before_or_behind horder' hb hne.symm with hbefore' | hbehind'
    · rw [hfixes] at horder' ⊢
      rw [accept_without_twin h.symm horder' hbefore' hothers', List.append_assoc]
    · exact absurd (precedes_of_order horder hbehind)
        (precedes_asymm (precedes_of_order horder' hbehind'))

end ShaderClippy.Rewriter
