/-
  ShaderClippy.Rewriter.Greedy

  **WHO WINS A CONFLICT, AND IS EVERY LOSER TOLD?**

  The comparator of the priority sort is a lexicographic order on severity,
  rule id and input index (`priorityKey`): strict and total. The acceptance
  loop walks the fixes in that order, so a fix is dropped exactly when it
  overlaps a fix that comes before it and was kept; the conflict that is
  reported names such a fix. The input index decides between equal
  priorities only, so with distinct priorities nothing depends on the order
  of the input.
-/
import Mathlib.Data.Char
import Mathlib.Data.List.Lex
import Mathlib.Data.Prod.Lex
import ShaderClippy.Rewriter.Atomicity

namespace ShaderClippy.Rewriter

variable {α : Type}

/-! ## §1. The comparator. -/

/-- What the comparator compares: the severity downwards, the rule id, the
input index. -/
def priorityKey (p : FixPriority) (idx : Nat) : ℕᵒᵈ ×ₗ List Char ×ₗ ℕ :=
  toLex (OrderDual.toDual (severityRank p.severity), toLex (p.ruleId, idx))

theorem priorityGreater_iff (a : FixPriority) (i : Nat) (b : FixPriority) (j : Nat) :
    priorityGreater a i b j = true ↔ priorityKey a i < priorityKey b j := by
  unfold priorityGreater priorityKey
  simp only [Prod.Lex.toLex_lt_toLex]
  by_cases hrank : severityRank a.severity = severityRank b.severity
  · by_cases hrule : a.ruleId = b.ruleId
    · simp [hrank, hrule]
    · simp [hrank, hrule]
  · simp [hrank]

theorem outranks_iff (a b : PrioritisedFix α × Nat) :
    Outranks a b ↔ priorityKey a.1.priority a.2 ≤ priorityKey b.1.priority b.2 := by
  unfold Outranks
  rw [← Bool.not_eq_true, priorityGreater_iff, not_lt]

instance : Std.Total (Outranks (α := α)) :=
  ⟨fun a b => by
    rw [outranks_iff, outranks_iff]
    exact le_total _ _⟩

instance : IsTrans (PrioritisedFix α × Nat) Outranks :=
  ⟨fun a b c hab hbc => by
    rw [outranks_iff] at *
    exact hab.trans hbc⟩

/-- `a` has the higher priority. -/
def Precedes (a b : PrioritisedFix α × Nat) : Prop :=
  priorityGreater a.1.priority a.2 b.1.priority b.2 = true

/-- **The comparator is a strict total order on the fixes of one call.** -/
theorem order_precedes (fixes : List (PrioritisedFix α)) : (order fixes).Pairwise Precedes := by
  have hidx : (order fixes).Pairwise fun a b => a.2 ≠ b.2 := by
    have hnodup : ((order fixes).map Prod.snd).Nodup := by
      unfold order
      rw [((List.perm_insertionSort Outranks fixes.zipIdx).map Prod.snd).nodup_iff,
        List.zipIdx_map_snd]
      exact List.nodup_range' ..
    exact List.pairwise_map.mp hnodup
  have hsorted : (order fixes).Pairwise Outranks := List.pairwise_insertionSort Outranks _
  refine (hsorted.and hidx).imp fun {a b} ⟨hab, hne⟩ => ?_
  unfold Precedes
  rw [priorityGreater_iff]
  refine lt_of_le_of_ne ((outranks_iff a b).mp hab) fun heq => hne ?_
  exact congrArg (fun k => (ofLex (ofLex k).2).2) heq

/-! ## §2. Winners and losers. -/

/-- The fixes that the acceptance loop drops when `acc` is accepted already. -/
def rejectedFrom (acc : List (AcceptedEdit α)) :
    List (PrioritisedFix α × Nat) → List (PrioritisedFix α × Nat)
  | [] => []
  | pf :: rest =>
      match findOverlap acc pf.1.fix with
      | some _ => pf :: rejectedFrom acc rest
      | none => rejectedFrom (acc ++ editsOf pf) rest

/-- The fixes that lose a conflict. -/
def rejectedFixes (fixes : List (PrioritisedFix α)) : List (PrioritisedFix α × Nat) :=
  rejectedFrom [] (order fixes)

/-- The conflict names a fix among `winners` of higher priority that overlaps
the dropped one, and the dropped fix's first edit. -/
def ReportedBy (winners : List (PrioritisedFix α × Nat)) (pf : PrioritisedFix α × Nat)
    (c : FixConflict) : Prop :=
  ∃ winner ∈ winners, Precedes winner pf ∧ FixesOverlap pf.1.fix winner.1.fix
    ∧ ∃ first, pf.1.fix.edits.head? = some first
      ∧ c = ⟨pf.1.priority.ruleId, winner.1.priority.ruleId, first.span.bytes.lo,
          first.span.bytes.hi⟩

/-- A clash is an accepted edit that an edit of the fix overlaps. -/
theorem findOverlap_some {acc : List (AcceptedEdit α)} {f : Fix α} {clash : AcceptedEdit α}
    (h : findOverlap acc f = some clash) :
    clash ∈ acc ∧ ∃ e ∈ f.edits,
      overlaps e.span.bytes.lo e.span.bytes.hi clash.byteLo clash.byteHi = true := by
  obtain ⟨e, he, hfind⟩ := List.exists_of_findSome?_eq_some h
  have hov := List.find?_some (p := fun ae : AcceptedEdit α =>
    overlaps e.span.bytes.lo e.span.bytes.hi ae.byteLo ae.byteHi) hfind
  exact ⟨List.mem_of_find?_eq_some hfind, e, he, hov⟩

/-- Every fix is kept or dropped, and none both. -/
theorem accepted_or_rejected (l : List (PrioritisedFix α × Nat)) :
    ∀ acc : List (AcceptedEdit α), (acceptedFrom acc l ++ rejectedFrom acc l).Perm l := by
  induction l with
  | nil => intro acc; exact List.Perm.refl _
  | cons pf l ih =>
      intro acc
      rw [acceptedFrom, rejectedFrom]
      cases findOverlap acc pf.1.fix with
      | some clash => exact List.perm_middle.trans ((ih acc).cons pf)
      | none => exact (ih _).cons pf

theorem acceptStep_free {st : Acceptance α} {pf : PrioritisedFix α × Nat}
    (h : findOverlap st.acceptedEdits pf.1.fix = none) :
    acceptStep st pf.1 = ⟨st.acceptedEdits ++ editsOf pf, st.conflicts⟩ := by
  unfold acceptStep editsOf
  cases hedits : pf.1.fix.edits with
  | nil => simp only [List.map_nil, List.append_nil]
  | cons first rest => simp only [h]

theorem acceptStep_clash {st : Acceptance α} {pf : PrioritisedFix α × Nat}
    {clash : AcceptedEdit α} (h : findOverlap st.acceptedEdits pf.1.fix = some clash) :
    ∃ first, pf.1.fix.edits.head? = some first
      ∧ acceptStep st pf.1 = ⟨st.acceptedEdits, st.conflicts ++ [conflictOf pf.1 clash first]⟩ := by
  unfold acceptStep
  cases hedits : pf.1.fix.edits with
  | nil =>
      obtain ⟨-, e, he, -⟩ := findOverlap_some h
      rw [hedits] at he
      exact absurd he List.not_mem_nil
  | cons first rest => exact ⟨first, rfl, by simp only [h]⟩

/-- **The loop's induction**: with the fixes `done` accepted so far, each fix
that is dropped is reported once, and the report names a fix of `done` or one
that is still to be accepted. -/
theorem foldl_conflicts (l : List (PrioritisedFix α × Nat)) :
    ∀ (done : List (PrioritisedFix α × Nat)) (st : Acceptance α),
      st.acceptedEdits = done.flatMap editsOf → (done ++ l).Pairwise Precedes →
      ∃ cs, (l.foldl (fun st pf => acceptStep st pf.1) st).conflicts = st.conflicts ++ cs
        ∧ List.Forall₂ (ReportedBy (done ++ acceptedFrom st.acceptedEdits l))
            (rejectedFrom st.acceptedEdits l) cs := by
  induction l with
  | nil =>
      intro done st _ _
      exact ⟨[], (List.append_nil _).symm, List.Forall₂.nil⟩
  | cons pf l ih =>
      intro done st hdone hpre
      rw [List.foldl_cons, acceptedFrom, rejectedFrom]
      cases hclash : findOverlap st.acceptedEdits pf.1.fix with
      | some clash =>
          obtain ⟨hmem, e, he, hov⟩ := findOverlap_some hclash
          rw [hdone] at hmem
          obtain ⟨winner, hwinner, hedit⟩ := List.mem_flatMap.mp hmem
          obtain ⟨e', he', rfl⟩ := List.mem_map.mp hedit
          obtain ⟨first, hfirst, hstep⟩ := acceptStep_clash hclash
          have hrest : (done ++ l).Pairwise Precedes :=
            hpre.sublist (List.Sublist.append_left (List.sublist_cons_self ..) done)
          have hwins := (List.pairwise_append.mp hpre).2.2 winner hwinner pf (List.mem_cons_self ..)
          rw [hstep]
          obtain ⟨cs, hcs, hrep⟩ := ih done ⟨st.acceptedEdits,
            st.conflicts ++ [conflictOf pf.1 (acceptEdit winner.1 e') first]⟩ hdone hrest
          refine ⟨conflictOf pf.1 (acceptEdit winner.1 e') first :: cs, ?_, List.Forall₂.cons ?_ hrep⟩
          · rw [hcs, List.append_assoc]
            rfl
          · exact ⟨winner, List.mem_append_left _ hwinner, hwins, ⟨e, he, e', he', hov⟩, first,
              hfirst, rfl⟩
      | none =>
          rw [acceptStep_free hclash]
          obtain ⟨cs, hcs, hrep⟩ := ih (done ++ [pf]) ⟨st.acceptedEdits ++ editsOf pf, st.conflicts⟩
            (by simp [hdone]) (by simpa using hpre)
          refine ⟨cs, hcs, ?_⟩
          rw [List.append_assoc] at hrep
          exact hrep

/-! ## §3. The order of the input. -/

theorem severityRank_inj {s t : Severity} (h : severityRank s = severityRank t) : s = t := by
  cases s <;> cases t <;> first | rfl | exact absurd h (by decide)

/-- The index decides between equal priorities only. -/
theorem priorityGreater_index {a b : FixPriority} (hne : a ≠ b) (i j : Nat) :
    priorityGreater a i b j = priorityGreater a 0 b 0 := by
  unfold priorityGreater
  by_cases hrank : severityRank a.severity = severityRank b.severity
  · have hrule : a.ruleId ≠ b.ruleId := fun h => hne (by
      cases a
      cases b
      simp only [FixPriority.mk.injEq]
      exact ⟨severityRank_inj hrank, h⟩)
    simp [hrank, hrule]
  · simp [hrank]

theorem order_fst_perm (fixes : List (PrioritisedFix α)) :
    ((order fixes).map Prod.fst).Perm fixes := by
  have h := (List.perm_insertionSort Outranks fixes.zipIdx).map Prod.fst
  rwa [List.zipIdx_map_fst] at h

/-- Distinct priorities order the fixes without their indices. -/
theorem order_fst_pairwise {fixes : List (PrioritisedFix α)}
    (h : (fixes.map (·.priority)).Nodup) :
    ((order fixes).map Prod.fst).Pairwise fun p q =>
      priorityKey p.priority 0 < priorityKey q.priority 0 := by
  have hne : ((order fixes).map Prod.fst).Pairwise fun p q => p.priority ≠ q.priority := by
    refine List.pairwise_map.mp ?_
    exact ((order_fst_perm fixes).map (·.priority)).nodup_iff.mpr h
  rw [List.pairwise_map] at hne ⊢
  refine ((order_precedes fixes).and hne).imp fun {a b} ⟨hab, hne⟩ => ?_
  unfold Precedes at hab
  rwa [priorityGreater_index hne, priorityGreater_iff] at hab

/-- **With distinct priorities the order is that of the priorities.** -/
theorem order_fst_eq {fixes fixes' : List (PrioritisedFix α)} (hperm : fixes.Perm fixes')
    (h : (fixes.map (·.priority)).Nodup) :
    (order fixes).map Prod.fst = (order fixes').map Prod.fst := by
  refine List.Perm.eq_of_pairwise (fun a b _ _ hab hba => absurd hab (lt_asymm hba))
    (order_fst_pairwise h)
    (order_fst_pairwise ((hperm.map (·.priority)).nodup_iff.mp h)) ?_
  exact (order_fst_perm fixes).trans (hperm.trans (order_fst_perm fixes').symm)

/-- Acceptance does not look at the indices. -/
theorem acceptedFrom_fst : ∀ (l l' : List (PrioritisedFix α × Nat)),
    l.map Prod.fst = l'.map Prod.fst → ∀ acc : List (AcceptedEdit α),
      (acceptedFrom acc l).map Prod.fst = (acceptedFrom acc l').map Prod.fst := by
  intro l
  induction l with
  | nil =>
      intro l' h acc
      rw [List.map_eq_nil_iff.mp h.symm]
  | cons pf l ih =>
      intro l' h acc
      cases l' with
      | nil => exact absurd h (by simp)
      | cons pf' l' =>
          obtain ⟨hhead, htail⟩ := List.cons.inj h
          rw [acceptedFrom, acceptedFrom, ← hhead]
          cases findOverlap acc pf.1.fix with
          | some clash => exact ih l' htail acc
          | none =>
              show pf.1 :: _ = pf'.1 :: _
              rw [ih l' htail, hhead]

theorem accept_eq_fst (fixes : List (PrioritisedFix α)) :
    accept fixes = ((order fixes).map Prod.fst).foldl acceptStep ⟨[], []⟩ :=
  (List.foldl_map ..).symm

/-! ## §4. Greedy conflict resolution. -/

/-- The conflicts of `apply` are those of the acceptance loop. -/
theorem apply_snd (sort : DescendingSort α) (source : List α)
    (fixes : List (PrioritisedFix α)) : (apply sort source fixes).2 = (accept fixes).conflicts := by
  cases fixes with
  | nil => rfl
  | cons f fs => rfl

/-- **Greedy conflict resolution.**  What `apply` splices are the edits of the
accepted fixes; every fix is accepted or rejected, none both; accepted fixes
do not overlap; the conflicts report the rejected fixes, one each, and name an
accepted fix of higher priority that overlaps; and distinct priorities make
all of it independent of the order of the input. -/
theorem apply_greedy (sort : DescendingSort α) (source : List α)
    (fixes : List (PrioritisedFix α)) :
    (apply sort source fixes).1 = Splice.run source
        ((sort.run ((acceptedFixes fixes).flatMap editsOf)).map AcceptedEdit.toEdit)
      ∧ (acceptedFixes fixes ++ rejectedFixes fixes).Perm fixes.zipIdx
      ∧ (∀ pf ∈ acceptedFixes fixes, pf ∉ rejectedFixes fixes)
      ∧ (acceptedFixes fixes).Pairwise (fun a b => ¬ FixesOverlap b.1.fix a.1.fix)
      ∧ List.Forall₂ (ReportedBy (acceptedFixes fixes)) (rejectedFixes fixes)
          (apply sort source fixes).2
      ∧ ∀ fixes' : List (PrioritisedFix α), fixes.Perm fixes' →
          (fixes.map (·.priority)).Nodup →
            (acceptedFixes fixes).map Prod.fst = (acceptedFixes fixes').map Prod.fst
              ∧ (apply sort source fixes).2 = (apply sort source fixes').2 := by
  have hsplit : (acceptedFixes fixes ++ rejectedFixes fixes).Perm fixes.zipIdx :=
    (accepted_or_rejected (order fixes) []).trans (List.perm_insertionSort Outranks _)
  have hnodup : (acceptedFixes fixes ++ rejectedFixes fixes).Nodup := by
    refine hsplit.nodup_iff.mpr (List.Nodup.of_map Prod.snd ?_)
    rw [List.zipIdx_map_snd]
    exact List.nodup_range' ..
  refine ⟨?_, hsplit, fun pf ha hr => ?_, acceptedFrom_apart (order fixes) [], ?_,
    fun fixes' hperm hdistinct => ⟨?_, ?_⟩⟩
  · rw [apply_fst, acceptedEdits_eq]
  · exact (List.nodup_append.mp hnodup).2.2 pf ha pf hr rfl
  · obtain ⟨cs, hcs, hrep⟩ := foldl_conflicts (order fixes) [] ⟨[], []⟩ rfl (order_precedes fixes)
    rw [apply_snd]
    have hconf : (accept fixes).conflicts = cs := hcs
    rw [hconf]
    exact hrep
  · exact acceptedFrom_fst _ _ (order_fst_eq hperm hdistinct) []
  · rw [apply_snd, apply_snd, accept_eq_fst, accept_eq_fst, order_fst_eq hperm hdistinct]

/-- An error and a warning that want the same byte. -/
def sameByte : List (PrioritisedFix Char) :=
  [⟨⟨.warning, "a".toList⟩, ⟨[], true, [editAt 1 3 "X".toList]⟩⟩,
   ⟨⟨.error, "b".toList⟩, ⟨[], true, [editAt 2 4 "Y".toList]⟩⟩]

/-- The two orders of `sameByte`: the error wins in both. -/
theorem apply_greedy_sameByte :
    (acceptedFixes sameByte).map Prod.fst = (acceptedFixes sameByte.reverse).map Prod.fst
      ∧ (apply stableSort "abcdef".toList sameByte).2
        = (apply stableSort "abcdef".toList sameByte.reverse).2 :=
  (apply_greedy stableSort "abcdef".toList sameByte).2.2.2.2.2 sameByte.reverse
    (List.reverse_perm sameByte).symm (by decide)

end ShaderClippy.Rewriter
