/-
  ShaderClippy.Rewriter.Atomicity

  **IS A FIX APPLIED AS A WHOLE OR NOT AT ALL?**

  Conflicts are resolved fix by fix: one overlap drops the whole fix. The
  bounds check is made EDIT BY EDIT while splicing, against the output as the
  edits before have left it, and it skips the edit alone. So a fix that was
  accepted may still arrive in part.

  Which edits are skipped follows from `Lib.SpliceRange`. Where the edits of a
  fix are disjoint, an edit of the source is never skipped, one that begins past
  the end always is, and one that straddles the end is spliced only when other
  insertions at its start have come before it and make room. Whether they come
  before it is up to the sort (equal keys), so `insertionsFirst` and
  `insertionsLast` bound what may happen. Where they overlap, an edit may take
  away the room of the next one, and `tightestFirst` bounds what may happen.
-/
import ShaderClippy.Lib.SpliceRange
import ShaderClippy.Rewriter.Substitution

namespace ShaderClippy.Rewriter

open Splice (Edit applied insertedAt turns room)

variable {α : Type}

/-! ## §1. The fixes that conflict resolution keeps. -/

/-- The fixes, with their input indices, that the acceptance loop keeps when
`acc` is accepted already. -/
def acceptedFrom (acc : List (AcceptedEdit α)) :
    List (PrioritisedFix α × Nat) → List (PrioritisedFix α × Nat)
  | [] => []
  | pf :: rest =>
      match findOverlap acc pf.1.fix with
      | some _ => acceptedFrom acc rest
      | none => pf :: acceptedFrom (acc ++ pf.1.fix.edits.map (acceptEdit pf.1)) rest

/-- The fixes that survive conflict resolution. -/
def acceptedFixes (fixes : List (PrioritisedFix α)) : List (PrioritisedFix α × Nat) :=
  acceptedFrom [] (order fixes)

/-- The accepted edits of one fix. -/
def editsOf (pf : PrioritisedFix α × Nat) : List (AcceptedEdit α) :=
  pf.1.fix.edits.map (acceptEdit pf.1)

theorem foldl_acceptStep (l : List (PrioritisedFix α × Nat)) :
    ∀ st : Acceptance α,
      (l.foldl (fun st pf => acceptStep st pf.1) st).acceptedEdits
        = st.acceptedEdits ++ (acceptedFrom st.acceptedEdits l).flatMap editsOf := by
  induction l with
  | nil =>
      intro st
      show st.acceptedEdits = st.acceptedEdits ++ []
      rw [List.append_nil]
  | cons pf l ih =>
      intro st
      rw [List.foldl_cons, ih, acceptedFrom, acceptStep]
      cases hedits : pf.1.fix.edits with
      | nil =>
          -- a fix without edits clashes with nothing and adds nothing
          have hnone : findOverlap st.acceptedEdits pf.1.fix = none := by
            rw [findOverlap, hedits]
            rfl
          simp only [hnone, List.map_nil, List.append_nil, List.flatMap_cons, editsOf, hedits,
            List.nil_append]
      | cons first rest =>
          cases hclash : findOverlap st.acceptedEdits pf.1.fix with
          | some clash => rfl
          | none =>
              simp only [List.flatMap_cons, editsOf, hedits, List.append_assoc]

/-- **The accepted edits are the edits of the accepted fixes.** -/
theorem acceptedEdits_eq (fixes : List (PrioritisedFix α)) :
    (accept fixes).acceptedEdits = (acceptedFixes fixes).flatMap editsOf :=
  foldl_acceptStep (order fixes) ⟨[], []⟩

theorem acceptedFrom_sublist (l : List (PrioritisedFix α × Nat)) :
    ∀ acc : List (AcceptedEdit α), (acceptedFrom acc l).Sublist l := by
  induction l with
  | nil => intro acc; exact List.Sublist.refl _
  | cons pf l ih =>
      intro acc
      rw [acceptedFrom]
      split
      · exact (ih _).cons _
      · exact (ih _).cons_cons _

theorem mem_of_acceptedFixes {fixes : List (PrioritisedFix α)} {pf : PrioritisedFix α × Nat}
    (h : pf ∈ acceptedFixes fixes) : pf ∈ fixes.zipIdx :=
  (List.mem_insertionSort _).mp ((acceptedFrom_sublist _ _).subset h)

/-- Some edit of `f` overlaps some edit of `g`. -/
def FixesOverlap (f g : Fix α) : Prop :=
  ∃ e ∈ f.edits, ∃ e' ∈ g.edits,
    overlaps e.span.bytes.lo e.span.bytes.hi e'.span.bytes.lo e'.span.bytes.hi = true

theorem findOverlap_none_append {acc more : List (AcceptedEdit α)} {f : Fix α}
    (h : findOverlap (acc ++ more) f = none) :
    findOverlap acc f = none ∧ findOverlap more f = none := by
  simp only [findOverlap, List.findSome?_eq_none_iff, List.find?_append, Option.or_eq_none_iff]
    at h ⊢
  exact ⟨fun e he => (h e he).1, fun e he => (h e he).2⟩

/-- A fix without a clash with the edits of `pf` does not overlap `pf`. -/
theorem not_fixesOverlap {pf : PrioritisedFix α × Nat} {f : Fix α}
    (h : findOverlap (editsOf pf) f = none) : ¬ FixesOverlap f pf.1.fix := by
  rintro ⟨e, he, e', he', hov⟩
  have := findOverlap_none h e he (acceptEdit pf.1 e') (List.mem_map_of_mem he')
  exact Bool.false_ne_true (this.symm.trans hov)

/-- What is kept does not clash with what was accepted before. -/
theorem acceptedFrom_free (l : List (PrioritisedFix α × Nat)) :
    ∀ acc : List (AcceptedEdit α), ∀ pf ∈ acceptedFrom acc l, findOverlap acc pf.1.fix = none := by
  induction l with
  | nil => intro acc pf hpf; exact absurd hpf List.not_mem_nil
  | cons qf l ih =>
      intro acc pf hpf
      rw [acceptedFrom] at hpf
      split at hpf
      · exact ih acc pf hpf
      · next hnone =>
          rcases List.mem_cons.mp hpf with rfl | hpf
          · exact hnone
          · exact (findOverlap_none_append (ih _ pf hpf)).1

/-- **Accepted fixes do not overlap.** -/
theorem acceptedFrom_apart (l : List (PrioritisedFix α × Nat)) :
    ∀ acc : List (AcceptedEdit α),
      (acceptedFrom acc l).Pairwise fun a b => ¬ FixesOverlap b.1.fix a.1.fix := by
  induction l with
  | nil => intro acc; exact List.Pairwise.nil
  | cons pf l ih =>
      intro acc
      rw [acceptedFrom]
      split
      · exact ih acc
      · refine List.pairwise_cons.mpr ⟨fun qf hqf => ?_, ih _⟩
        exact not_fixesOverlap (findOverlap_none_append (acceptedFrom_free l _ qf hqf)).2

/-! ## §2. All or nothing. -/

/-- The accepted edits as `apply` splices them. -/
def spliced (sort : DescendingSort α) (fixes : List (PrioritisedFix α)) : List (Edit α) :=
  (sort.run (accept fixes).acceptedEdits).map AcceptedEdit.toEdit

/-- The output is the source with the applied edits spliced in, one after
another. -/
theorem apply_eq_applied (sort : DescendingSort α) (source : List α)
    (fixes : List (PrioritisedFix α)) :
    (apply sort source fixes).1
      = (applied source.length (spliced sort fixes)).foldl Splice.splice source := by
  rw [apply_fst, Splice.run_eq_applied]
  rfl

/-- The edit `e` of the fix `pf` is applied: the fix is kept and no turn skips
the edit. -/
def EditApplied (sort : DescendingSort α) (source : List α) (fixes : List (PrioritisedFix α))
    (pf : PrioritisedFix α × Nat) (e : TextEdit α) : Prop :=
  pf ∈ acceptedFixes fixes
    ∧ ((acceptEdit pf.1 e).toEdit, false) ∉ turns source.length (spliced sort fixes)

/-- It is not: the fix is dropped, or no turn splices the edit. -/
def EditSkipped (sort : DescendingSort α) (source : List α) (fixes : List (PrioritisedFix α))
    (pf : PrioritisedFix α × Nat) (e : TextEdit α) : Prop :=
  pf ∉ acceptedFixes fixes
    ∨ ((acceptEdit pf.1 e).toEdit, true) ∉ turns source.length (spliced sort fixes)

/-- Every fix is applied as a whole or not at all. -/
def AllOrNothing (sort : DescendingSort α) (source : List α)
    (fixes : List (PrioritisedFix α)) : Prop :=
  ∀ pf ∈ fixes.zipIdx,
    (∀ e ∈ pf.1.fix.edits, EditApplied sort source fixes pf e)
      ∨ ∀ e ∈ pf.1.fix.edits, EditSkipped sort source fixes pf e

/-- No two of the edits overlap. -/
def DisjointEdits (edits : List (TextEdit α)) : Prop := edits.Pairwise fun a b =>
  overlaps a.span.bytes.lo a.span.bytes.hi b.span.bytes.lo b.span.bytes.hi = false

/-- The edits of every fix are pairwise disjoint, which `Rewriter::apply`
leaves to the rule author. -/
def DisjointWithin (fixes : List (PrioritisedFix α)) : Prop :=
  ∀ pf ∈ fixes, DisjointEdits pf.fix.edits

/-- The edits that conflict resolution keeps. -/
def keptEdits (fixes : List (PrioritisedFix α)) : List (Edit α) :=
  (accept fixes).acceptedEdits.map AcceptedEdit.toEdit

/-- How much text the accepted edits insert at `p`. -/
def insertedBytes (fixes : List (PrioritisedFix α)) (p : Nat) : Nat :=
  insertedAt p (keptEdits fixes)

/-! ## §3. The turn of one edit, over any sort. -/

section Turn

variable {fixes : List (PrioritisedFix α)} (hdisjoint : DisjointWithin fixes)
  (sort : DescendingSort α)

theorem spliced_perm :
    (spliced sort fixes).Perm (keptEdits fixes) :=
  (sort.perm _).map _

theorem spliced_sorted : (spliced sort fixes).Pairwise fun a b => b.lo ≤ a.lo := by
  unfold spliced
  rw [List.pairwise_map]
  exact sort.sorted _

include hdisjoint in
theorem spliced_apart : (spliced sort fixes).Pairwise fun a b => ¬ a.Overlaps b := by
  have hsymm : Std.Symm (fun a b : AcceptedEdit α => ¬ a.toEdit.Overlaps b.toEdit) :=
    ⟨fun _ _ hab hba => hab ⟨hba.2, hba.1⟩⟩
  unfold spliced
  rw [List.pairwise_map]
  exact (accept_apart hdisjoint).perm (sort.perm _).symm fun hab hba => hab ⟨hba.2, hba.1⟩

include hdisjoint in
/-- When its turn comes, the edit is in range of the source, or straddles its
end and finds room. -/
theorem turn_iff {source : List α} {pre post : List (Edit α)} {e : Edit α}
    (hsplit : spliced sort fixes = pre ++ e :: post) :
    e.InRange (pre.foldl Splice.grown source.length)
      ↔ e.InRange source.length ∨ e.Straddles source.length (insertedAt e.lo pre) := by
  have hsorted : (spliced sort fixes).Pairwise fun a b => b.lo ≤ a.lo := spliced_sorted sort
  have hapart := spliced_apart hdisjoint sort
  rw [hsplit] at hsorted hapart
  refine Splice.inRange_turn_iff ?_ fun a ha =>
    (List.pairwise_append.mp hapart).2.2 a ha e (List.mem_cons_self ..)
  exact hsorted.sublist ((List.Sublist.refl pre).append (by simp))

include hdisjoint in
/-- An edit of the source is never skipped. -/
theorem not_skipped_of_inRange {source : List α} {e : Edit α} (hin : e.InRange source.length) :
    (e, false) ∉ turns source.length (spliced sort fixes) := by
  intro h
  obtain ⟨pre, post, hsplit, hfits⟩ := Splice.mem_turns.mp h
  exact of_decide_eq_false hfits.symm ((turn_iff hdisjoint sort hsplit).mpr (.inl hin))

include hdisjoint in
/-- An edit that is spliced is an edit of the source, or straddles its end
and all the insertions at its start together make room. -/
theorem inRange_or_straddles {source : List α} {e : Edit α}
    (h : (e, true) ∈ turns source.length (spliced sort fixes)) :
    e.InRange source.length ∨ e.Straddles source.length (insertedBytes fixes e.lo) := by
  obtain ⟨pre, post, hsplit, hfits⟩ := Splice.mem_turns.mp h
  rcases (turn_iff hdisjoint sort hsplit).mp (of_decide_eq_true hfits.symm) with hin | ⟨hlo, hhi, hroom⟩
  · exact .inl hin
  · refine .inr ⟨hlo, hhi, ?_⟩
    have hle := Splice.insertedAt_append_le e.lo pre (e :: post)
    rw [← hsplit, Splice.insertedAt_perm (spliced_perm sort)] at hle
    unfold insertedBytes
    omega

end Turn

/-! ## §4. The two extreme sorts. -/

/-- `a` may stand before `b`: descending `byte_lo`, insertions last among
equals. -/
def InsertionLast (a b : AcceptedEdit α) : Prop :=
  b.byteLo < a.byteLo
    ∨ (a.byteLo = b.byteLo ∧ (b.byteLo = b.byteHi ∨ a.byteLo ≠ a.byteHi))

instance : DecidableRel (InsertionLast (α := α)) := fun a b => by
  unfold InsertionLast
  infer_instance

instance : Std.Total (InsertionLast (α := α)) :=
  ⟨fun a b => by unfold InsertionLast; omega⟩

instance : IsTrans (AcceptedEdit α) InsertionLast :=
  ⟨fun a b c hab hbc => by unfold InsertionLast at *; omega⟩

/-- The descending sort that favours the code. -/
def insertionsLast : DescendingSort α where
  run l := l.insertionSort InsertionLast
  perm l := List.perm_insertionSort _ l
  sorted l := (List.pairwise_insertionSort InsertionLast l).imp fun hab => by
    unfold InsertionLast at hab
    omega

section Extremes

variable {source : List α} {fixes : List (PrioritisedFix α)} (hdisjoint : DisjointWithin fixes)

include hdisjoint in
/-- Insertions last: only edits of the source are spliced. -/
theorem inRange_of_insertionsLast {e : Edit α}
    (h : (e, true) ∈ turns source.length (spliced insertionsLast fixes)) :
    e.InRange source.length := by
  obtain ⟨pre, post, hsplit, hfits⟩ := Splice.mem_turns.mp h
  replace hfits := of_decide_eq_true hfits.symm
  rcases (turn_iff hdisjoint insertionsLast hsplit).mp hfits with hin | ⟨hlo, hhi, hroom⟩
  · exact hin
  · -- nothing inserted at the start of `e` comes before it
    have hsorted : (spliced insertionsLast fixes).Pairwise fun a b =>
        ¬ (b.lo < b.hi ∧ a.lo = b.lo ∧ a.hi = b.lo) := by
      unfold spliced
      rw [List.pairwise_map]
      refine (List.pairwise_insertionSort InsertionLast _).imp fun {a b} hab => ?_
      show ¬ (b.byteLo < b.byteHi ∧ a.byteLo = b.byteLo ∧ a.byteHi = b.byteLo)
      unfold InsertionLast at hab
      omega
    rw [hsplit] at hsorted
    have hzero : insertedAt e.lo pre = 0 := Splice.insertedAt_eq_zero fun a ha hat =>
      (List.pairwise_append.mp hsorted).2.2 a ha e (List.mem_cons_self ..) ⟨by omega, hat⟩
    omega

include hdisjoint in
/-- Insertions first: an edit that straddles the end finds all the room that
there will ever be. -/
theorem applied_of_insertionsFirst {e : Edit α} (he : e ∈ spliced insertionsFirst fixes)
    (h : e.Straddles source.length (insertedBytes fixes e.lo)) :
    (e, true) ∈ turns source.length (spliced insertionsFirst fixes) := by
  obtain ⟨hlo, hhi, hroom⟩ := h
  obtain ⟨pre, post, hsplit⟩ := List.append_of_mem he
  have hsorted : (spliced insertionsFirst fixes).Pairwise fun a b =>
      ¬ (a.lo < a.hi ∧ b.lo = a.lo ∧ b.hi = a.lo) := by
    unfold spliced
    rw [List.pairwise_map]
    refine (List.pairwise_insertionSort InsertionFirst _).imp fun {a b} hab => ?_
    show ¬ (a.byteLo < a.byteHi ∧ b.byteLo = a.byteLo ∧ b.byteHi = a.byteLo)
    unfold InsertionFirst at hab
    omega
  rw [hsplit] at hsorted
  obtain ⟨hpost, -⟩ := List.pairwise_cons.mp (List.pairwise_append.mp hsorted).2.1
  -- everything inserted at the start of `e` comes before it
  have hall : insertedAt e.lo pre = insertedBytes fixes e.lo := by
    unfold insertedBytes
    rw [← Splice.insertedAt_perm (spliced_perm insertionsFirst), hsplit,
      Splice.insertedAt_append]
    have hzero : insertedAt e.lo (e :: post) = 0 := Splice.insertedAt_eq_zero fun b hb hat => by
      rcases List.mem_cons.mp hb with rfl | hb
      · omega
      · exact hpost b hb ⟨by omega, hat⟩
    omega
  refine Splice.mem_turns.mpr ⟨pre, post, hsplit, (decide_eq_true ?_).symm⟩
  refine (turn_iff hdisjoint insertionsFirst hsplit).mpr (.inr ⟨hlo, hhi, ?_⟩)
  omega

end Extremes

/-- `a` may stand before `b`, in the order that leaves the least room. -/
def TightestFirst (a b : AcceptedEdit α) : Prop := Splice.Tightest a.toEdit b.toEdit

instance : DecidableRel (TightestFirst (α := α)) := fun a b => by
  unfold TightestFirst Splice.Tightest Splice.Edit.Shrinks
  infer_instance

instance : Std.Total (TightestFirst (α := α)) :=
  ⟨fun a b => by unfold TightestFirst Splice.Tightest Splice.Edit.Shrinks; omega⟩

instance : IsTrans (AcceptedEdit α) TightestFirst :=
  ⟨fun a b c hab hbc => by
    unfold TightestFirst Splice.Tightest Splice.Edit.Shrinks at *
    omega⟩

/-- The descending sort that leaves the least room. -/
def tightestFirst : DescendingSort α where
  run l := l.insertionSort TightestFirst
  perm l := List.perm_insertionSort _ l
  sorted l := (List.pairwise_insertionSort TightestFirst l).imp fun hab => by
    unfold TightestFirst Splice.Tightest at hab
    change _ ∨ _ at hab
    rcases hab with hlt | ⟨heq, -⟩
    · exact Nat.le_of_lt hlt
    · exact Nat.le_of_eq heq.symm

theorem spliced_tightest {fixes : List (PrioritisedFix α)} :
    (spliced tightestFirst fixes).Pairwise Splice.Tightest := by
  unfold spliced
  rw [List.pairwise_map]
  exact List.pairwise_insertionSort TightestFirst _

/-! ## §5. Which edits may overlap. -/

/-- The edits of one fix, as they are spliced. -/
def ownEdits (pf : PrioritisedFix α × Nat) : List (Edit α) :=
  (editsOf pf).map AcceptedEdit.toEdit

theorem mem_ownEdits {pf : PrioritisedFix α × Nat} {a : Edit α} :
    a ∈ ownEdits pf ↔ ∃ e ∈ pf.1.fix.edits, (acceptEdit pf.1 e).toEdit = a := by
  simp [ownEdits, editsOf]

theorem keptEdits_eq (fixes : List (PrioritisedFix α)) :
    keptEdits fixes = (acceptedFixes fixes).flatMap ownEdits := by
  rw [keptEdits, acceptedEdits_eq, List.map_flatMap]
  rfl

section Own

variable {fixes : List (PrioritisedFix α)}

/-- Edits of two fixes that were kept do not overlap. -/
theorem ownEdits_apart {pf qf : PrioritisedFix α × Nat} (hpf : pf ∈ acceptedFixes fixes)
    (hqf : qf ∈ acceptedFixes fixes) (hne : pf ≠ qf) {a b : Edit α} (ha : a ∈ ownEdits pf)
    (hb : b ∈ ownEdits qf) : ¬ a.Overlaps b := by
  have hsymm : Std.Symm fun f g : PrioritisedFix α × Nat =>
      ¬ FixesOverlap g.1.fix f.1.fix := by
    refine ⟨?_⟩
    rintro f g hfg ⟨e, he, e', he', hov⟩
    rw [overlaps_iff] at hov
    exact hfg ⟨e', he', e, he, overlaps_iff.mpr ⟨hov.2, hov.1⟩⟩
  obtain ⟨e, he, rfl⟩ := mem_ownEdits.mp ha
  obtain ⟨e', he', rfl⟩ := mem_ownEdits.mp hb
  have hapart := (acceptedFrom_apart (order fixes) []).forall hqf hpf (Ne.symm hne)
  exact fun hov => hapart ⟨e, he, e', he', overlaps_iff.mpr hov⟩

/-- Kept edits overlap only if they are edits of one fix whose edits overlap. -/
def Apart (fixes : List (PrioritisedFix α)) (a b : Edit α) : Prop :=
  ¬ a.Overlaps b ∨
    ∃ pf ∈ acceptedFixes fixes, ¬ DisjointEdits pf.1.fix.edits ∧ a ∈ ownEdits pf ∧ b ∈ ownEdits pf

theorem Apart.symm {a b : Edit α} (h : Apart fixes a b) : Apart fixes b a := by
  rcases h with hno | ⟨pf, hpf, hover, ha, hb⟩
  · exact .inl fun hov => hno ⟨hov.2, hov.1⟩
  · exact .inr ⟨pf, hpf, hover, hb, ha⟩

theorem keptEdits_apart (fixes : List (PrioritisedFix α)) :
    (keptEdits fixes).Pairwise (Apart fixes) := by
  rw [keptEdits_eq, List.pairwise_flatMap]
  constructor
  · intro pf hpf
    by_cases hd : DisjointEdits pf.1.fix.edits
    · rw [ownEdits, editsOf, List.map_map, List.pairwise_map]
      refine hd.imp fun {a b} hab => .inl ?_
      exact overlaps_eq_false_iff (a := acceptEdit pf.1 a) (b := acceptEdit pf.1 b).mp hab
    · exact List.pairwise_of_forall_mem_list fun a ha b hb => .inr ⟨pf, hpf, hd, ha, hb⟩
  · have hnodup : (acceptedFixes fixes).Nodup := by
      refine (acceptedFrom_sublist (order fixes) []).nodup ?_
      refine (List.perm_insertionSort _ _).nodup_iff.mpr (List.Nodup.of_map Prod.snd ?_)
      rw [List.zipIdx_map_snd]
      exact List.nodup_range'
    refine hnodup.imp_of_mem fun {pf qf} hpf hqf hne => ?_
    exact fun a ha b hb => .inl (ownEdits_apart hpf hqf hne ha hb)

/-- Whatever overlaps an edit of the fix is an edit of the same fix. -/
theorem Apart.own {pf : PrioritisedFix α × Nat} (hpf : pf ∈ acceptedFixes fixes) {a e : Edit α}
    (he : e ∈ ownEdits pf) (h : Apart fixes a e) :
    ¬ a.Overlaps e ∨ (a ∈ ownEdits pf ∧ ¬ DisjointEdits pf.1.fix.edits) := by
  rcases h with hno | ⟨qf, hqf, hover, ha, -⟩
  · exact .inl hno
  · by_cases hsame : qf = pf
    · subst hsame
      exact .inr ⟨ha, hover⟩
    · exact .inl (ownEdits_apart hqf hpf hsame ha he)

theorem turns_apart (sort : DescendingSort α) (n : Nat) :
    (turns n (spliced sort fixes)).Pairwise fun t u => Apart fixes t.1 u.1 := by
  have hapart : (spliced sort fixes).Pairwise (Apart fixes) :=
    (keptEdits_apart fixes).perm (spliced_perm sort).symm fun h => h.symm
  rw [← Splice.map_fst_turns (spliced sort fixes) n, List.pairwise_map] at hapart
  exact hapart

theorem spliced_before (sort : DescendingSort α) {pre post : List (Edit α)} {e : Edit α}
    (hsplit : spliced sort fixes = pre ++ e :: post) :
    (∀ a ∈ pre, e.lo ≤ a.lo ∧ Apart fixes a e) ∧ ∀ a ∈ post, a.lo ≤ e.lo := by
  have hapart : (spliced sort fixes).Pairwise (Apart fixes) :=
    (keptEdits_apart fixes).perm (spliced_perm sort).symm fun h => h.symm
  have hsorted : (spliced sort fixes).Pairwise fun a b => b.lo ≤ a.lo := spliced_sorted sort
  rw [hsplit, List.pairwise_append] at hapart hsorted
  refine ⟨fun a ha => ⟨?_, ?_⟩, (List.pairwise_cons.mp hsorted.2.1).1⟩
  · exact hsorted.2.2 a ha e (List.mem_cons_self ..)
  · exact hapart.2.2 a ha e (List.mem_cons_self ..)

theorem exists_own {sort : DescendingSort α} {e : Edit α} (he : e ∈ spliced sort fixes) :
    ∃ pf ∈ acceptedFixes fixes, e ∈ ownEdits pf := by
  rw [(spliced_perm sort).mem_iff, keptEdits_eq] at he
  exact List.mem_flatMap.mp he

theorem own_mem {sort : DescendingSort α} {pf : PrioritisedFix α × Nat} {e : Edit α}
    (hpf : pf ∈ acceptedFixes fixes) (he : e ∈ ownEdits pf) : e ∈ spliced sort fixes := by
  rw [(spliced_perm sort).mem_iff, keptEdits_eq]
  exact List.mem_flatMap.mpr ⟨pf, hpf, he⟩

end Own

/-! ## §6. When every fix is all or nothing. -/

/-- The edits of the fix all lie in the source, and none takes away the room
another needs: they do not overlap, or the room where each begins is enough. Or
none lies in the source, and then none finds room behind its end, unless the fix
is that one edit. -/
def WholeOrOutside (source : List α) (fixes : List (PrioritisedFix α))
    (edits : List (TextEdit α)) : Prop :=
  ((∀ e ∈ edits, e.span.bytes.lo ≤ e.span.bytes.hi ∧ e.span.bytes.hi ≤ source.length)
      ∧ (DisjointEdits edits ∨ ∀ e ∈ edits,
          ((min e.span.bytes.hi (e.span.bytes.lo + e.replacement.length) : Nat) : Int)
            ≤ room source.length (keptEdits fixes) e.span.bytes.lo))
    ∨ (∀ e ∈ edits, ¬ (e.span.bytes.lo ≤ e.span.bytes.hi ∧ e.span.bytes.hi ≤ source.length))
      ∧ (edits.length ≤ 1 ∨ ∀ e ∈ edits, ¬ (e.span.bytes.lo ≤ source.length
          ∧ source.length < e.span.bytes.hi
          ∧ e.span.bytes.hi ≤ source.length + insertedBytes fixes e.span.bytes.lo))

/-- No edit that is kept begins in the source and reaches past its end. -/
def NoneStraddles (source : List α) (fixes : List (PrioritisedFix α)) : Prop :=
  ∀ e ∈ keptEdits fixes, e.lo ≤ source.length → e.hi ≤ source.length

theorem disjointEdits_of_length {edits : List (TextEdit α)} (h : edits.length ≤ 1) :
    DisjointEdits edits := by
  match edits with
  | [] => exact List.Pairwise.nil
  | [_] => exact List.pairwise_singleton _ _
  | _ :: _ :: _ => exact absurd h (by simp)

section Enough

variable {source : List α} {fixes : List (PrioritisedFix α)}
  (hwhole : ∀ pf ∈ acceptedFixes fixes, WholeOrOutside source fixes pf.1.fix.edits)
  (sort : DescendingSort α)

include hwhole in
/-- **Step lemma**: after turns that went as they should, so does the next. -/
theorem settled_step {pre post : List (Edit α)} {e : Edit α}
    (hsplit : spliced sort fixes = pre ++ e :: post)
    (hsettled : ∀ a b, (a, b) ∈ turns source.length pre →
      Splice.Settled source.length (keptEdits fixes) a b) :
    Splice.Settled source.length (keptEdits fixes) e
      (decide (e.InRange (pre.foldl Splice.grown source.length))) := by
  obtain ⟨hbefore, hafter⟩ := spliced_before sort hsplit
  have hle : ∀ a ∈ pre, e.lo ≤ a.lo := fun a ha => (hbefore a ha).1
  have hmem : e ∈ spliced sort fixes := by
    rw [hsplit]
    simp
  obtain ⟨pf, hpf, hown⟩ := exists_own hmem
  obtain ⟨te, hte, rfl⟩ := mem_ownEdits.mp hown
  rcases hwhole pf hpf with ⟨hin, hroom⟩ | ⟨hout, hroom⟩
  · refine ⟨fun he => decide_eq_true ⟨he.1, ?_⟩, fun _ => .inl (hin te hte)⟩
    rcases hroom with hd | hroom
    · refine Splice.le_grown_foldl hle (fun a ha => ?_) he.2
      exact (Apart.own hpf hown (hbefore a (Splice.mem_of_turns ha)).2).resolve_right
        fun h => h.2 hd
    · refine Splice.le_of_reach_le_room ?_ hle hafter hsettled he (hroom te hte)
      rw [← hsplit]
      exact (spliced_perm sort).symm
  · refine ⟨fun he => absurd he (hout te hte), fun hfits => .inr ?_⟩
    -- what overlaps the edit was not spliced either
    have hapart : ∀ a, (a, true) ∈ turns source.length pre →
        ¬ a.Overlaps (acceptEdit pf.1 te).toEdit := by
      intro a ha
      rcases Apart.own hpf hown (hbefore a (Splice.mem_of_turns ha)).2 with hno | ⟨haown, hover⟩
      · exact hno
      · exfalso
        rcases hroom with hone | hroom
        · exact hover (disjointEdits_of_length hone)
        · obtain ⟨ta, hta, rfl⟩ := mem_ownEdits.mp haown
          rcases (hsettled _ _ ha).2 rfl with hin | hs
          · exact hout ta hta hin
          · exact hroom ta hta hs
    rcases Splice.straddles_of_turn hle hsettled hapart (of_decide_eq_true hfits) with hin | ⟨h1, h2, h3⟩
    · exact absurd hin (hout te hte)
    · refine ⟨h1, h2, ?_⟩
      have hle' := Splice.insertedAt_append_le (acceptEdit pf.1 te).toEdit.lo pre
        ((acceptEdit pf.1 te).toEdit :: post)
      rw [← hsplit, Splice.insertedAt_perm (spliced_perm sort)] at hle'
      omega

include hwhole in
/-- **Run lemma**: so every turn goes as it should. -/
theorem settled_run : ∀ a b, (a, b) ∈ turns source.length (spliced sort fixes) →
    Splice.Settled source.length (keptEdits fixes) a b := by
  have hrun : ∀ pre post : List (Edit α), spliced sort fixes = pre ++ post →
      ∀ a b, (a, b) ∈ turns source.length pre →
        Splice.Settled source.length (keptEdits fixes) a b := by
    intro pre
    induction pre using List.reverseRecOn with
    | nil => intro _ _ a b hab; exact absurd hab List.not_mem_nil
    | append_singleton pre e ih =>
        intro post hsplit a b hab
        rw [List.append_assoc] at hsplit
        have hih := ih _ hsplit
        rw [Splice.turns_append, List.mem_append] at hab
        rcases hab with hab | hab
        · exact hih a b hab
        · cases List.mem_singleton.mp hab
          exact settled_step hwhole sort hsplit hih
  exact hrun _ [] (List.append_nil _).symm

include hwhole in
theorem allOrNothing_of_whole : AllOrNothing sort source fixes := by
  intro pf _
  have hsettled := settled_run hwhole sort
  by_cases hpf : pf ∈ acceptedFixes fixes
  · rcases hwhole pf hpf with ⟨hin, -⟩ | ⟨hout, hroom⟩
    · refine .inl fun e he => ⟨hpf, fun hskip => ?_⟩
      exact Bool.false_ne_true ((hsettled _ _ hskip).1 (hin e he))
    · rcases hroom with hone | hroom
      · -- a fix of one edit is always all or nothing
        match hedits : pf.1.fix.edits with
        | [] => exact .inl fun e he => absurd he List.not_mem_nil
        | [a] =>
            by_cases ha : EditApplied sort source fixes pf a
            · exact .inl fun e he => (List.mem_singleton.mp he) ▸ ha
            · refine .inr fun e he => (List.mem_singleton.mp he) ▸ .inr fun happlied => ?_
              -- its value cannot have both turns: it would overlap itself
              have hmem : a ∈ pf.1.fix.edits := by simp [hedits]
              have hskip : ((acceptEdit pf.1 a).toEdit, false)
                  ∈ turns source.length (spliced sort fixes) := by
                by_contra hno
                exact ha ⟨hpf, hno⟩
              have hsymm : Std.Symm fun t u : Edit α × Bool => Apart fixes t.1 u.1 :=
                ⟨fun _ _ h => h.symm⟩
              have hself := (turns_apart sort source.length).forall happlied hskip (by simp)
              have hown : (acceptEdit pf.1 a).toEdit ∈ ownEdits pf :=
                mem_ownEdits.mpr ⟨a, hmem, rfl⟩
              rcases Apart.own hpf hown hself with hno | ⟨-, hover⟩
              · rcases (hsettled _ _ happlied).2 rfl with hin | ⟨h1, h2, -⟩
                · exact hout a hmem hin
                · exact hno ⟨Nat.lt_of_le_of_lt h1 h2, Nat.lt_of_le_of_lt h1 h2⟩
              · exact hover (disjointEdits_of_length hone)
        | a :: b :: rest =>
            rw [hedits] at hone
            exact absurd hone (by simp)
      · refine .inr fun e he => .inr fun happlied => ?_
        rcases (hsettled _ _ happlied).2 rfl with hin | hs
        · exact hout e he hin
        · exact hroom e he hs
  · exact .inr fun e _ => .inl hpf

end Enough

/-! ## §7. When nothing else does. -/

/-- Two edits that straddle the end overlap, so a fix of straddling edits has
one edit at most. -/
theorem length_le_one_of_straddles {n : Nat} {edits : List (TextEdit α)}
    (hd : DisjointEdits edits)
    (h : ∀ e ∈ edits, e.span.bytes.lo ≤ n ∧ n < e.span.bytes.hi) : edits.length ≤ 1 := by
  match edits with
  | [] => exact Nat.zero_le 1
  | [_] => exact Nat.le_refl 1
  | a :: b :: rest =>
      exfalso
      obtain ⟨ha1, ha2⟩ := h a (by simp)
      obtain ⟨hb1, hb2⟩ := h b (by simp)
      have hfree := (List.pairwise_cons.mp hd).1 b (by simp)
      rw [← Bool.not_eq_true, overlaps_iff] at hfree
      exact hfree ⟨Nat.lt_of_le_of_lt ha1 hb2, Nat.lt_of_le_of_lt hb1 ha2⟩

section Necessary

variable {source : List α} {fixes : List (PrioritisedFix α)}

/-- A turn that was not skipped spliced the edit. -/
theorem EditApplied.spliced {sort : DescendingSort α} {pf : PrioritisedFix α × Nat}
    {e : TextEdit α} (he : e ∈ pf.1.fix.edits) (h : EditApplied sort source fixes pf e) :
    ((acceptEdit pf.1 e).toEdit, true) ∈ turns source.length (spliced sort fixes) :=
  (Splice.turns_total (own_mem h.1 (mem_ownEdits.mpr ⟨e, he, rfl⟩))).resolve_right h.2

theorem whole_of_disjoint (hdisjoint : DisjointWithin fixes)
    (hall : ∀ sort : DescendingSort α, AllOrNothing sort source fixes) :
    ∀ pf ∈ acceptedFixes fixes, WholeOrOutside source fixes pf.1.fix.edits := by
  intro pf hpf
  have hzip := mem_of_acceptedFixes hpf
  have hdpf : DisjointEdits pf.1.fix.edits := hdisjoint pf.1 (List.fst_mem_of_mem_zipIdx hzip)
  by_cases hsome : ∃ e ∈ pf.1.fix.edits, (acceptEdit pf.1 e).toEdit.InRange source.length
  · -- one edit lies in the source, so the sort that favours the code applies all
    obtain ⟨e, he, hin⟩ := hsome
    have happlied : EditApplied insertionsLast source fixes pf e :=
      ⟨hpf, not_skipped_of_inRange hdisjoint insertionsLast hin⟩
    rcases hall insertionsLast pf hzip with hevery | hnone
    · refine .inl ⟨fun e' he' => ?_, .inl hdpf⟩
      exact inRange_of_insertionsLast hdisjoint ((hevery e' he').spliced he')
    · exact absurd (happlied.spliced he) ((hnone e he).resolve_left fun hno => hno hpf)
  · refine .inr ⟨fun e he hin => hsome ⟨e, he, hin⟩, ?_⟩
    -- an edit that finds room is applied, and so is every other, but they overlap
    by_contra hcon
    obtain ⟨hlong, hroom⟩ := not_or.mp hcon
    apply hroom
    intro e he hstraddle
    have happlied := applied_of_insertionsFirst hdisjoint
      (own_mem hpf (mem_ownEdits.mpr ⟨e, he, rfl⟩)) hstraddle
    rcases hall insertionsFirst pf hzip with hevery | hnone
    · refine hlong (length_le_one_of_straddles (n := source.length) hdpf fun e' he' => ?_)
      rcases inRange_or_straddles hdisjoint insertionsFirst ((hevery e' he').spliced he') with hin | hs
      · exact absurd ⟨e', he', hin⟩ hsome
      · exact ⟨hs.1, hs.2.1⟩
    · exact (hnone e he).elim (fun hno => hno hpf) fun hno => hno happlied

/-- Where none straddles the end, only edits of the source are spliced. -/
theorem inRange_of_turn (hno : NoneStraddles source fixes) (sort : DescendingSort α) {e : Edit α}
    (h : (e, true) ∈ turns source.length (spliced sort fixes)) : e.InRange source.length := by
  obtain ⟨pre, post, hsplit, hfits⟩ := Splice.mem_turns.mp h
  obtain ⟨he, hhi⟩ := of_decide_eq_true hfits.symm
  have hkept : e ∈ keptEdits fixes := (spliced_perm sort).mem_iff.mp (Splice.mem_of_turns h)
  by_cases hlo : e.lo ≤ source.length
  · exact ⟨he, hno e hkept hlo⟩
  · rw [Splice.grown_foldl_outside fun a ha => by
      have := ((spliced_before sort hsplit).1 a ha).1
      omega] at hhi
    omega

/-- The first edit of the fix that lies in the source is spliced. -/
theorem exists_spliced (hno : NoneStraddles source fixes) (sort : DescendingSort α)
    {pf : PrioritisedFix α × Nat} (hpf : pf ∈ acceptedFixes fixes)
    (hsome : ∃ e ∈ ownEdits pf, e.InRange source.length) :
    ∃ e ∈ ownEdits pf, (e, true) ∈ turns source.length (spliced sort fixes) := by
  classical
  obtain ⟨e, he, hin⟩ := hsome
  obtain ⟨a, hfind⟩ : ∃ a, (spliced sort fixes).find?
      (fun a => decide (a ∈ ownEdits pf ∧ a.InRange source.length)) = some a := by
    rw [← Option.isSome_iff_exists, List.find?_isSome]
    exact ⟨e, own_mem hpf he, decide_eq_true ⟨he, hin⟩⟩
  obtain ⟨hp, pre, post, hsplit, hfirst⟩ := List.find?_eq_some_iff_append.mp hfind
  obtain ⟨ha, hain⟩ := of_decide_eq_true hp
  refine ⟨a, ha, Splice.mem_turns.mpr ⟨pre, post, hsplit, (decide_eq_true ⟨hain.1, ?_⟩).symm⟩⟩
  refine Splice.le_grown_foldl (fun b hb => ((spliced_before sort hsplit).1 b hb).1) ?_ hain.2
  intro b hb
  have hbpre := Splice.mem_of_turns hb
  refine (Apart.own hpf ha ((spliced_before sort hsplit).1 b hbpre).2).resolve_right ?_
  rintro ⟨hbown, -⟩
  have hbin := inRange_of_turn hno sort (e := b) (by
    rw [hsplit, Splice.turns_append]
    exact List.mem_append_left _ hb)
  have := hfirst b hbpre
  simp [hbown, hbin] at this

theorem whole_of_noneStraddles (hno : NoneStraddles source fixes)
    (hall : ∀ sort : DescendingSort α, AllOrNothing sort source fixes) :
    ∀ pf ∈ acceptedFixes fixes, WholeOrOutside source fixes pf.1.fix.edits := by
  -- a fix with an edit in the source is applied as a whole
  have hevery : ∀ (sort : DescendingSort α), ∀ pf ∈ acceptedFixes fixes,
      (∃ e ∈ ownEdits pf, e.InRange source.length) →
        ∀ e ∈ pf.1.fix.edits, EditApplied sort source fixes pf e := by
    intro sort pf hpf hsome
    refine (hall sort pf (mem_of_acceptedFixes hpf)).resolve_right fun hnone => ?_
    obtain ⟨e, he, hspliced⟩ := exists_spliced hno sort hpf hsome
    obtain ⟨te, hte, rfl⟩ := mem_ownEdits.mp he
    exact (hnone te hte).elim (fun h => h hpf) fun h => h hspliced
  have hexact : Splice.Exact source.length (spliced tightestFirst fixes) := by
    intro a b hab
    cases b with
    | true => exact (decide_eq_true (inRange_of_turn hno tightestFirst hab)).symm
    | false =>
        refine (decide_eq_false fun hin => ?_).symm
        obtain ⟨pf, hpf, hown⟩ := exists_own (Splice.mem_of_turns hab)
        obtain ⟨e, he, rfl⟩ := mem_ownEdits.mp hown
        exact (hevery tightestFirst pf hpf ⟨_, hown, hin⟩ e he).2 hab
  intro pf hpf
  by_cases hsome : ∃ e ∈ ownEdits pf, e.InRange source.length
  · have hin : ∀ e ∈ pf.1.fix.edits, (acceptEdit pf.1 e).toEdit.InRange source.length :=
      fun e he => inRange_of_turn hno tightestFirst
        ((hevery tightestFirst pf hpf hsome e he).spliced he)
    refine .inl ⟨hin, .inr fun e he => ?_⟩
    rw [← Splice.room_perm (spliced_perm tightestFirst)]
    refine Splice.reach_le_room spliced_tightest (fun a ha => ?_) hexact
      (own_mem hpf (mem_ownEdits.mpr ⟨e, he, rfl⟩)) (hin e he)
    exact hno a ((spliced_perm tightestFirst).mem_iff.mp ha)
  · refine .inr ⟨fun e he hin => hsome ⟨_, mem_ownEdits.mpr ⟨e, he, rfl⟩, hin⟩, .inr ?_⟩
    intro e he hs
    have := hno (acceptEdit pf.1 e).toEdit (by
      rw [keptEdits_eq]
      exact List.mem_flatMap.mpr ⟨pf, hpf, mem_ownEdits.mpr ⟨e, he, rfl⟩⟩) hs.1
    exact Nat.not_lt.mpr this hs.2.1

end Necessary

/-- **Every fix is applied as a whole or not at all, over every sort, IF every
fix that conflict resolution keeps lies wholly inside the source and keeps its
room, or wholly outside it.**  ONLY IF, where the edits of each fix are disjoint
or none that is kept straddles the end. The text is the source with the edits
spliced in that are applied. -/
theorem apply_allOrNothing_iff (source : List α) (fixes : List (PrioritisedFix α)) :
    (∀ sort : DescendingSort α, (apply sort source fixes).1
      = (applied source.length (spliced sort fixes)).foldl Splice.splice source) ∧
    ((∀ pf ∈ acceptedFixes fixes, WholeOrOutside source fixes pf.1.fix.edits) →
      ∀ sort : DescendingSort α, AllOrNothing sort source fixes) ∧
    (DisjointWithin fixes ∨ NoneStraddles source fixes →
      (∀ sort : DescendingSort α, AllOrNothing sort source fixes) →
        ∀ pf ∈ acceptedFixes fixes, WholeOrOutside source fixes pf.1.fix.edits) := by
  refine ⟨fun sort => apply_eq_applied sort source fixes,
    fun hwhole sort => allOrNothing_of_whole hwhole sort, fun hcase hall => ?_⟩
  rcases hcase with hdisjoint | hno
  · exact whole_of_disjoint hdisjoint hall
  · exact whole_of_noneStraddles hno hall

/-! ## §8. The failing input. -/

/-- One fix of two edits: it replaces byte 1, and bytes 7 to 9, of a source
of six bytes. -/
def replaceInAndOutFix : PrioritisedFix Char :=
  ⟨⟨.warning, "a".toList⟩, ⟨[], true, [editAt 1 2 "X".toList, editAt 7 9 "Y".toList]⟩⟩

def replaceInAndOut : List (PrioritisedFix Char) := [replaceInAndOutFix]

theorem replaceInAndOut_disjoint : DisjointWithin replaceInAndOut := by
  unfold DisjointWithin DisjointEdits
  decide

/-- The condition at this input, where it fails. -/
theorem apply_allOrNothing_iff_replaceInAndOut :
    (∀ sort : DescendingSort Char, AllOrNothing sort "abcdef".toList replaceInAndOut) ↔
      ∀ pf ∈ acceptedFixes replaceInAndOut,
        WholeOrOutside "abcdef".toList replaceInAndOut pf.1.fix.edits := by
  have hboth := apply_allOrNothing_iff "abcdef".toList replaceInAndOut
  exact ⟨hboth.2.2 (.inl replaceInAndOut_disjoint), hboth.2.1⟩

/-- **The fix is kept, there is no conflict, and one of its two edits
arrives.** -/
theorem replaceInAndOut_half_applied :
    apply stableSort "abcdef".toList replaceInAndOut = ("aXcdef".toList, [])
      ∧ ¬ AllOrNothing stableSort "abcdef".toList replaceInAndOut := by
  refine ⟨by decide, fun hall => ?_⟩
  have hturns : turns 6 (spliced stableSort replaceInAndOut)
      = [(⟨7, 9, "Y".toList⟩, false), (⟨1, 2, "X".toList⟩, true)] := by decide
  rcases hall (replaceInAndOutFix, 0) (by decide) with hevery | hnone
  · have hY := (hevery (editAt 7 9 "Y".toList) (by decide)).2
    exact hY (by rw [show "abcdef".toList.length = 6 from rfl, hturns]; decide)
  · rcases hnone (editAt 1 2 "X".toList) (by decide) with hno | hX
    · exact hno (by decide)
    · exact hX (by rw [show "abcdef".toList.length = 6 from rfl, hturns]; decide)

end ShaderClippy.Rewriter
