/-
  ShaderClippy.Rewriter.Substitution

  **IS `Rewriter::apply` A SIMULTANEOUS SUBSTITUTION?**

  The rewriter splices with offsets of the ORIGINAL source into a mutating
  copy. What makes that work is an invariant of the acceptance loop
  (`Acceptable`: accepted edits lie in the source and never overlap) and the
  descending order of the second sort: together they are the `Spliceable` of
  `Lib.Splice`, which says exactly when splicing replaces every edit once.

  It fails in one case only: a non-empty zero-width insertion at the very
  byte where another accepted edit starts, when the sort hands the insertion
  out first. Touching is not overlapping, so both are accepted, the two
  sort keys are equal, and the second splice removes bytes the first one has
  just inserted.
-/
import ShaderClippy.Rewriter.Def

namespace ShaderClippy.Rewriter

open Splice (Edit ReplacesOnce Ordered subst Spliceable)

variable {α : Type}

/-! ## §1. Well-formed input. -/

/-- The edits of every fix are in range of a source of `n` bytes and pairwise
disjoint within the fix. -/
structure WellFormedFixes (n : Nat) (fixes : List (PrioritisedFix α)) : Prop where
  inRange : ∀ pf ∈ fixes, ∀ e ∈ pf.fix.edits,
    e.span.bytes.lo ≤ e.span.bytes.hi ∧ e.span.bytes.hi ≤ n
  disjoint : ∀ pf ∈ fixes, pf.fix.edits.Pairwise fun a b =>
    overlaps a.span.bytes.lo a.span.bytes.hi b.span.bytes.lo b.span.bytes.hi = false

/-! ## §2. The invariant of the acceptance loop. -/

/-- Accepted edits lie in the source and never overlap. -/
structure Acceptable (n : Nat) (acc : List (AcceptedEdit α)) : Prop where
  inRange : ∀ ae ∈ acc, ae.toEdit.InRange n
  apart : acc.Pairwise fun a b => ¬ a.toEdit.Overlaps b.toEdit

/-- The Boolean overlap test decides the library's relation. -/
theorem overlaps_eq_false_iff {a b : AcceptedEdit α} :
    overlaps a.byteLo a.byteHi b.byteLo b.byteHi = false ↔ ¬ a.toEdit.Overlaps b.toEdit := by
  rw [← Bool.not_eq_true, overlaps_iff]
  exact Iff.rfl

/-- **The loop's induction**: what adding the edits of a fix without a clash
preserves holds of the accepted edits. -/
theorem accept_induction {P : List (AcceptedEdit α) → Prop} {fixes : List (PrioritisedFix α)}
    (hnil : P [])
    (hadd : ∀ acc, ∀ pf ∈ fixes, findOverlap acc pf.fix = none → P acc →
      P (acc ++ pf.fix.edits.map (acceptEdit pf))) : P (accept fixes).acceptedEdits := by
  have hstep : ∀ (st : Acceptance α), ∀ pf ∈ fixes, P st.acceptedEdits →
      P (acceptStep st pf).acceptedEdits := by
    intro st pf hpf hst
    unfold acceptStep
    split
    · exact hst
    · split
      · exact hst
      next hclash => exact hadd st.acceptedEdits pf hpf hclash hst
  have hrun : ∀ (l : List (PrioritisedFix α × Nat)) (st : Acceptance α),
      (∀ pf ∈ l, pf.1 ∈ fixes) → P st.acceptedEdits →
        P (l.foldl (fun st pf => acceptStep st pf.1) st).acceptedEdits := by
    intro l
    induction l with
    | nil => intro st _ hst; exact hst
    | cons pf l ih =>
        intro st hl hst
        exact ih _ (fun qf hqf => hl qf (List.mem_cons_of_mem _ hqf))
          (hstep st pf.1 (hl pf (List.mem_cons_self ..)) hst)
  exact hrun (order fixes) ⟨[], []⟩ (fun pf hpf => mem_order hpf) hnil

/-- Disjoint within each fix, the accepted edits never overlap. -/
theorem accept_apart {fixes : List (PrioritisedFix α)}
    (h : ∀ pf ∈ fixes, pf.fix.edits.Pairwise fun a b =>
      overlaps a.span.bytes.lo a.span.bytes.hi b.span.bytes.lo b.span.bytes.hi = false) :
    (accept fixes).acceptedEdits.Pairwise fun a b => ¬ a.toEdit.Overlaps b.toEdit := by
  refine accept_induction List.Pairwise.nil ?_
  intro acc pf hpf hclash hacc
  refine List.pairwise_append.mpr ⟨hacc, ?_, ?_⟩
  · rw [List.pairwise_map]
    exact (h pf hpf).imp fun hab => overlaps_eq_false_iff.mp hab
  · intro ae hae ae' hae'
    obtain ⟨e, he, rfl⟩ := List.mem_map.mp hae'
    have hfree := findOverlap_none hclash e he ae hae
    have hsymm : ¬ (acceptEdit pf e).toEdit.Overlaps ae.toEdit :=
      overlaps_eq_false_iff.mp hfree
    exact fun hov => hsymm ⟨hov.2, hov.1⟩

/-- **The accepted edits of well-formed fixes are acceptable.** -/
theorem accept_acceptable {n : Nat} {fixes : List (PrioritisedFix α)}
    (h : WellFormedFixes n fixes) : Acceptable n (accept fixes).acceptedEdits := by
  refine ⟨?_, accept_apart h.disjoint⟩
  refine accept_induction (P := fun acc => ∀ ae ∈ acc, ae.toEdit.InRange n)
    (fun _ hae => absurd hae List.not_mem_nil) ?_
  intro acc pf hpf _ hacc ae hae
  rcases List.mem_append.mp hae with hae | hae
  · exact hacc ae hae
  · obtain ⟨e, he, rfl⟩ := List.mem_map.mp hae
    exact h.inRange pf hpf e he

/-- Sorted by descending `byte_lo`, acceptable edits are spliceable. -/
theorem Acceptable.spliceable {n : Nat} {acc : List (AcceptedEdit α)} (h : Acceptable n acc)
    (sort : DescendingSort α) : Spliceable n ((sort.run acc).map AcceptedEdit.toEdit) := by
  have hsymm : Std.Symm (fun a b : AcceptedEdit α => ¬ a.toEdit.Overlaps b.toEdit) :=
    ⟨fun _ _ hab hba => hab ⟨hba.2, hba.1⟩⟩
  refine ⟨?_, ?_, ?_⟩
  · rw [List.pairwise_map]
    exact sort.sorted acc
  · rw [List.pairwise_map]
    exact h.apart.perm (sort.perm acc).symm fun hab hba => hab ⟨hba.2, hba.1⟩
  · intro e he
    obtain ⟨ae, hae, rfl⟩ := List.mem_map.mp he
    exact h.inRange ae ((sort.perm acc).mem_iff.mp hae)

/-! ## §3. A sort that hands insertions out first. -/

/-- `a` may stand before `b`: descending `byte_lo`, insertions first among
equals. -/
def InsertionFirst (a b : AcceptedEdit α) : Prop :=
  b.byteLo < a.byteLo
    ∨ (a.byteLo = b.byteLo ∧ (a.byteLo = a.byteHi ∨ b.byteLo ≠ b.byteHi))

instance : DecidableRel (InsertionFirst (α := α)) := fun a b => by
  unfold InsertionFirst
  infer_instance

instance : Std.Total (InsertionFirst (α := α)) :=
  ⟨fun a b => by unfold InsertionFirst; omega⟩

instance : IsTrans (AcceptedEdit α) InsertionFirst :=
  ⟨fun a b c hab hbc => by unfold InsertionFirst at *; omega⟩

/-- A descending sort that resolves equal keys against the code. -/
def insertionsFirst : DescendingSort α where
  run l := l.insertionSort InsertionFirst
  perm l := List.perm_insertionSort _ l
  sorted l := (List.pairwise_insertionSort InsertionFirst l).imp fun hab => by
    unfold InsertionFirst at hab
    omega

/-- It never hands an insertion out after an edit that starts there. -/
theorem InsertionFirst.not_insertsAt {a b : AcceptedEdit α} (h : InsertionFirst a b) :
    ¬ b.toEdit.InsertsAt a.toEdit := by
  rintro ⟨h1, -, h2, h3⟩
  simp only [AcceptedEdit.toEdit] at h1 h2 h3
  unfold InsertionFirst at h
  omega

/-- So it exposes every insertion at the start of another accepted edit. -/
theorem insertionsFirst_exposes {acc : List (AcceptedEdit α)}
    (hfree : (insertionsFirst.run acc).Pairwise fun a b => ¬ a.toEdit.InsertsAt b.toEdit) :
    ∀ a ∈ acc, ∀ b ∈ acc, ¬ a.toEdit.InsertsAt b.toEdit := by
  intro a ha b hb hab
  have hsorted : (insertionsFirst.run acc).Pairwise InsertionFirst :=
    List.pairwise_insertionSort InsertionFirst acc
  have hboth : (insertionsFirst.run acc).Pairwise fun a b =>
      ¬ a.toEdit.InsertsAt b.toEdit ∧ ¬ b.toEdit.InsertsAt a.toEdit :=
    (hfree.and hsorted).imp fun h => ⟨h.1, h.2.not_insertsAt⟩
  have hsymm : Std.Symm fun a b : AcceptedEdit α =>
      ¬ a.toEdit.InsertsAt b.toEdit ∧ ¬ b.toEdit.InsertsAt a.toEdit := ⟨fun _ _ h => h.symm⟩
  have hne : a ≠ b := by
    rintro rfl
    exact absurd hab.1 (Nat.ne_of_lt hab.2.2.2)
  have hmem : ∀ {c}, c ∈ acc → c ∈ insertionsFirst.run acc :=
    fun hc => (insertionsFirst.perm acc).mem_iff.mpr hc
  exact (hboth.forall (hmem ha) (hmem hb) hne).1 hab

/-! ## §4. Exactly when `apply` is a substitution. -/

/-- `apply` with this sort is a simultaneous substitution of the accepted
edits. `replaced` follows every byte from where it came (the accepted texts
and the kept source bytes all arrive, once and in place); `output` says it
of the returned bytes alone, where a lost `X` in front of an `X` of the
source would go unnoticed. -/
structure SubstitutesAccepted (sort : DescendingSort α) (source : List α)
    (fixes : List (PrioritisedFix α)) : Prop where
  replaced : ReplacesOnce source
    ((sort.run (accept fixes).acceptedEdits).map AcceptedEdit.toEdit)
  output : ∃ es', es'.Perm ((accept fixes).acceptedEdits.map AcceptedEdit.toEdit)
    ∧ Ordered 0 es' ∧ (apply sort source fixes).1 = subst 0 source es'

/-- No accepted edit inserts text where another accepted edit's non-empty
range starts. -/
def NoInsertionAtStart (fixes : List (PrioritisedFix α)) : Prop :=
  ∀ a ∈ (accept fixes).acceptedEdits, ∀ b ∈ (accept fixes).acceptedEdits,
    ¬ a.toEdit.InsertsAt b.toEdit

/-- For one sort: the insertion must not come out first. -/
theorem substitutesAccepted_iff {source : List α} {fixes : List (PrioritisedFix α)}
    (h : WellFormedFixes source.length fixes) (sort : DescendingSort α) :
    SubstitutesAccepted sort source fixes ↔
      (sort.run (accept fixes).acceptedEdits).Pairwise
        fun a b => ¬ a.toEdit.InsertsAt b.toEdit := by
  have hsplice : Spliceable source.length
      ((sort.run (accept fixes).acceptedEdits).map AcceptedEdit.toEdit) :=
    (accept_acceptable h).spliceable sort
  rw [← List.pairwise_map (f := AcceptedEdit.toEdit)
    (R := fun a b : Edit α => ¬ a.InsertsAt b)]
  constructor
  · intro hsub
    exact hsplice.replacesOnce_iff.mp hsub.replaced
  · intro hfree
    obtain ⟨es', hperm, hord, hrun⟩ := hsplice.run_eq_subst hfree
    refine ⟨hsplice.replacesOnce_iff.mpr hfree, es', ?_, hord, ?_⟩
    · exact hperm.trans ((sort.perm _).map _)
    · rw [apply_fst, hrun]

/-- **`Rewriter::apply` is a simultaneous substitution IF AND ONLY IF no
accepted edit inserts text at the start of another accepted edit** — over
every sort the standard library may use. -/
theorem apply_substitutes_iff {source : List α} {fixes : List (PrioritisedFix α)}
    (h : WellFormedFixes source.length fixes) :
    (∀ sort : DescendingSort α, SubstitutesAccepted sort source fixes) ↔
      NoInsertionAtStart fixes := by
  constructor
  · intro hall
    exact insertionsFirst_exposes ((substitutesAccepted_iff h insertionsFirst).mp
      (hall insertionsFirst))
  · intro hfree sort
    refine (substitutesAccepted_iff h sort).mpr ?_
    refine List.Pairwise.imp_of_mem (R := fun _ _ => True) ?_ (List.pairwise_of_forall fun _ _ => trivial)
    intro a b ha hb _
    exact hfree a ((sort.perm _).mem_iff.mp ha) b ((sort.perm _).mem_iff.mp hb)

/-! ## §5. The failing input. -/

/-- Equal keys keep their acceptance order (insertion sort, as the standard
library does it on short ranges). -/
def stableSort : DescendingSort α where
  run l := l.insertionSort fun a b => b.byteLo ≤ a.byteLo
  perm l := List.perm_insertionSort _ l
  sorted l := by
    have : Std.Total fun a b : AcceptedEdit α => b.byteLo ≤ a.byteLo :=
      ⟨fun a b => Nat.le_total b.byteLo a.byteLo⟩
    have : IsTrans (AcceptedEdit α) fun a b => b.byteLo ≤ a.byteLo :=
      ⟨fun a b c hab hbc => Nat.le_trans hbc hab⟩
    exact List.pairwise_insertionSort _ l

/-- One edit of the first source. -/
def editAt (lo hi : Nat) (text : Text) : TextEdit Char := ⟨⟨⟨1⟩, ⟨lo, hi⟩⟩, text⟩

/-- An error's fix inserts `X` at byte 2, a warning's fix replaces bytes 2
and 3 by `Y`. -/
def insertAndReplace : List (PrioritisedFix Char) :=
  [⟨⟨.error, "a".toList⟩, ⟨[], true, [editAt 2 2 "X".toList]⟩⟩,
   ⟨⟨.warning, "b".toList⟩, ⟨[], true, [editAt 2 4 "Y".toList]⟩⟩]

theorem insertAndReplace_wellFormed : WellFormedFixes 6 insertAndReplace := by
  constructor <;> decide

/-- The exact condition at this input, where it fails. -/
theorem apply_substitutes_iff_insertAndReplace :
    WellFormedFixes 6 insertAndReplace
      ∧ ((∀ sort : DescendingSort Char,
            SubstitutesAccepted sort "abcdef".toList insertAndReplace) ↔
          NoInsertionAtStart insertAndReplace) :=
  ⟨insertAndReplace_wellFormed, apply_substitutes_iff insertAndReplace_wellFormed⟩

/-- **Both fixes are accepted, without a conflict, and the inserted `X` is
gone**: the output is `abYdef`, and no simultaneous substitution of the two
edits gives that. -/
theorem insertAndReplace_loses_insertion :
    WellFormedFixes 6 insertAndReplace
      ∧ (accept insertAndReplace).acceptedEdits.map AcceptedEdit.toEdit
          = [⟨2, 2, "X".toList⟩, ⟨2, 4, "Y".toList⟩]
      ∧ apply stableSort "abcdef".toList insertAndReplace = ("abYdef".toList, [])
      ∧ ¬ SubstitutesAccepted stableSort "abcdef".toList insertAndReplace := by
  refine ⟨insertAndReplace_wellFormed, by decide, by decide, ?_⟩
  rintro ⟨-, es', hperm, -, hout⟩
  have hmem : (⟨2, 2, "X".toList⟩ : Edit Char) ∈ es' := hperm.mem_iff.mpr (by decide)
  have hX : 'X' ∈ subst 0 "abcdef".toList es' := Splice.mem_subst es' 0 _ hmem (by decide)
  rw [← hout] at hX
  exact absurd hX (by decide)

end ShaderClippy.Rewriter
