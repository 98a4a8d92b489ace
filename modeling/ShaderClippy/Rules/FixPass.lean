/-
  ShaderClippy.Rules.FixPass

  **ALL FIXES OF ONE RUN.**

  A run hands the fixes of all rules to the rewriter, which takes some of them
  and splices their edits into one text. A fix is safe on its own if every edit
  puts in the place of a node another one that fits there and has its value.
  Safe fixes are safe together, whichever the rewriter takes: from the right to
  the left every edit still finds the node it is about (`Replacement.across`), and
  the text that comes out reads as a tree that comes of one replacement after the
  other (`apply_replaces`), with the same value (`apply_keepsValue`).
-/
import ShaderClippy.Hlsl.Meaning
import ShaderClippy.Hlsl.Places
import ShaderClippy.Rewriter.Greedy
import ShaderClippy.Rules.NodeFix

namespace ShaderClippy.Rules

open Hlsl
open Munch (LexOK Seam)
open Rewriter (PrioritisedFix DescendingSort)

variable {isType : Text → Bool} {V ι : Type}

/-! ## §1. One node for another. -/

/-- The other node binds as tightly as the place asks and runs into nothing. -/
structure Fits (isType : Text → Bool) (c : Ctx) (node new : Expr) : Prop where
  lead : new.lead = node.lead
  part : Part isType new
  need : c.need isType ≤ new.level isType
  before : Seam rules c.before new.toks
  after : Seam rules new.toks c.after

/-- The other node means the same in this place; only what is called is asked for
more than its value. -/
def Interchangeable (isType : Text → Bool) (A : Algebra V) (c : Ctx) (node new : Expr) : Prop :=
  meaning A node = meaning A new ∨ SameValue A node new ∧ c.need isType < kPostfix

/-- A node of the tree and another one for its place, in every one of the
meanings. -/
structure Replacement (isType : Text → Bool) (A : ι → Algebra V) (root : Expr) where
  place : Ctx
  node : Expr
  new : Expr
  plugged : place.plug node = root
  fits : Fits isType place node new
  same : ∀ i, Interchangeable isType (A i) place node new

namespace Replacement

variable {A : ι → Algebra V} {root : Expr}

/-- The tree with the other node. -/
def result (r : Replacement isType A root) : Expr := r.place.plug r.new

/-- The edit that writes it. -/
def edit (r : Replacement isType A root) : Splice.Edit Char :=
  ⟨(byteRange r.place r.node).lo, (byteRange r.place r.node).hi, nodeText r.new⟩

/-- The other tree has the value of the tree. -/
theorem value_result (r : Replacement isType A root) (i : ι) : r.result.value (A i) = root.value (A i) := by
  refine Eq.trans ?_ (congrArg (Expr.value (A i)) r.plugged)
  obtain h | ⟨h, hneed⟩ := r.same i
  · exact congrArg Meaning.value (meaning_plug_congr h r.place).symm
  · exact (value_plug_congr h hneed).symm

theorem lexOK_root (r : Replacement isType A root) {s : Text} (h : parseText isType s = some root) :
    LexOK rules (r.place.plug r.node).toks := by
  rw [r.plugged]
  exact (parseText_iff.mp h).2.1

/-- The edit is in range of a text that reads as the tree. -/
theorem edit_inRange (r : Replacement isType A root) {s : Text} (h : parseText isType s = some root) :
    r.edit.lo < r.edit.hi ∧ r.edit.hi ≤ s.length := by
  obtain ⟨_, _, trail, _, hs⟩ := parseText_iff.mp h
  refine ⟨byteRange_lt (r.lexOK_root h), ?_⟩
  have hle : r.edit.hi ≤ (Munch.render (r.place.plug r.node).toks).length := byteRange_hi_le r.place r.node
  rw [r.plugged] at hle
  rw [hs, List.length_append]
  omega

/-- Splicing the edit and reading again gives the other tree. -/
theorem parse_splice (r : Replacement isType A root) {s : Text} (h : parseText isType s = some root) :
    parseText isType (Splice.splice s r.edit) = some r.result := by
  have hplug : parseText isType s = some (r.place.plug r.node) := by rw [h, r.plugged]
  exact (reparse_iff hplug r.fits.lead).mpr
    ⟨r.fits.part.1, r.fits.need, r.fits.part.2, r.fits.before, r.fits.after⟩

/-- **To the left of a replacement nothing moves**: what could be put in the place
of a node there still can be, with the same edit. -/
theorem across (r : Replacement isType A root) {s : Text} (h : parseText isType s = some root)
    (q : Replacement isType A root) (hapart : q.edit.hi ≤ r.edit.lo) :
    ∃ q' : Replacement isType A r.result, q'.edit = q.edit ∧ q'.node = q.node ∧ q'.new = q.new := by
  obtain ⟨c, hplug, hplace, _⟩ :=
    @stays_left isType _ _ _ _ (q.plugged.trans r.plugged.symm) (q.lexOK_root h) hapart r.new
  refine ⟨⟨c, q.node, q.new, hplug, ?_, ?_⟩, ?_, rfl, rfl⟩
  · refine ⟨q.fits.lead, q.fits.part, ?_, ?_, (hplace.seam_after _).mpr q.fits.after⟩
    · rw [hplace.need]
      exact q.fits.need
    · rw [hplace.before]
      exact q.fits.before
  · intro i
    unfold Interchangeable
    rw [hplace.need]
    exact q.same i
  · unfold edit
    rw [hplace.byteRange_eq]

end Replacement

/-! ## §2. From the right to the left. -/

/-- As many replacements, one after the other, each of a node by one that is related
to it. -/
inductive Replaces (isType : Text → Bool) (A : ι → Algebra V) (P : Expr → Expr → Prop) : Nat → Expr → Expr → Prop
  | refl (root : Expr) : Replaces isType A P 0 root root
  | step {n : Nat} {root root' : Expr} (r : Replacement isType A root) (related : P r.node r.new)
      (rest : Replaces isType A P n r.result root') : Replaces isType A P (n + 1) root root'

/-- The value is the same at the end. -/
theorem Replaces.value {A : ι → Algebra V} {P : Expr → Expr → Prop} {n : Nat} {root root' : Expr}
    (h : Replaces isType A P n root root') (i : ι) : root'.value (A i) = root.value (A i) := by
  induction h with
  | refl => rfl
  | step r _ _ ih => exact ih.trans (r.value_result i)

/-- How many tokens of a tree are among the words. -/
def occurrences (words : List Text) (e : Expr) : Nat := e.toks.countP fun t => decide (t.body ∈ words)

/-- The other node has fewer of the words. -/
def Lighter (words : List Text) (node new : Expr) : Prop := occurrences words new < occurrences words node

/-- Every replacement by a lighter node takes at least one of the words away. -/
theorem Replaces.occurrences_le {A : ι → Algebra V} {words : List Text} {n : Nat} {root root' : Expr}
    (h : Replaces isType A (Lighter words) n root root') : occurrences words root' + n ≤ occurrences words root := by
  induction h with
  | refl => exact Nat.le_refl _
  | @step n root root' r related _ ih =>
      have hplug : ∀ e : Expr, occurrences words (r.place.plug e)
          = r.place.before.countP (fun t => decide (t.body ∈ words)) + occurrences words e
            + r.place.after.countP (fun t => decide (t.body ∈ words)) := by
        intro e
        unfold occurrences
        rw [Ctx.toks_plug, List.countP_append, List.countP_append]
      have hroot := hplug r.node
      have hresult := hplug r.new
      unfold Lighter at related
      rw [r.plugged] at hroot
      change occurrences words r.result = _ at hresult
      omega

/-- **Replacements that are apart**, from the right to the left: the text that
comes out reads as the tree they lead to. -/
theorem run_replaces {A : ι → Algebra V} {P : Expr → Expr → Prop} {edits : List (Splice.Edit Char)} {s : Text}
    {root : Expr} (h : parseText isType s = some root) (hdesc : Splice.Descending edits)
    (hall : ∀ e ∈ edits, ∃ r : Replacement isType A root, r.edit = e ∧ P r.node r.new) :
    ∃ root', parseText isType (Splice.run s edits) = some root' ∧ Replaces isType A P edits.length root root' := by
  induction edits generalizing s root with
  | nil => exact ⟨root, h, .refl root⟩
  | cons e edits ih =>
      obtain ⟨r, rfl, hr⟩ := hall e List.mem_cons_self
      obtain ⟨hapart, hrest⟩ := List.pairwise_cons.mp hdesc
      obtain ⟨hlt, hle⟩ := r.edit_inRange h
      rw [Splice.run_cons ⟨Nat.le_of_lt hlt, hle⟩]
      -- the edits that are left are to the left of this one
      have hmoved : ∀ e ∈ edits, ∃ q : Replacement isType A r.result, q.edit = e ∧ P q.node q.new := by
        intro e he
        obtain ⟨q, rfl, hq⟩ := hall e (List.mem_cons_of_mem _ he)
        obtain ⟨q', hedit, hnode, hnew⟩ := r.across h q (hapart _ he)
        exact ⟨q', hedit, by rwa [hnode, hnew]⟩
      obtain ⟨root', hread, hreplaces⟩ := ih (r.parse_splice h) hrest hmoved
      exact ⟨root', hread, .step r hr hreplaces⟩

/-! ## §3. The rewriter. -/

/-- A fix whose edits are replacements, none over another, each of a node by one that
is related to it. -/
structure SafeFix (isType : Text → Bool) (A : ι → Algebra V) (P : Expr → Expr → Prop) (root : Expr) (f : Fix Char) :
    Prop where
  edits : ∀ e ∈ f.edits, ∃ r : Replacement isType A root,
    r.edit = ⟨e.span.bytes.lo, e.span.bytes.hi, e.replacement⟩ ∧ P r.node r.new
  apart : f.edits.Pairwise fun a b =>
    Rewriter.overlaps a.span.bytes.lo a.span.bytes.hi b.span.bytes.lo b.span.bytes.hi = false

/-- A fix of one edit. -/
theorem safeFix_single {A : ι → Algebra V} {P : Expr → Expr → Prop} {root : Expr} (r : Replacement isType A root)
    (related : P r.node r.new) (source : SourceId) (description : Text) (machineApplicable : Bool) :
    SafeFix isType A P root (nodeFix source r.place r.node description machineApplicable (nodeText r.new)) where
  edits := by
    intro e he
    cases List.mem_singleton.mp he
    exact ⟨r, rfl, related⟩
  apart := List.pairwise_singleton ..

variable {A : ι → Algebra V} {P : Expr → Expr → Prop} {s : Text} {root : Expr} {fixes : List (PrioritisedFix Char)}

/-- Every accepted edit is a replacement. -/
theorem accepted_replacement (hsafe : ∀ pf ∈ fixes, SafeFix isType A P root pf.fix) :
    ∀ ae ∈ (Rewriter.accept fixes).acceptedEdits,
      ∃ r : Replacement isType A root, r.edit = ae.toEdit ∧ P r.node r.new := by
  refine Rewriter.accept_induction
    (P := fun acc => ∀ ae ∈ acc, ∃ r : Replacement isType A root, r.edit = ae.toEdit ∧ P r.node r.new)
    (fun _ hae => absurd hae List.not_mem_nil) ?_
  intro acc pf hpf _ hacc ae hae
  obtain hae | hae := List.mem_append.mp hae
  · exact hacc ae hae
  · obtain ⟨e, he, rfl⟩ := List.mem_map.mp hae
    exact (hsafe pf hpf).edits e he

/-- Safe fixes are in range and each of them is disjoint. -/
theorem wellFormedFixes (h : parseText isType s = some root)
    (hsafe : ∀ pf ∈ fixes, SafeFix isType A P root pf.fix) : Rewriter.WellFormedFixes s.length fixes where
  inRange := by
    intro pf hpf e he
    obtain ⟨r, hr, _⟩ := (hsafe pf hpf).edits e he
    obtain ⟨hlt, hle⟩ := r.edit_inRange h
    rw [hr] at hlt hle
    exact ⟨Nat.le_of_lt hlt, hle⟩
  disjoint := fun pf hpf => (hsafe pf hpf).apart

/-- Ranges that are not empty and do not overlap are one behind the other. -/
theorem descending_of_spliceable {n : Nat} {es : List (Splice.Edit Char)} (h : Splice.Spliceable n es)
    (hne : ∀ e ∈ es, e.lo < e.hi) : Splice.Descending es := by
  refine (h.sorted.and h.apart).imp_of_mem ?_
  rintro a b ha hb ⟨hsorted, hapart⟩
  have hlt := hne b hb
  have hlt' := hne a ha
  by_contra hnot
  exact hapart ⟨by omega, by omega⟩

/-- **Safe fixes are safe together**: whichever of them the rewriter takes, and
in whatever order it sorts them, the text that comes out reads as a tree that comes of
as many replacements as there are accepted edits. -/
theorem apply_replaces (h : parseText isType s = some root)
    (hsafe : ∀ pf ∈ fixes, SafeFix isType A P root pf.fix) (sort : DescendingSort Char) :
    ∃ root', parseText isType (Rewriter.apply sort s fixes).1 = some root'
      ∧ Replaces isType A P (Rewriter.accept fixes).acceptedEdits.length root root' := by
  have hall : ∀ e ∈ (sort.run (Rewriter.accept fixes).acceptedEdits).map Rewriter.AcceptedEdit.toEdit,
      ∃ r : Replacement isType A root, r.edit = e ∧ P r.node r.new := by
    intro e he
    obtain ⟨ae, hae, rfl⟩ := List.mem_map.mp he
    exact accepted_replacement hsafe ae ((sort.perm _).mem_iff.mp hae)
  have hsplice := (Rewriter.accept_acceptable (wellFormedFixes h hsafe)).spliceable sort
  have hne : ∀ e ∈ (sort.run (Rewriter.accept fixes).acceptedEdits).map Rewriter.AcceptedEdit.toEdit, e.lo < e.hi := by
    intro e he
    obtain ⟨r, rfl, _⟩ := hall e he
    exact (r.edit_inRange h).1
  rw [Rewriter.apply_fst, ← (sort.perm (Rewriter.accept fixes).acceptedEdits).length_eq,
    ← List.length_map (f := Rewriter.AcceptedEdit.toEdit)]
  exact run_replaces h (descending_of_spliceable hsplice hne) hall

/-- It has the value it had, in every one of the meanings. -/
theorem apply_keepsValue (h : parseText isType s = some root)
    (hsafe : ∀ pf ∈ fixes, SafeFix isType A P root pf.fix) (sort : DescendingSort Char) :
    ∃ root', parseText isType (Rewriter.apply sort s fixes).1 = some root'
      ∧ ∀ i, root'.value (A i) = root.value (A i) := by
  obtain ⟨root', hread, hreplaces⟩ := apply_replaces h hsafe sort
  exact ⟨root', hread, hreplaces.value⟩

/-- An accepted edit is not taken back. -/
theorem acceptStep_ne_nil {α : Type} {st : Rewriter.Acceptance α} (h : st.acceptedEdits ≠ [])
    (pf : PrioritisedFix α) : (Rewriter.acceptStep st pf).acceptedEdits ≠ [] := by
  unfold Rewriter.acceptStep
  split
  · exact h
  · split
    · exact h
    · exact fun hnil => h (List.append_eq_nil_iff.mp hnil).1

theorem foldl_acceptStep_ne_nil {α : Type} {l : List (PrioritisedFix α × Nat)} {st : Rewriter.Acceptance α}
    (h : st.acceptedEdits ≠ []) : (l.foldl (fun st pf => Rewriter.acceptStep st pf.1) st).acceptedEdits ≠ [] := by
  induction l generalizing st with
  | nil => exact h
  | cons pf l ih => exact ih (acceptStep_ne_nil h pf.1)

/-- The rewriter takes at least one of the fixes. -/
theorem accept_ne_nil {α : Type} {fixes : List (PrioritisedFix α)} (hne : fixes ≠ [])
    (hedits : ∀ pf ∈ fixes, pf.fix.edits ≠ []) : (Rewriter.accept fixes).acceptedEdits ≠ [] := by
  unfold Rewriter.accept
  cases horder : Rewriter.order fixes with
  | nil =>
      have hlength : (Rewriter.order fixes).length = fixes.length := by
        unfold Rewriter.order
        rw [List.length_insertionSort, List.length_zipIdx]
      rw [horder] at hlength
      exact absurd (List.length_eq_zero_iff.mp hlength.symm) hne
  | cons pf l =>
      -- nothing was accepted before the first one, so it is
      have hmem : pf.1 ∈ fixes := Rewriter.mem_order (by rw [horder]; exact List.mem_cons_self)
      rw [List.foldl_cons]
      refine foldl_acceptStep_ne_nil ?_
      obtain ⟨first, rest, hfirst⟩ := List.exists_cons_of_ne_nil (hedits pf.1 hmem)
      have hfree : Rewriter.findOverlap ([] : List (Rewriter.AcceptedEdit α)) pf.1.fix = none := by
        unfold Rewriter.findOverlap
        simp
      show (Rewriter.acceptStep ⟨[], []⟩ pf.1).acceptedEdits ≠ []
      unfold Rewriter.acceptStep
      rw [hfirst, hfree]
      exact List.cons_ne_nil _ _

/-! ## §4. Fixes that are apart. -/

/-- Nothing is rejected of fixes of which no two overlap. -/
theorem rejectedFrom_apart {α : Type} {l : List (PrioritisedFix α × Nat)} :
    ∀ {done : List (PrioritisedFix α × Nat)},
      (done ++ l).Pairwise (fun a b => ¬ Rewriter.FixesOverlap b.1.fix a.1.fix) →
      Rewriter.rejectedFrom (done.flatMap Rewriter.editsOf) l = [] := by
  induction l with
  | nil => exact fun _ => rfl
  | cons pf l ih =>
      intro done h
      have hfree : Rewriter.findOverlap (done.flatMap Rewriter.editsOf) pf.1.fix = none := by
        by_contra hne
        obtain ⟨clash, hclash⟩ := Option.ne_none_iff_exists'.mp hne
        obtain ⟨hmem, e, he, hov⟩ := Rewriter.findOverlap_some hclash
        obtain ⟨qf, hqf, hedit⟩ := List.mem_flatMap.mp hmem
        obtain ⟨e', he', rfl⟩ := List.mem_map.mp hedit
        exact (List.pairwise_append.mp h).2.2 qf hqf pf List.mem_cons_self ⟨e, he, e', he', hov⟩
      rw [Rewriter.rejectedFrom, hfree]
      have hdone : done.flatMap Rewriter.editsOf ++ Rewriter.editsOf pf
          = (done ++ [pf]).flatMap Rewriter.editsOf := by simp
      simp only [hdone]
      refine ih ?_
      rwa [List.append_assoc]

/-- **No fix is dropped** of fixes of which no two overlap. -/
theorem apply_noConflict {α : Type} (sort : DescendingSort α) (source : List α)
    {fixes : List (PrioritisedFix α)}
    (h : fixes.Pairwise fun a b => ¬ Rewriter.FixesOverlap a.fix b.fix) :
    (Rewriter.apply sort source fixes).2 = [] := by
  have hsymm : ∀ f g : Fix α, Rewriter.FixesOverlap f g → Rewriter.FixesOverlap g f := by
    rintro f g ⟨e, he, e', he', hov⟩
    refine ⟨e', he', e, he, ?_⟩
    rw [Rewriter.overlaps_iff] at hov ⊢
    exact hov.symm
  have hindexed : fixes.zipIdx.Pairwise fun a b => ¬ Rewriter.FixesOverlap b.1.fix a.1.fix := by
    have hfst : (fixes.zipIdx.map Prod.fst).Pairwise fun a b => ¬ Rewriter.FixesOverlap b.fix a.fix := by
      rw [List.zipIdx_map_fst]
      exact h.imp fun hab hba => hab (hsymm _ _ hba)
    exact List.pairwise_map.mp hfst
  have horder : (Rewriter.order fixes).Pairwise fun a b => ¬ Rewriter.FixesOverlap b.1.fix a.1.fix :=
    hindexed.perm (List.perm_insertionSort Rewriter.Outranks _).symm fun hab hba => hab (hsymm _ _ hba)
  have hnone : Rewriter.rejectedFrom [] (Rewriter.order fixes) = [] := @rejectedFrom_apart _ _ [] horder
  obtain ⟨cs, hcs, hrep⟩ :=
    Rewriter.foldl_conflicts (Rewriter.order fixes) [] ⟨[], []⟩ rfl (Rewriter.order_precedes fixes)
  rw [hnone] at hrep
  cases hrep
  rw [Rewriter.apply_snd]
  exact hcs

end ShaderClippy.Rules
