/-
  ShaderClippy.Rewriter.Def

  **THE QUICK-FIX REWRITER** (`rewriter.cpp`).

  `Rewriter::apply` sorts the fixes by priority, accepts them greedily (a fix
  is dropped as soon as one of its edits overlaps an accepted one), sorts the
  accepted edits by descending `byte_lo` and splices them one after another
  into a copy of the source.

  Two sorts, two models:

    • by priority — the input index makes the order strict and total, so the
      result is unique and any sort computes it: `List.insertionSort`;
    • by `byte_lo` — keys may be EQUAL and `std::ranges::sort` is not stable,
      so the standard promises a sorted permutation and no more:
      `DescendingSort` is a parameter of everything downstream.
-/
import ShaderClippy.Diagnostic
import ShaderClippy.Lib.Splice

namespace ShaderClippy.Rewriter

variable {α : Type}

/-! ## §1. Priorities, conflicts, accepted edits. -/

/-- Errors win, warnings next, notes last. -/
def severityRank : Severity → Nat
  | .error => 2
  | .warning => 1
  | .note => 0

/-- Priority of a fix when overlaps are resolved. -/
structure FixPriority where
  severity : Severity
  ruleId : Text
  deriving Repr, DecidableEq

/-- One fix-with-priority pair handed to the rewriter. -/
structure PrioritisedFix (α : Type) where
  priority : FixPriority
  fix : Fix α
  deriving Repr, DecidableEq

/-- A fix that was dropped, the rule that won, and the dropped fix's first
edit. -/
structure FixConflict where
  droppedRuleId : Text
  winningRuleId : Text
  byteLo : Nat
  byteHi : Nat
  deriving Repr, DecidableEq

/-- One edit of an accepted fix. -/
structure AcceptedEdit (α : Type) where
  byteLo : Nat
  byteHi : Nat
  replacement : List α
  ownerRuleId : Text
  deriving Repr, DecidableEq

/-- Higher severity first, then the smaller rule id, then the input index. -/
def priorityGreater (a : FixPriority) (aIdx : Nat) (b : FixPriority) (bIdx : Nat) : Bool :=
  let ra := severityRank a.severity
  let rb := severityRank b.severity
  if ra ≠ rb then decide (ra > rb)
  else if a.ruleId ≠ b.ruleId then decide (a.ruleId < b.ruleId)
  else decide (aIdx < bIdx)

/-- Half-open `[lo, hi)` overlap test: touching at an endpoint is no overlap. -/
def overlaps (aLo aHi bLo bHi : Nat) : Bool :=
  decide (aLo < bHi) && decide (bLo < aHi)

/-! ## §2. Acceptance. -/

/-- `a` may stand before `b` in priority order. -/
def Outranks (a b : PrioritisedFix α × Nat) : Prop :=
  priorityGreater b.1.priority b.2 a.1.priority a.2 = false

instance : DecidableRel (Outranks (α := α)) := fun a b =>
  inferInstanceAs (Decidable (priorityGreater b.1.priority b.2 a.1.priority a.2 = false))

/-- The stable index list, sorted by priority. -/
def order (fixes : List (PrioritisedFix α)) : List (PrioritisedFix α × Nat) :=
  fixes.zipIdx.insertionSort Outranks

/-- The first accepted edit that an edit of `f` overlaps, in the order of the
edits of `f`. -/
def findOverlap (acceptedEdits : List (AcceptedEdit α)) (f : Fix α) : Option (AcceptedEdit α) :=
  f.edits.findSome? fun e =>
    acceptedEdits.find? fun ae => overlaps e.span.bytes.lo e.span.bytes.hi ae.byteLo ae.byteHi

/-- The conflict reported for a dropped fix. -/
def conflictOf (pf : PrioritisedFix α) (clash : AcceptedEdit α) (first : TextEdit α) :
    FixConflict :=
  ⟨pf.priority.ruleId, clash.ownerRuleId, first.span.bytes.lo, first.span.bytes.hi⟩

/-- An edit of `pf`, recorded as accepted. -/
def acceptEdit (pf : PrioritisedFix α) (e : TextEdit α) : AcceptedEdit α :=
  ⟨e.span.bytes.lo, e.span.bytes.hi, e.replacement, pf.priority.ruleId⟩

/-- Accepted edits and conflicts so far. -/
structure Acceptance (α : Type) where
  acceptedEdits : List (AcceptedEdit α)
  conflicts : List FixConflict
  deriving Repr, DecidableEq

/-- One turn of the acceptance loop. -/
def acceptStep (st : Acceptance α) (pf : PrioritisedFix α) : Acceptance α :=
  match pf.fix.edits with
  | [] => st
  | first :: _ =>
      match findOverlap st.acceptedEdits pf.fix with
      | some clash => { st with conflicts := st.conflicts ++ [conflictOf pf clash first] }
      | none => { st with acceptedEdits := st.acceptedEdits ++ pf.fix.edits.map (acceptEdit pf) }

/-- The acceptance loop over the fixes in priority order. -/
def accept (fixes : List (PrioritisedFix α)) : Acceptance α :=
  (order fixes).foldl (fun st pf => acceptStep st pf.1) ⟨[], []⟩

/-! ## §3. Splicing. -/

/-- An accepted edit as a splice. -/
def AcceptedEdit.toEdit (ae : AcceptedEdit α) : Splice.Edit α :=
  ⟨ae.byteLo, ae.byteHi, ae.replacement⟩

/-- What `std::ranges::sort` with `a.byte_lo > b.byte_lo` guarantees: a
permutation in descending order of `byte_lo`. Edits with EQUAL `byte_lo` may
come out either way. -/
structure DescendingSort (α : Type) where
  run : List (AcceptedEdit α) → List (AcceptedEdit α)
  perm : ∀ l, (run l).Perm l
  sorted : ∀ l, (run l).Pairwise (fun a b => b.byteLo ≤ a.byteLo)

/-- Splice the accepted edits into `out`, skipping those that no longer fit. -/
def spliceAll : List α → List (AcceptedEdit α) → List α
  | out, [] => out
  | out, e :: es =>
      if e.byteLo > out.length || e.byteHi > out.length || e.byteHi < e.byteLo then
        spliceAll out es
      else
        spliceAll (out.take e.byteLo ++ e.replacement ++ out.drop e.byteHi) es

/-- **`Rewriter::apply`**: the rewritten source and the conflicts. -/
def apply (sort : DescendingSort α) (source : List α) (fixes : List (PrioritisedFix α)) :
    List α × List FixConflict :=
  match fixes with
  | [] => (source, [])
  | _ =>
      let acceptance := accept fixes
      (spliceAll source (sort.run acceptance.acceptedEdits), acceptance.conflicts)

/-! ## §4. The definitions, read back. -/

theorem overlaps_iff {aLo aHi bLo bHi : Nat} :
    overlaps aLo aHi bLo bHi = true ↔ aLo < bHi ∧ bLo < aHi := by
  simp only [overlaps, Bool.and_eq_true, decide_eq_true_eq]

theorem mem_order {fixes : List (PrioritisedFix α)} {pf : PrioritisedFix α × Nat}
    (h : pf ∈ order fixes) : pf.1 ∈ fixes :=
  List.fst_mem_of_mem_zipIdx ((List.mem_insertionSort _).mp h)

/-- No edit of a fix without a clash overlaps an accepted one. -/
theorem findOverlap_none {acc : List (AcceptedEdit α)} {f : Fix α}
    (h : findOverlap acc f = none) :
    ∀ e ∈ f.edits, ∀ ae ∈ acc,
      overlaps e.span.bytes.lo e.span.bytes.hi ae.byteLo ae.byteHi = false := by
  intro e he ae hae
  simp only [findOverlap, List.findSome?_eq_none_iff, List.find?_eq_none] at h
  simpa using h e he ae hae

/-- `spliceAll` is the library's `run` on the edits' ranges and texts. -/
theorem spliceAll_eq_run (es : List (AcceptedEdit α)) :
    ∀ out : List α, spliceAll out es = Splice.run out (es.map AcceptedEdit.toEdit) := by
  induction es with
  | nil => intro out; rfl
  | cons e es ih =>
      intro out
      rw [List.map_cons, spliceAll, Splice.run, ih, ih]
      rfl

/-- An empty list of fixes accepts nothing. -/
theorem accept_nil : accept ([] : List (PrioritisedFix α)) = ⟨[], []⟩ := rfl

/-- The early return for an empty list of fixes is the general case. -/
theorem apply_fst (sort : DescendingSort α) (source : List α) (fixes : List (PrioritisedFix α)) :
    (apply sort source fixes).1
      = Splice.run source ((sort.run (accept fixes).acceptedEdits).map AcceptedEdit.toEdit) := by
  cases fixes with
  | nil =>
      have hnil : sort.run ([] : List (AcceptedEdit α)) = [] :=
        List.perm_nil.mp (sort.perm [])
      rw [accept_nil, hnil]
      rfl
  | cons f fs => exact spliceAll_eq_run _ _

end ShaderClippy.Rewriter
