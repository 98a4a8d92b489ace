/-
  ShaderClippy.ControlFlow.GraphQueries

  **THE SEARCHES ON ONE FUNCTION ARE EXACT** (`cfg_storage.cpp`,
  `helper_lane_analyzer.cpp`, `cfg_query.cpp`).

  `reachable` looks for one block, `any_discard_can_reach` does so from every
  marked block, `any_reachable_discard` looks for any marked block. Whatever
  the successor lists hold (duplicates, cycles, indices of no block), each
  answers what the paths of the function say, and its loop ends
  (`graphSearches_exact`).
-/
import ShaderClippy.ControlFlow.HelperLane

namespace ShaderClippy.ControlFlow

open Graph (Reach)
open Loop (Turn loop)

/-! ## §1. `any_reachable_discard`. -/

/-- The inner loop: `done true` as soon as a marked block is met. -/
def expandDiscard (fn : CfgFunction) : List Nat → Search → Turn Search Bool
  | [], s => .more s
  | succ :: rest, s =>
      if succ ≥ fn.blocks.length || s.seen.getD succ false then expandDiscard fn rest s
      else if fn.containsDiscard succ then .done true
      else expandDiscard fn rest ⟨s.seen.set succ true, succ :: s.stack⟩

/-- One turn of the loop. -/
def discardStep (fn : CfgFunction) (s : Search) : Option (Turn Search Bool) :=
  match s.stack with
  | [] => some (.done false)
  | cur :: rest => some (expandDiscard fn (fn.successors cur) ⟨s.seen, rest⟩)

/-- **`any_reachable_discard`.** -/
def anyReachableDiscard (fn : CfgFunction) (startLocal : Nat) : Bool :=
  if startLocal ≥ fn.blocks.length then false
  else if fn.containsDiscard startLocal then true
  else (loop (discardStep fn) (searchFuel fn) (Search.start fn startLocal)).getD false

/-! ## §2. It is a search for a goal. -/

theorem expandDiscard_eq (fn : CfgFunction) (succs : List Nat) (s : Search) :
    expandDiscard fn succs s = expandTo fn (fun _ => false) fn.containsDiscard succs s := by
  induction succs generalizing s with
  | nil => rfl
  | cons succ rest ih =>
      unfold expandDiscard expandTo
      simp only [ih, Bool.false_eq_true, if_false]

theorem discardStep_eq (fn : CfgFunction) :
    discardStep fn = searchStepTo fn false (fun _ => false) fn.containsDiscard := by
  funext s
  unfold discardStep searchStepTo
  cases s.stack with
  | nil => rfl
  | cons cur rest => simp only [expandDiscard_eq, Bool.false_and, Bool.false_eq_true, if_false]

/-- **The query finds exactly the paths** to the marked blocks. -/
theorem anyReachableDiscard_iff (fn : CfgFunction) (start : Nat) :
    anyReachableDiscard fn start = true
      ↔ ∃ d, fn.containsDiscard d = true ∧ Reach fn.Edge start d := by
  unfold anyReachableDiscard
  split
  next hout =>
    refine ⟨nofun, fun ⟨d, hmark, hreach⟩ => ?_⟩
    -- a path from outside the blocks goes nowhere
    rcases Relation.ReflTransGen.cases_head hreach with heq | ⟨v, he, -⟩
    · have hd := CfgFunction.containsDiscard_lt hmark
      omega
    · have hlt := he.src_lt
      omega
  next hin =>
    cases hself : fn.containsDiscard start with
    | true => exact ⟨fun _ => ⟨start, hself, .refl⟩, fun _ => rfl⟩
    | false =>
        obtain ⟨r, hr, hiff⟩ := @searchTo_spec fn (fun _ => false) fn.containsDiscard start false
          (by omega) hself _ (Nat.le_refl _)
        rw [discardStep_eq, hr, if_neg nofun, Option.getD_some, hiff]
        constructor
        · intro ⟨d, hmark, hmeets⟩
          exact ⟨d, hmark, meets_reach hmeets⟩
        · intro ⟨d, hmark, hreach⟩
          have hne : start ≠ d := by
            rintro rfl
            rw [hmark] at hself
            cases hself
          exact ⟨d, hmark, reach_meets hne hreach⟩

/-! ## §3. All searches. -/

/-- The loop ends in `r`, with enough turns to empty the work list and with any
more. -/
def EndsIn (fn : CfgFunction) (step : Search → Option (Turn Search Bool)) (src : Nat) (r : Bool) :
    Prop :=
  ∀ more, loop step (searchFuel fn + more) (Search.start fn src) = some r

/-- A search that is started off its goal ends. -/
theorem endsIn_searchTo {fn : CfgFunction} {testPop : Bool} {blocked goal : Nat → Bool} {src : Nat}
    (hsrc : src < fn.blocks.length) (hmiss : goal src = false) :
    ∃ r, EndsIn fn (searchStepTo fn testPop blocked goal) src r := by
  obtain ⟨r, -, hiff⟩ := @searchTo_spec fn blocked goal src testPop hsrc hmiss _ (Nat.le_refl _)
  refine ⟨r, fun more => ?_⟩
  obtain ⟨r', hr', hiff'⟩ := @searchTo_spec fn blocked goal src testPop hsrc hmiss _
    (Nat.le_add_right (searchFuel fn) more)
  rw [hr', Bool.eq_iff_iff.mpr (hiff'.trans hiff.symm)]

/-- Every search that a query starts ends: a query starts none outside the
blocks, and none at its goal. -/
def SearchesEnd (fn : CfgFunction) : Prop :=
  ∀ src < fn.blocks.length,
    (∀ dst, src ≠ dst → ∃ r, EndsIn fn (searchStep fn false (fun _ => false) dst) src r)
      ∧ (fn.containsDiscard src = false → ∃ r, EndsIn fn (discardStep fn) src r)

theorem searchesEnd (fn : CfgFunction) : SearchesEnd fn := by
  intro src hsrc
  constructor
  · intro dst hne
    rw [searchStep_eq]
    exact endsIn_searchTo hsrc (decide_eq_false hne)
  · intro hself
    rw [discardStep_eq]
    exact endsIn_searchTo hsrc hself

/-- **The graph searches are exact, and end.** -/
theorem graphSearches_exact (fn : CfgFunction) :
    (∀ u v, reachable fn u v = true
        ↔ u < fn.blocks.length ∧ v < fn.blocks.length ∧ Reach fn.Edge u v)
      ∧ (∀ v, anyDiscardCanReach fn v = true
        ↔ ∃ d, fn.containsDiscard d = true ∧ Reach fn.Edge d v)
      ∧ (∀ u, anyReachableDiscard fn u = true
        ↔ ∃ d, fn.containsDiscard d = true ∧ Reach fn.Edge u d)
      ∧ SearchesEnd fn := by
  refine ⟨fun u v => ?_, anyDiscardCanReach_iff fn, anyReachableDiscard_iff fn, searchesEnd fn⟩
  by_cases hin : u < fn.blocks.length ∧ v < fn.blocks.length
  · rw [reachable_iff hin.1 hin.2]
    exact ⟨fun h => ⟨hin.1, hin.2, h⟩, fun h => h.2.2⟩
  · constructor
    · intro h
      unfold reachable at h
      rw [if_pos (by simp; omega)] at h
      cases h
    · intro ⟨hu, hv, _⟩
      exact absurd ⟨hu, hv⟩ hin

end ShaderClippy.ControlFlow
