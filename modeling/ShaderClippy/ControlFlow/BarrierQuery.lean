/-
  ShaderClippy.ControlFlow.BarrierQuery

  **WHAT `barrier_between` DECIDES ON A GRAPH.**

  The second search of `barrier_separates` does not enter a flagged block and
  knows a flagged target, but it starts at the source whether or not that is
  flagged. So the query says that every path meets a flagged block BEHIND
  its first (`barrierSeparates_iff`), and it is wrong about a flagged source
  from which a path leads on without another one.
-/
import ShaderClippy.ControlFlow.Barrier

namespace ShaderClippy.ControlFlow

open Graph (Reach Walk)

/-! ## §1. Walks through open blocks. -/

section Walks

variable {fn : CfgFunction} {blocked : Nat → Bool} {x y : Nat}

/-- A walk whose blocks are open behind the first. -/
theorem reach_open_iff : Reach (Open fn blocked) x y ↔
    ∃ ps, Walk fn.Edge x y ps ∧ ∀ v ∈ ps.tail, blocked v = false := by
  constructor
  · intro h
    induction h with
    | refl => exact ⟨[x], Walk.start, fun v hv => absurd hv List.not_mem_nil⟩
    | tail _ hstep ih =>
        obtain ⟨ps, hps, hopen⟩ := ih
        refine ⟨_, hps.step hstep.1, fun v hv => ?_⟩
        rw [hps.tail_append] at hv
        rcases List.mem_append.mp hv with hv | hv
        · exact hopen v hv
        · rw [List.mem_singleton.mp hv]
          exact hstep.2
  · rintro ⟨ps, hps, hopen⟩
    induction hps with
    | start => exact Relation.ReflTransGen.refl
    | step hps he ih =>
        rw [hps.tail_append] at hopen
        have hprev := ih fun v hv => hopen v (List.mem_append_left _ hv)
        exact hprev.tail ⟨he, hopen _ (List.mem_append_right _ (List.mem_singleton_self _))⟩

/-- The second search succeeds into an open target along an open walk. -/
theorem meets_open_iff (hne : x ≠ y) : (blocked y = false ∧ Meets fn blocked x y) ↔
    ∃ ps, Walk fn.Edge x y ps ∧ ∀ v ∈ ps.tail, blocked v = false := by
  rw [← reach_open_iff]
  constructor
  · rintro ⟨hy, u, hu, he⟩
    exact hu.tail ⟨he, hy⟩
  · intro h
    rcases Relation.ReflTransGen.cases_tail h with h | ⟨u, hu, he⟩
    · exact absurd h.symm hne
    · exact ⟨he.2, u, hu, he.1⟩

/-- **What `barrier_separates` decides**: the target is reachable, and every
path meets a flagged block behind the source. -/
theorem barrierSeparates_iff (hx : x < fn.blocks.length) (hy : y < fn.blocks.length)
    (hne : x ≠ y) : barrierSeparates fn x y = true ↔
      Reach fn.Edge x y
        ∧ ∀ ps, Walk fn.Edge x y ps → ∃ v ∈ ps.tail, fn.containsBarrier v = true := by
  have hreach : search fn true (fun _ => false) x y = true ↔ Reach fn.Edge x y := by
    rw [← reachable_iff hx hy, reachable, if_neg (by simp; omega), if_neg hne,
      search_iff true hx hne, search_iff false hx hne]
  have hopen : (∀ ps, Walk fn.Edge x y ps → ∃ v ∈ ps.tail, fn.containsBarrier v = true)
      ↔ ¬ (fn.containsBarrier y = false ∧ Meets fn fn.containsBarrier x y) := by
    rw [meets_open_iff hne]
    push Not
    refine forall_congr' fun ps => forall_congr' fun _ => exists_congr fun v => ?_
    rw [Bool.ne_false_iff]
  rw [hopen, ← hreach, ← search_iff false hx hne]
  unfold barrierSeparates
  rw [if_neg (by simp; omega), if_neg hne]
  cases search fn true (fun _ => false) x y <;> cases fn.containsBarrier y <;>
    cases search fn false fn.containsBarrier x y <;> simp

end Walks

/-! ## §2. The public query. -/

/-- The law of `barrier_between` for the ids `a`, `b` of two blocks `x`, `y` of
`fn`: it says whether every path, ends included, meets a flagged block, and
denies it where there is no path. -/
def BarrierQueryLaw (info : CfgInfo) (a b : Nat) (fn : CfgFunction) (x y : Nat) : Prop :=
  (Reach fn.Edge x y → (info.barrierBetween a b = true ↔
    ∀ path, Walk fn.Edge x y path → ∃ v ∈ path, fn.containsBarrier v = true))
  ∧ (¬ Reach fn.Edge x y → info.barrierBetween a b = false)

/-- **The law holds exactly where the source is not flagged, or every path
meets another flagged block behind it.** -/
theorem barrierQueryLaw_iff {info : CfgInfo} {st : CfgStorage} {fn : CfgFunction}
    {a b f x y : Nat} (himpl : info.impl = some st) (hfn : st.functions[f]? = some fn)
    (hpos : 0 < f) (ha : st.resolve a = (f, x)) (hb : st.resolve b = (f, y))
    (hx : x < fn.blocks.length) (hy : y < fn.blocks.length) (hne : x ≠ y) :
    BarrierQueryLaw info a b fn x y ↔
      (fn.containsBarrier x = true →
        ∀ path, Walk fn.Edge x y path → ∃ v ∈ path.tail, fn.containsBarrier v = true) := by
  have hquery : info.barrierBetween a b = barrierSeparates fn x y :=
    withinFunction_eq barrierSeparates himpl hfn hpos ha hb
  have hiff := barrierSeparates_iff hx hy hne
  rw [← hquery] at hiff
  constructor
  · intro h hflag path hpath
    -- the flagged source is on every path, so the query must answer yes
    have hans := (h.1 hpath.reach).mpr fun ps hps => ⟨x, hps.mem_root, hflag⟩
    exact (hiff.mp hans).2 path hpath
  · intro h
    refine ⟨fun hreach => ⟨fun hans path hpath => ?_, fun hall => ?_⟩, fun hnot => ?_⟩
    · obtain ⟨v, hv, hflag⟩ := (hiff.mp hans).2 path hpath
      exact ⟨v, List.mem_of_mem_tail hv, hflag⟩
    · refine hiff.mpr ⟨hreach, fun path hpath => ?_⟩
      by_cases hflag : fn.containsBarrier x = true
      · exact h hflag path hpath
      · -- the flagged block is not the source
        obtain ⟨v, hv, hvflag⟩ := hall path hpath
        obtain ⟨ps, rfl⟩ := hpath.head_root
        rcases List.mem_cons.mp hv with rfl | hv
        · exact absurd hvflag hflag
        · exact ⟨v, hv, hvflag⟩
    · rw [← Bool.not_eq_true]
      exact fun hans => hnot (hiff.mp hans).1

/-- Three blocks in a row; the middle one is flagged. -/
def flaggedMiddle : CfgFunction :=
  ⟨emptySpan, [], [{ BasicBlock.fresh emptySpan with successors := [1] },
    { BasicBlock.fresh emptySpan with successors := [2], containsBarrier := true },
    BasicBlock.fresh emptySpan], [], false⟩

/-- `flaggedMiddle` as the only function of a source, its blocks numbered 1 to 3. -/
def flaggedMiddleStorage : CfgStorage :=
  ⟨⟨1⟩, [CfgFunction.empty, flaggedMiddle], [1, 1, 1], [0, 1, 2], []⟩

def flaggedMiddleInfo : CfgInfo := ⟨[1, 2, 3], emptySpan, some flaggedMiddleStorage⟩

theorem barrierQueryLaw_iff_flaggedMiddle :
    BarrierQueryLaw flaggedMiddleInfo 1 3 flaggedMiddle 0 2 :=
  (barrierQueryLaw_iff (f := 1) rfl rfl (by decide) rfl rfl (by decide) (by decide)
    (by decide)).mpr fun h => absurd h (by decide)

/-- **A flagged source goes unseen**: the only path from block 1 to block 2
begins with a barrier, and the query says that nothing separates them. -/
theorem flaggedSource_denied :
    (∀ path, Walk flaggedMiddle.Edge 1 2 path → ∃ v ∈ path, flaggedMiddle.containsBarrier v = true)
      ∧ Reach flaggedMiddle.Edge 1 2 ∧ flaggedMiddleInfo.barrierBetween 2 3 = false
      ∧ ¬ BarrierQueryLaw flaggedMiddleInfo 2 3 flaggedMiddle 1 2 := by
  have hall : ∀ path, Walk flaggedMiddle.Edge 1 2 path →
      ∃ v ∈ path, flaggedMiddle.containsBarrier v = true :=
    fun path hpath => ⟨1, hpath.mem_root, by decide⟩
  have h12 : flaggedMiddle.Edge 1 2 := by decide
  have hreach : Reach flaggedMiddle.Edge 1 2 := Relation.ReflTransGen.single h12
  have hans : flaggedMiddleInfo.barrierBetween 2 3 = false := by decide
  refine ⟨hall, hreach, hans, fun h => ?_⟩
  have := (h.1 hreach).mpr hall
  rw [hans] at this
  exact absurd this (by decide)

end ShaderClippy.ControlFlow
