/-
  ShaderClippy.ControlFlow.Liveness

  **THE DATAFLOW OF THE LIVENESS ANALYSIS** (`compute_liveness`, phase 2,
  `rules/util/liveness.cpp`).

  Given what every block reads and defines, function by function: sweep the
  blocks backwards until nothing changes, at most `8n + 16` times over `n`
  blocks. The tables are keyed by GLOBAL block ids, so the functions share
  them, and an id is never used twice (`globalId_inj`).

  Stopping early and running on are the same (`sweeps_eq_iterate`), and the
  cap is never what ends the sweeps: `n + 2` of them give the least fixpoint
  (`Lib.BackwardFlow`).

  A function that was skipped for a parse error is not swept, and the index
  of the sweep is a 32-bit signed integer.
-/
import ShaderClippy.ControlFlow.BuildInvariant
import ShaderClippy.Lib.BackwardFlow

namespace ShaderClippy.ControlFlow.Liveness

open BackwardFlow (Problem Sets LivePath)

/-! ## §1. The program. -/

/-- `DefUseTables`: what a block defines, and what it uses before it defines
it, by raw block id. -/
structure DefUseTables where
  defPerBlock : Nat → Finset Text
  usePerBlock : Nat → Finset Text

/-- The tables `live_in` and `live_out`, by raw block id. -/
abbrev LiveSets := Sets Nat Text

/-- `local_to_raw`. -/
def localToRaw (st : CfgStorage) (fnId : Nat) (fn : CfgFunction) : List Nat :=
  (List.range fn.blocks.length).map fun i => st.globalId fnId i

/-- `static_cast<std::int32_t>`, of a block count: what is negative then runs
no sweep. -/
def int32Count (n : Nat) : Nat := if n % 2 ^ 32 < 2 ^ 31 then n % 2 ^ 32 else 0

/-- The order of a sweep: the local indices from the last down. -/
def sweepOrder (fn : CfgFunction) : List Nat := (List.range (int32Count fn.blocks.length)).reverse

/-- `live_out[B] = U live_in[succ]`. -/
def newOut (fn : CfgFunction) (toRaw : List Nat) (liveIn : Nat → Finset Text) (i : Nat) :
    Finset Text :=
  (fn.successors i).foldl
    (fun acc succ =>
      if succ ≥ fn.blocks.length then acc
      else
        let succRaw := toRaw.getD succ 0
        if succRaw = 0 then acc else acc ∪ liveIn succRaw) ∅

/-- One turn of the inner loop: the tables, and if they have changed. -/
def sweepBlock (tables : DefUseTables) (fn : CfgFunction) (toRaw : List Nat)
    (acc : LiveSets × Bool) (i : Nat) : LiveSets × Bool :=
  let (live, changed) := acc
  let raw := toRaw.getD i 0
  if raw = 0 then acc
  else
    let newOut := newOut fn toRaw live.liveIn i
    let newIn := tables.usePerBlock raw ∪ newOut.filter fun name => name ∉ tables.defPerBlock raw
    let (live, changed) :=
      if newIn ≠ live.liveIn raw then
        ({ live with liveIn := Function.update live.liveIn raw newIn }, true)
      else (live, changed)
    if newOut ≠ live.liveOut raw then
      ({ live with liveOut := Function.update live.liveOut raw newOut }, true)
    else (live, changed)

/-- One sweep. -/
def sweepFunction (tables : DefUseTables) (fn : CfgFunction) (toRaw : List Nat)
    (live : LiveSets) : LiveSets × Bool :=
  (sweepOrder fn).foldl (sweepBlock tables fn toRaw) (live, false)

/-- The outer loop: sweep while something changes, `maxIters` times at
most. -/
def sweeps (tables : DefUseTables) (fn : CfgFunction) (toRaw : List Nat) :
    Nat → LiveSets → LiveSets
  | 0, live => live
  | maxIters + 1, live =>
      let (live, changed) := sweepFunction tables fn toRaw live
      if changed then sweeps tables fn toRaw maxIters live else live

/-- The body of the loop over the functions. -/
def functionLiveness (st : CfgStorage) (tables : DefUseTables) (live : LiveSets)
    (entry : CfgFunction × Nat) : LiveSets :=
  let (fn, fnId) := entry
  if fn.errorSkipped || fn.blocks.isEmpty then live
  else sweeps tables fn (localToRaw st fnId fn) (fn.blocks.length * 8 + 16) live

/-- **`compute_liveness`**, phase 2: over the functions from id `1` on. -/
def computeLiveness (st : CfgStorage) (tables : DefUseTables) : LiveSets :=
  (st.functions.zipIdx.drop 1).foldl (functionLiveness st tables) Sets.empty

/-! ## §2. Global ids. -/

theorem globalIdFrom_spec {f l : Nat} : ∀ {i : Nat} {fs ls : List Nat},
    globalIdFrom f l i fs ls ≠ 0 →
      i < globalIdFrom f l i fs ls
        ∧ fs[globalIdFrom f l i fs ls - 1 - i]? = some f
        ∧ ls[globalIdFrom f l i fs ls - 1 - i]? = some l
  | i, [], _, h => absurd rfl h
  | i, _ :: _, [], h => absurd rfl h
  | i, f' :: fs, l' :: ls, h => by
      unfold globalIdFrom at h ⊢
      split
      next hhere =>
        simp only [Bool.and_eq_true, decide_eq_true_eq] at hhere
        simp [hhere.1, hhere.2]
      next hnot =>
        rw [if_neg hnot] at h
        obtain ⟨hlt, hf, hl⟩ := globalIdFrom_spec h
        have hindex : globalIdFrom f l (i + 1) fs ls - 1 - i
            = (globalIdFrom f l (i + 1) fs ls - 1 - (i + 1)) + 1 := by omega
        rw [hindex]
        exact ⟨by omega, hf, hl⟩

/-- **A raw id belongs to one block of one function.** -/
theorem globalId_inj {st : CfgStorage} {f l f' l' : Nat} (h : st.globalId f l ≠ 0)
    (heq : st.globalId f l = st.globalId f' l') : f = f' ∧ l = l' := by
  obtain ⟨-, hf, hl⟩ := globalIdFrom_spec h
  have h' : st.globalId f' l' ≠ 0 := heq ▸ h
  obtain ⟨-, hf', hl'⟩ := globalIdFrom_spec h'
  change st.blockToFunction[st.globalId f l - 1 - 0]? = some f at hf
  change st.blockToLocal[st.globalId f l - 1 - 0]? = some l at hl
  change st.blockToFunction[st.globalId f' l' - 1 - 0]? = some f' at hf'
  change st.blockToLocal[st.globalId f' l' - 1 - 0]? = some l' at hl'
  rw [← heq, hf] at hf'
  rw [← heq, hl] at hl'
  exact ⟨Option.some.inj hf', Option.some.inj hl'⟩

theorem globalIdFrom_ne_zero {f l : Nat} : ∀ {k i : Nat} {fs ls : List Nat},
    fs[i]? = some f → ls[i]? = some l → globalIdFrom f l k fs ls ≠ 0
  | _, _, [], _, hf, _ => by simp at hf
  | _, _, _ :: _, [], _, hl => by simp at hl
  | k, i, f' :: fs, l' :: ls, hf, hl => by
      unfold globalIdFrom
      split
      · exact Nat.succ_ne_zero k
      next hnot =>
        cases i with
        | zero =>
            rw [List.getElem?_cons_zero, Option.some.injEq] at hf hl
            simp [hf, hl] at hnot
        | succ i =>
            rw [List.getElem?_cons_succ] at hf hl
            exact globalIdFrom_ne_zero hf hl

/-- In a finished storage every block of a real function has an id. -/
theorem globalId_ne_zero {st : CfgStorage} (hst : Indexed st) {f : Nat} {fn : CfgFunction}
    (hpos : 0 < f) (hfn : st.functions[f]? = some fn) {b : Nat} (hb : b < fn.blocks.length) :
    st.globalId f b ≠ 0 := by
  obtain ⟨raw, hraw, hle, hres⟩ := hst.id f fn b hpos hfn hb
  have h1 : raw - 1 < st.blockToFunction.length := by omega
  have h2 : raw - 1 < st.blockToLocal.length := by
    rw [hst.lengths]
    exact h1
  unfold CfgStorage.resolve at hres
  rw [if_neg (by simp; omega), Prod.mk.injEq, List.getD_eq_getElem?_getD,
    List.getD_eq_getElem?_getD, List.getElem?_eq_getElem h1, List.getElem?_eq_getElem h2] at hres
  exact globalIdFrom_ne_zero (i := raw - 1) (List.getElem?_eq_some_iff.mpr ⟨h1, hres.1⟩)
    (List.getElem?_eq_some_iff.mpr ⟨h2, hres.2⟩)

theorem getD_localToRaw {st : CfgStorage} {fnId : Nat} {fn : CfgFunction} {i : Nat}
    (hi : i < fn.blocks.length) : (localToRaw st fnId fn).getD i 0 = st.globalId fnId i := by
  simp [localToRaw, List.getD_eq_getElem?_getD, hi]

/-! ## §3. One function, by its local indices. -/

section Function

variable (st : CfgStorage) (tables : DefUseTables) (fnId : Nat) (fn : CfgFunction)

/-- The blocks of the function, what they use and what they define. -/
def flowProblem : Problem Nat Text where
  succ i := (fn.successors i).filter fun j => decide (j < fn.blocks.length)
  use i := tables.usePerBlock (st.globalId fnId i)
  kill i := tables.defPerBlock (st.globalId fnId i)

/-- The tables, read at the blocks of one function. -/
def localView (live : LiveSets) : Sets Nat Text :=
  ⟨fun i => live.liveIn (st.globalId fnId i), fun i => live.liveOut (st.globalId fnId i)⟩

theorem mem_newOut {toRaw : List Nat} {liveIn : Nat → Finset Text} {i : Nat} {x : Text} :
    x ∈ newOut fn toRaw liveIn i ↔ ∃ succ ∈ fn.successors i, succ < fn.blocks.length
      ∧ toRaw.getD succ 0 ≠ 0 ∧ x ∈ liveIn (toRaw.getD succ 0) := by
  have hfold : ∀ (l : List Nat) (acc : Finset Text),
      x ∈ l.foldl (fun acc succ =>
        if succ ≥ fn.blocks.length then acc
        else
          let succRaw := toRaw.getD succ 0
          if succRaw = 0 then acc else acc ∪ liveIn succRaw) acc
      ↔ x ∈ acc ∨ ∃ succ ∈ l, succ < fn.blocks.length ∧ toRaw.getD succ 0 ≠ 0
          ∧ x ∈ liveIn (toRaw.getD succ 0) := by
    intro l
    induction l with
    | nil => intro acc; simp
    | cons succ l ih =>
        intro acc
        rw [List.foldl_cons, ih, List.exists_mem_cons_iff, ← or_assoc]
        refine or_congr_left ?_
        by_cases hlt : succ ≥ fn.blocks.length
        · simp [hlt, Nat.not_lt.mpr hlt]
        · by_cases hraw : toRaw.getD succ 0 = 0
          · simp only [hlt, hraw, if_false, if_true]
            tauto
          · have hlt' : succ < fn.blocks.length := by omega
            simp only [hlt, hraw, if_false, Finset.mem_union]
            tauto
  rw [newOut, hfold]
  simp

/-- A turn leaves the new sets, changed or not. -/
theorem sweepBlock_fst {toRaw : List Nat} {acc : LiveSets × Bool} {i : Nat}
    (hraw : toRaw.getD i 0 ≠ 0) :
    (sweepBlock tables fn toRaw acc i).1
      = ⟨Function.update acc.1.liveIn (toRaw.getD i 0)
          (tables.usePerBlock (toRaw.getD i 0)
            ∪ (newOut fn toRaw acc.1.liveIn i).filter
                fun name => name ∉ tables.defPerBlock (toRaw.getD i 0)),
        Function.update acc.1.liveOut (toRaw.getD i 0) (newOut fn toRaw acc.1.liveIn i)⟩ := by
  obtain ⟨live, changed⟩ := acc
  unfold sweepBlock
  simp only [hraw, if_false]
  split_ifs with h1 h2 h2
  · rfl
  · rw [not_not] at h2
    rw [h2, Function.update_eq_self]
  · rw [not_not] at h1
    rw [h1, Function.update_eq_self]
  · rw [not_not] at h1 h2
    rw [h1, h2, Function.update_eq_self, Function.update_eq_self]

/-- A turn that reports no change has made none. -/
theorem sweepBlock_unchanged {toRaw : List Nat} {acc : LiveSets × Bool} {i : Nat}
    (h : (sweepBlock tables fn toRaw acc i).2 = false) :
    sweepBlock tables fn toRaw acc i = acc := by
  obtain ⟨live, changed⟩ := acc
  unfold sweepBlock at h ⊢
  dsimp only at h ⊢
  split_ifs at h ⊢ <;> rfl

theorem foldl_sweepBlock_unchanged {toRaw : List Nat} : ∀ {l : List Nat} {acc : LiveSets × Bool},
    (l.foldl (sweepBlock tables fn toRaw) acc).2 = false →
      l.foldl (sweepBlock tables fn toRaw) acc = acc := by
  intro l
  induction l with
  | nil => intro acc _; rfl
  | cons i l ih =>
      intro acc h
      rw [List.foldl_cons] at h ⊢
      have hrest := ih h
      rw [hrest] at h ⊢
      exact sweepBlock_unchanged tables fn h

/-- The order of a sweep, short of the index's overflow. -/
theorem mem_sweepOrder (hsize : fn.blocks.length < 2 ^ 31) {i : Nat} :
    i ∈ sweepOrder fn ↔ i < fn.blocks.length := by
  have hcount : int32Count fn.blocks.length = fn.blocks.length := by
    unfold int32Count
    rw [Nat.mod_eq_of_lt (by omega), if_pos hsize]
  rw [sweepOrder, hcount, List.mem_reverse, List.mem_range]

theorem length_sweepOrder_le : (sweepOrder fn).length ≤ fn.blocks.length := by
  rw [sweepOrder, List.length_reverse, List.length_range, int32Count]
  split
  · exact Nat.mod_le _ _
  · exact Nat.zero_le _

theorem sweepOrder_lt {i : Nat} (h : i ∈ sweepOrder fn) : i < fn.blocks.length := by
  have hlt : i < int32Count fn.blocks.length := by
    rw [sweepOrder, List.mem_reverse, List.mem_range] at h
    exact h
  have hle := length_sweepOrder_le fn
  rw [sweepOrder, List.length_reverse, List.length_range] at hle
  omega

variable {st fnId fn} (hids : ∀ i < fn.blocks.length, st.globalId fnId i ≠ 0)

include hids in
/-- **Step lemma**: a turn of the loop is a visit of the block. -/
theorem localView_sweepBlock {acc : LiveSets × Bool} {i : Nat} (hi : i < fn.blocks.length) :
    localView st fnId (sweepBlock tables fn (localToRaw st fnId fn) acc i).1
      = BackwardFlow.visit (flowProblem st tables fnId fn) (localView st fnId acc.1) i := by
  -- every block of the function has an id
  have hraw : (localToRaw st fnId fn).getD i 0 ≠ 0 := by
    rw [getD_localToRaw hi]
    exact hids i hi
  have hout : newOut fn (localToRaw st fnId fn) acc.1.liveIn i
      = BackwardFlow.out (flowProblem st tables fnId fn) (localView st fnId acc.1).liveIn i := by
    ext x
    rw [mem_newOut, BackwardFlow.mem_out]
    constructor
    · intro ⟨succ, hsucc, hlt, _, hx⟩
      rw [getD_localToRaw hlt] at hx
      exact ⟨succ, List.mem_filter.mpr ⟨hsucc, decide_eq_true hlt⟩, hx⟩
    · intro ⟨succ, hsucc, hx⟩
      obtain ⟨hsucc, hlt⟩ := List.mem_filter.mp hsucc
      have hlt : succ < fn.blocks.length := of_decide_eq_true hlt
      refine ⟨succ, hsucc, hlt, ?_, ?_⟩
      · rw [getD_localToRaw hlt]
        exact hids succ hlt
      · rw [getD_localToRaw hlt]
        exact hx
  have hin : tables.usePerBlock (st.globalId fnId i)
        ∪ (newOut fn (localToRaw st fnId fn) acc.1.liveIn i).filter
            (fun name => name ∉ tables.defPerBlock (st.globalId fnId i))
      = BackwardFlow.transfer (flowProblem st tables fnId fn)
          (localView st fnId acc.1).liveIn i := by
    rw [hout, BackwardFlow.transfer, Finset.filter_notMem_eq_sdiff]
    rfl
  -- no other block of the function has the same one
  have hsame : ∀ (L : Nat → Finset Text) (new : Finset Text),
      (fun j => Function.update L (st.globalId fnId i) new (st.globalId fnId j))
        = Function.update (fun j => L (st.globalId fnId j)) i new := by
    intro L new
    funext j
    by_cases hj : j = i
    · rw [hj, Function.update_self, Function.update_self]
    · have hne : st.globalId fnId j ≠ st.globalId fnId i := by
        intro heq
        exact hj (globalId_inj (hids i hi) heq.symm).2.symm
      rw [Function.update_of_ne hne, Function.update_of_ne hj]
  rw [sweepBlock_fst tables fn hraw, getD_localToRaw hi, hin, hout]
  unfold localView BackwardFlow.visit
  rw [hsame, hsame]

include hids in
/-- **Run lemma**: a sweep of the loop is a sweep of the problem. -/
theorem localView_foldl : ∀ {l : List Nat} {acc : LiveSets × Bool},
    (∀ i ∈ l, i < fn.blocks.length) →
      localView st fnId (l.foldl (sweepBlock tables fn (localToRaw st fnId fn)) acc).1
        = BackwardFlow.sweep (flowProblem st tables fnId fn) l (localView st fnId acc.1) := by
  intro l
  induction l with
  | nil => intro acc _; rfl
  | cons i l ih =>
      intro acc hl
      rw [List.foldl_cons, ih fun j hj => hl j (List.mem_cons_of_mem _ hj),
        localView_sweepBlock tables hids (hl i (List.mem_cons_self ..))]
      rfl

/-- The outer loop, one turn. -/
theorem sweeps_succ (tables : DefUseTables) (fn : CfgFunction) (toRaw : List Nat) (k : Nat)
    (live : LiveSets) :
    sweeps tables fn toRaw (k + 1) live
      = if (sweepFunction tables fn toRaw live).2 then
          sweeps tables fn toRaw k (sweepFunction tables fn toRaw live).1
        else (sweepFunction tables fn toRaw live).1 := rfl

include hids in
/-- **Stopping early and running on are the same.** -/
theorem sweeps_eq_iterate : ∀ (k : Nat) (live : LiveSets),
    localView st fnId (sweeps tables fn (localToRaw st fnId fn) k live)
      = (BackwardFlow.sweep (flowProblem st tables fnId fn) (sweepOrder fn))^[k]
          (localView st fnId live) := by
  intro k
  induction k with
  | zero => intro live; rfl
  | succ k ih =>
      intro live
      have hsweep : localView st fnId
            ((sweepOrder fn).foldl (sweepBlock tables fn (localToRaw st fnId fn)) (live, false)).1
          = BackwardFlow.sweep (flowProblem st tables fnId fn) (sweepOrder fn)
              (localView st fnId live) :=
        localView_foldl tables hids fun i hi => sweepOrder_lt fn hi
      rw [sweeps_succ, Function.iterate_succ_apply]
      split
      next =>
        rw [ih, sweepFunction, hsweep]
      next hstop =>
        -- nothing has changed, and nothing ever will
        have hsame : sweepFunction tables fn (localToRaw st fnId fn) live = (live, false) :=
          foldl_sweepBlock_unchanged tables fn (eq_false_of_ne_true hstop)
        rw [sweepFunction] at hsame
        rw [hsame] at hsweep
        rw [sweepFunction, hsame, ← hsweep]
        exact (Function.iterate_fixed hsweep.symm k).symm

end Function

/-! ## §4. All functions. -/

/-- The other functions' turns leave the function's blocks alone. -/
theorem localView_functionLiveness {st : CfgStorage} {tables : DefUseTables} {live : LiveSets}
    {fnId : Nat} {entry : CfgFunction × Nat} (hne : entry.2 ≠ fnId) :
    localView st fnId (functionLiveness st tables live entry) = localView st fnId live := by
  obtain ⟨gn, gnId⟩ := entry
  have hturn : ∀ (acc : LiveSets × Bool) (i : Nat), i < gn.blocks.length →
      localView st fnId (sweepBlock tables gn (localToRaw st gnId gn) acc i).1
        = localView st fnId acc.1 := by
    intro acc i hi
    by_cases hraw : (localToRaw st gnId gn).getD i 0 = 0
    · -- a block without an id is passed over
      have hskip : sweepBlock tables gn (localToRaw st gnId gn) acc i = acc := by
        unfold sweepBlock
        simp only [hraw, if_true]
      rw [hskip]
    · rw [sweepBlock_fst tables gn hraw]
      rw [getD_localToRaw hi] at hraw ⊢
      -- no block of this function has the id that is written
      have hother : ∀ j, st.globalId fnId j ≠ st.globalId gnId i :=
        fun j heq => hne (globalId_inj hraw heq.symm).1
      unfold localView
      simp only [Function.update_of_ne (hother _)]
  have hfold : ∀ (l : List Nat) (acc : LiveSets × Bool), (∀ i ∈ l, i < gn.blocks.length) →
      localView st fnId (l.foldl (sweepBlock tables gn (localToRaw st gnId gn)) acc).1
        = localView st fnId acc.1 := by
    intro l
    induction l with
    | nil => intro acc _; rfl
    | cons i l ih =>
        intro acc hl
        rw [List.foldl_cons, ih _ fun j hj => hl j (List.mem_cons_of_mem _ hj),
          hturn acc i (hl i (List.mem_cons_self ..))]
  have hsweeps : ∀ (k : Nat) (live : LiveSets),
      localView st fnId (sweeps tables gn (localToRaw st gnId gn) k live)
        = localView st fnId live := by
    intro k
    induction k with
    | zero => intro live; rfl
    | succ k ih =>
        intro live
        have hsweep := hfold (sweepOrder gn) (live, false) fun i hi => sweepOrder_lt gn hi
        rw [sweeps_succ]
        split
        · rw [ih]
          exact hsweep
        · exact hsweep
  unfold functionLiveness
  dsimp only
  split
  · rfl
  · exact hsweeps _ live

theorem localView_foldl_others {st : CfgStorage} {tables : DefUseTables} {fnId : Nat} :
    ∀ {l : List (CfgFunction × Nat)} {live : LiveSets}, (∀ entry ∈ l, entry.2 ≠ fnId) →
      localView st fnId (l.foldl (functionLiveness st tables) live) = localView st fnId live := by
  intro l
  induction l with
  | nil => intro live _; rfl
  | cons entry l ih =>
      intro live hl
      rw [List.foldl_cons, ih fun e he => hl e (List.mem_cons_of_mem _ he),
        localView_functionLiveness (hl entry (List.mem_cons_self ..))]

/-- A function of the table is met once by the loop over the functions. -/
theorem computeLiveness_split {st : CfgStorage} {fnId : Nat} {fn : CfgFunction}
    (hfn : st.functions[fnId]? = some fn) (hpos : 0 < fnId) :
    ∃ pre post, st.functions.zipIdx.drop 1 = pre ++ (fn, fnId) :: post
      ∧ (∀ entry ∈ pre, entry.2 ≠ fnId) ∧ ∀ entry ∈ post, entry.2 ≠ fnId := by
  have hmem : (fn, fnId) ∈ st.functions.zipIdx.drop 1 := by
    refine List.mem_of_getElem? (i := fnId - 1) ?_
    rw [List.getElem?_drop, List.getElem?_zipIdx, show 1 + (fnId - 1) = fnId by omega, hfn]
    simp
  obtain ⟨pre, post, hsplit⟩ := List.append_of_mem hmem
  -- the functions are numbered, each differently
  have hnodup : ((st.functions.zipIdx.drop 1).map Prod.snd).Nodup := by
    have hall : (st.functions.zipIdx.map Prod.snd).Nodup := by
      rw [List.zipIdx_map_snd]
      exact List.nodup_range'
    rw [List.map_drop]
    exact hall.sublist (List.drop_sublist _ _)
  rw [hsplit, List.map_append, List.map_cons, List.nodup_append] at hnodup
  obtain ⟨-, hrest, hdisjoint⟩ := hnodup
  refine ⟨pre, post, hsplit, ?_, ?_⟩
  · intro entry he heq
    exact hdisjoint _ (List.mem_map_of_mem he) _ (List.mem_cons_self ..) heq
  · intro entry he heq
    refine (List.nodup_cons.mp hrest).1 ?_
    show fnId ∈ post.map Prod.snd
    rw [← heq]
    exact List.mem_map_of_mem he

/-- A path from the block to a use of the name, with no definition of it in
a block before the last. -/
def UsePath (st : CfgStorage) (tables : DefUseTables) (fnId : Nat) (fn : CfgFunction) (x : Text)
    (b : Nat) (ps : List Nat) : Prop :=
  ps.head? = some b ∧ ps.IsChain fn.Edge
    ∧ (∃ last, ps.getLast? = some last ∧ x ∈ tables.usePerBlock (st.globalId fnId last))
    ∧ ∀ a ∈ ps.dropLast, x ∉ tables.defPerBlock (st.globalId fnId a)

/-- At every block of the function: a name is live before it exactly if a path
leads to a use of it, and live after it exactly if it is live before a
successor. -/
def LeastFixpoint (st : CfgStorage) (tables : DefUseTables) (fnId : Nat) (fn : CfgFunction) :
    Prop :=
  ∀ b < fn.blocks.length, ∀ x,
    (x ∈ (computeLiveness st tables).liveIn (st.globalId fnId b)
        ↔ ∃ ps, UsePath st tables fnId fn x b ps)
      ∧ (x ∈ (computeLiveness st tables).liveOut (st.globalId fnId b)
        ↔ ∃ s, fn.Edge b s ∧ x ∈ (computeLiveness st tables).liveIn (st.globalId fnId s))

/-- **The tables of one function are the sweeps of its problem.** -/
theorem localView_computeLiveness {st : CfgStorage} {tables : DefUseTables} {fnId : Nat}
    {fn : CfgFunction} (hst : Indexed st) (hfn : st.functions[fnId]? = some fn) (hpos : 0 < fnId)
    (hskip : fn.errorSkipped = false) (hnonempty : 0 < fn.blocks.length) :
    localView st fnId (computeLiveness st tables)
      = BackwardFlow.iterate (flowProblem st tables fnId fn) (sweepOrder fn)
          (fn.blocks.length * 8 + 16) := by
  have hids : ∀ i < fn.blocks.length, st.globalId fnId i ≠ 0 :=
    fun i hi => globalId_ne_zero hst hpos hfn hi
  obtain ⟨pre, post, hsplit, hpre, hpost⟩ := computeLiveness_split hfn hpos
  have hsome : fn.blocks.isEmpty = false := by
    cases hblocks : fn.blocks with
    | nil =>
        rw [hblocks] at hnonempty
        exact absurd hnonempty (Nat.lt_irrefl 0)
    | cons => rfl
  -- the turns of the others in front and behind do nothing here
  rw [computeLiveness, hsplit, List.foldl_append, List.foldl_cons,
    localView_foldl_others hpost, functionLiveness]
  simp only [hskip, hsome, Bool.or_self, Bool.false_eq_true, if_false]
  rw [sweeps_eq_iterate tables hids, localView_foldl_others hpre, BackwardFlow.iterate_eq]
  rfl

theorem mem_succ_flowProblem {st : CfgStorage} {tables : DefUseTables} {fnId : Nat}
    {fn : CfgFunction} {u v : Nat} : v ∈ (flowProblem st tables fnId fn).succ u ↔ fn.Edge u v := by
  show v ∈ List.filter _ _ ↔ _
  rw [List.mem_filter, decide_eq_true_eq]
  exact Iff.rfl

/-- **The capped sweeps end in the least fixpoint**, for every function that
was not skipped and whose blocks a 32-bit signed index can count. -/
theorem computeLiveness_fixpoint {st : CfgStorage} {tables : DefUseTables} {fnId : Nat}
    {fn : CfgFunction} (hst : Indexed st) (hfn : st.functions[fnId]? = some fn) (hpos : 0 < fnId)
    (hskip : fn.errorSkipped = false) (hsize : fn.blocks.length < 2 ^ 31) :
    LeastFixpoint st tables fnId fn := by
  intro b hb x
  let P := flowProblem st tables fnId fn
  -- all blocks are swept, so no edge leaves them
  have hclosed : BackwardFlow.Closed P (sweepOrder fn) := by
    intro v _ w hw
    exact (mem_sweepOrder fn hsize).mpr (of_decide_eq_true (List.mem_filter.mp hw).2)
  have hview : localView st fnId (computeLiveness st tables)
      = BackwardFlow.iterate P (sweepOrder fn) (fn.blocks.length * 8 + 16) :=
    localView_computeLiveness hst hfn hpos hskip (by omega)
  have hlen := length_sweepOrder_le fn
  have hbv : b ∈ sweepOrder fn := (mem_sweepOrder fn hsize).mpr hb
  constructor
  · have hin : x ∈ (localView st fnId (computeLiveness st tables)).liveIn b
        ↔ BackwardFlow.Live P x b := by
      rw [hview]
      exact BackwardFlow.iterate_liveIn P hclosed (by omega) hbv
    refine hin.trans ((BackwardFlow.live_iff_path P).trans ?_)
    constructor
    · intro ⟨ps, h⟩
      exact ⟨ps, h.head, h.chain.imp fun _ _ => mem_succ_flowProblem.mp, h.reads, h.kept⟩
    · intro ⟨ps, hhead, hchain, hreads, hkept⟩
      exact ⟨ps, hhead, hchain.imp fun _ _ => mem_succ_flowProblem.mpr, hreads, hkept⟩
  · have hout : (localView st fnId (computeLiveness st tables)).liveOut b
        = BackwardFlow.out P (localView st fnId (computeLiveness st tables)).liveIn b := by
      rw [hview]
      exact BackwardFlow.iterate_liveOut P hclosed (by omega) hbv
    show x ∈ (localView st fnId (computeLiveness st tables)).liveOut b ↔ _
    rw [hout, BackwardFlow.mem_out]
    exact exists_congr fun s => and_congr_left fun _ => mem_succ_flowProblem

/-- A path from the end of a block to a use of the name, with no definition of
it in a block before the last, and with all blocks among those that are
swept. -/
def SweptPath (st : CfgStorage) (tables : DefUseTables) (fnId : Nat) (fn : CfgFunction) (x : Text)
    (b s : Nat) (ps : List Nat) : Prop :=
  fn.Edge b s ∧ UsePath st tables fnId fn x s ps ∧ ∀ a ∈ b :: ps, a ∈ sweepOrder fn

/-- **What the sweeps find behind a block**, for every function that was not
skipped. -/
theorem mem_liveOut_swept {st : CfgStorage} {tables : DefUseTables} {fnId : Nat}
    {fn : CfgFunction} (hst : Indexed st) (hfn : st.functions[fnId]? = some fn) (hpos : 0 < fnId)
    (hskip : fn.errorSkipped = false) {b : Nat} (hb : b < fn.blocks.length) {x : Text} :
    x ∈ (computeLiveness st tables).liveOut (st.globalId fnId b)
      ↔ ∃ s ps, SweptPath st tables fnId fn x b s ps := by
  let P := flowProblem st tables fnId fn
  let order := sweepOrder fn
  have hlen : order.length ≤ fn.blocks.length := length_sweepOrder_le fn
  -- the problem on the blocks that are swept, which its edges do not leave
  have hsolved := BackwardFlow.iterate_restrict P order (fn.blocks.length * 8 + 16)
  have hclosed : BackwardFlow.Closed (P.restrict order) order := BackwardFlow.closed_restrict P order
  have hview : localView st fnId (computeLiveness st tables)
      = BackwardFlow.iterate (P.restrict order) order (fn.blocks.length * 8 + 16) :=
    (localView_computeLiveness hst hfn hpos hskip (by omega)).trans hsolved.1.symm
  have hsucc : ∀ {u v : Nat}, v ∈ (P.restrict order).succ u ↔ fn.Edge u v ∧ v ∈ order := by
    intro u v
    show v ∈ List.filter _ _ ↔ _
    rw [List.mem_filter, decide_eq_true_eq, mem_succ_flowProblem]
  show x ∈ (localView st fnId (computeLiveness st tables)).liveOut b ↔ _
  rw [hview]
  by_cases hswept : b ∈ order
  · have hout : (BackwardFlow.iterate (P.restrict order) order (fn.blocks.length * 8 + 16)).liveOut b
        = BackwardFlow.out (P.restrict order)
          (BackwardFlow.iterate (P.restrict order) order (fn.blocks.length * 8 + 16)).liveIn b :=
      BackwardFlow.iterate_liveOut (P.restrict order) hclosed (by omega) hswept
    rw [hout, BackwardFlow.mem_out]
    constructor
    · intro ⟨s, hs, hx⟩
      have ⟨hedge, hsorder⟩ := hsucc.mp hs
      have hlive := (BackwardFlow.iterate_liveIn (P.restrict order) hclosed (by omega) hsorder).mp hx
      have ⟨ps, hpath⟩ := (BackwardFlow.live_iff_path (P.restrict order)).mp hlive
      refine ⟨s, ps, hedge, ⟨hpath.head, hpath.chain.imp fun _ _ h => (hsucc.mp h).1, hpath.reads,
        hpath.kept⟩, fun a ha => ?_⟩
      rcases List.mem_cons.mp ha with rfl | ha
      · exact hswept
      · exact hclosed.chain _ hsorder hpath.head hpath.chain a ha
    · intro ⟨s, ps, hedge, ⟨hhead, hchain, hreads, hkept⟩, hall⟩
      -- a path among the swept blocks is one of that problem
      have hsorder : s ∈ order := by
        refine hall s (List.mem_cons_of_mem _ ?_)
        exact List.mem_of_mem_head? hhead
      refine ⟨s, hsucc.mpr ⟨hedge, hsorder⟩,
        (BackwardFlow.iterate_liveIn (P.restrict order) hclosed (by omega) hsorder).mpr ?_⟩
      refine (BackwardFlow.live_iff_path (P.restrict order)).mpr ⟨ps, hhead, ?_, hreads, hkept⟩
      refine hchain.imp_of_mem_imp fun u v _ hv h => ?_
      exact hsucc.mpr ⟨h, hall v (List.mem_cons_of_mem _ hv)⟩
  · -- a block that is not swept keeps its empty set
    have hblank := (hsolved.2 b hswept).2
    rw [hsolved.1, hblank]
    refine ⟨fun h => absurd h (Finset.notMem_empty x), fun ⟨s, ps, _, _, hall⟩ => ?_⟩
    exact absurd (hall b (List.mem_cons_self ..)) hswept

/-! ## §5. What is not swept. -/

/-- The storage of a source whose only function has the given blocks. -/
def storageOf (errorSkipped : Bool) (blocks : List BasicBlock) : CfgStorage :=
  (emptyStorage ⟨1⟩).push ⟨emptySpan, [], blocks, [], errorSkipped⟩

theorem storageOf_indexed (errorSkipped : Bool) (blocks : List BasicBlock) :
    Indexed (storageOf errorSkipped blocks) :=
  (indexed_empty ⟨1⟩).push _

/-- Every block uses `x`. -/
def usesX : DefUseTables := ⟨fun _ => ∅, fun _ => {['x']}⟩

/-- A function of one block that uses `x`: `x` is live before it. -/
theorem computeLiveness_fixpoint_oneBlock :
    LeastFixpoint (storageOf false [BasicBlock.fresh emptySpan]) usesX 1
      ⟨emptySpan, [], [BasicBlock.fresh emptySpan], [], false⟩ :=
  computeLiveness_fixpoint (storageOf_indexed _ _) rfl (by decide) rfl (by decide)

/-- Without a sweep nothing is live, although the first block uses `x`. -/
theorem not_leastFixpoint_of_unswept {errorSkipped : Bool} {block : BasicBlock}
    {blocks : List BasicBlock}
    (h : functionLiveness (storageOf errorSkipped (block :: blocks)) usesX Sets.empty
      (⟨emptySpan, [], block :: blocks, [], errorSkipped⟩, 1) = Sets.empty) :
    ¬ LeastFixpoint (storageOf errorSkipped (block :: blocks)) usesX 1
      ⟨emptySpan, [], block :: blocks, [], errorSkipped⟩ := by
  intro hfix
  have hlive : computeLiveness (storageOf errorSkipped (block :: blocks)) usesX = Sets.empty := h
  have hpath : UsePath (storageOf errorSkipped (block :: blocks)) usesX 1
      ⟨emptySpan, [], block :: blocks, [], errorSkipped⟩ ['x'] 0 [0] :=
    ⟨rfl, List.isChain_singleton 0, ⟨0, rfl, Finset.mem_singleton_self _⟩,
      fun a ha => absurd ha List.not_mem_nil⟩
  have hin := (hfix 0 (Nat.succ_pos _) ['x']).1.mpr ⟨[0], hpath⟩
  rw [hlive] at hin
  exact absurd hin (Finset.notMem_empty _)

/-- An index that overflows runs no sweep. -/
theorem unswept_of_overflow {block : BasicBlock} {blocks : List BasicBlock}
    (h : ¬ (block :: blocks).length % 2 ^ 32 < 2 ^ 31) :
    functionLiveness (storageOf false (block :: blocks)) usesX Sets.empty
      (⟨emptySpan, [], block :: blocks, [], false⟩, 1) = Sets.empty := by
  have horder : sweepOrder ⟨emptySpan, [], block :: blocks, [], false⟩ = [] := by
    unfold sweepOrder int32Count
    rw [if_neg h]
    rfl
  -- a sweep of no block changes nothing, and the loop stops
  have hidle : ∀ (toRaw : List Nat) (k : Nat),
      sweeps usesX ⟨emptySpan, [], block :: blocks, [], false⟩ toRaw k Sets.empty
        = Sets.empty := by
    intro toRaw k
    cases k with
    | zero => rfl
    | succ k =>
        rw [sweeps_succ, sweepFunction, horder]
        rfl
  unfold functionLiveness
  exact hidle _ _

/-- **A function skipped for a parse error is not swept, nor is one with more
blocks than a 32-bit signed index can count.** -/
theorem unswept_functions :
    (¬ LeastFixpoint (storageOf true [BasicBlock.fresh emptySpan]) usesX 1
        ⟨emptySpan, [], [BasicBlock.fresh emptySpan], [], true⟩)
      ∧ ¬ LeastFixpoint
        (storageOf false
          (BasicBlock.fresh emptySpan :: List.replicate (2 ^ 31) (BasicBlock.fresh emptySpan)))
        usesX 1
        ⟨emptySpan, [],
          BasicBlock.fresh emptySpan :: List.replicate (2 ^ 31) (BasicBlock.fresh emptySpan), [],
          false⟩ := by
  refine ⟨not_leastFixpoint_of_unswept rfl,
    not_leastFixpoint_of_unswept (unswept_of_overflow ?_)⟩
  rw [List.length_cons, List.length_replicate]
  omega

end ShaderClippy.ControlFlow.Liveness
