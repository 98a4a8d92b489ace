/-
  ShaderClippy.ControlFlow.IdLayout

  **THE BLOCKS OF A FUNCTION HAVE CONSECUTIVE IDS.**

  `build_cfg` fills three parallel tables and a flat span list while it goes
  over the functions, errors or not. In what it leaves behind (`LaidOut`) the
  block `l` of a function has the id `l + 1` behind the blocks of all functions
  before it, and there are no other ids. So `resolve` and `global_id` undo each
  other, and an entry of the span list names the block that carries its span
  (`blockIds_consistent`).
-/
import ShaderClippy.ControlFlow.LiveBlocks

namespace ShaderClippy.ControlFlow

open Liveness (UniqueIds push_id_cases buildCfg_uniqueIds globalId_resolve)

/-- How many blocks the functions before `f` have. -/
def blocksBefore (st : CfgStorage) (f : Nat) : Nat :=
  ((st.functions.take f).map fun fn => fn.blocks.length).sum

/-- The ids of a storage, function by function. -/
structure LaidOut (st : CfgStorage) : Prop where
  total : st.blockToFunction.length = blocksBefore st st.functions.length
  /-- Where the block `l` of `f` is. -/
  place : ∀ f fn l, 0 < f → st.functions[f]? = some fn → l < fn.blocks.length →
    st.resolve (blocksBefore st f + l + 1) = (f, l)
  /-- Every id is of a block. -/
  block : ∀ raw, 0 < raw → raw ≤ st.blockToFunction.length → 0 < (st.resolve raw).1
    ∧ ∃ fn, st.functions[(st.resolve raw).1]? = some fn ∧ (st.resolve raw).2 < fn.blocks.length

theorem laidOut_empty (source : SourceId) : LaidOut (emptyStorage source) where
  total := rfl
  place f fn l hf hfn _ := by
    cases f with
    | zero => exact absurd hf (Nat.lt_irrefl 0)
    | succ f => simp [emptyStorage] at hfn
  block raw hpos hle := by
    have hlen : (emptyStorage source).blockToFunction.length = 0 := rfl
    omega

theorem blocksBefore_push {st : CfgStorage} {f : Nat} (fn : CfgFunction)
    (hf : f ≤ st.functions.length) : blocksBefore (st.push fn) f = blocksBefore st f := by
  unfold blocksBefore
  show (((st.functions ++ [fn]).take f).map fun fn => fn.blocks.length).sum = _
  rw [List.take_append_of_le_length hf]

/-- The functions up to `f` have the blocks before it, and its own. -/
theorem blocksBefore_succ {st : CfgStorage} {f : Nat} {fn : CfgFunction}
    (hfn : st.functions[f]? = some fn) :
    blocksBefore st (f + 1) = blocksBefore st f + fn.blocks.length := by
  unfold blocksBefore
  rw [List.take_add_one, hfn]
  simp

theorem blocksBefore_mono (st : CfgStorage) {f g : Nat} (h : f ≤ g) :
    blocksBefore st f ≤ blocksBefore st g := by
  induction h with
  | refl => exact Nat.le_refl _
  | step _ ih =>
      rename_i g _
      refine Nat.le_trans ih ?_
      cases hfn : st.functions[g]? with
      | some fn =>
          rw [blocksBefore_succ hfn]
          omega
      | none =>
          unfold blocksBefore
          rw [List.take_add_one, hfn, Option.toList_none, List.append_nil]

/-- The ids of a function end before those of the functions behind it. -/
theorem LaidOut.le {st : CfgStorage} (h : LaidOut st) {f l : Nat} {fn : CfgFunction}
    (hfn : st.functions[f]? = some fn) (hl : l < fn.blocks.length) :
    blocksBefore st f + l + 1 ≤ st.blockToFunction.length := by
  have hlt := (List.getElem?_eq_some_iff.mp hfn).1
  have hmono := blocksBefore_mono st (show f + 1 ≤ st.functions.length from hlt)
  rw [blocksBefore_succ hfn] at hmono
  rw [h.total]
  omega

/-- **One more function** is laid out behind the others. -/
theorem LaidOut.push {st : CfgStorage} (h : LaidOut st) (hi : Indexed st) (fn : CfgFunction) :
    LaidOut (st.push fn) := by
  have hfns : (st.push fn).functions = st.functions ++ [fn] := rfl
  have hlast : (st.push fn).functions[st.functions.length]? = some fn := by
    rw [hfns]
    simp
  have hlen : (st.push fn).blockToFunction.length
      = st.blockToFunction.length + fn.blocks.length := by
    simp [CfgStorage.push, CfgStorage.extend]
  have hbefore : blocksBefore (st.push fn) st.functions.length = st.blockToFunction.length := by
    rw [blocksBefore_push fn (Nat.le_refl _), h.total]
  refine ⟨?_, fun f gn l hf hgn hl => ?_, fun raw hpos hle => ?_⟩
  · rw [hfns, List.length_append, List.length_singleton, blocksBefore_succ hlast, hbefore, hlen]
  · by_cases hold : f < st.functions.length
    · rw [hfns, List.getElem?_append_left hold] at hgn
      have hle := h.le hgn hl
      rw [blocksBefore_push fn (Nat.le_of_lt hold), resolve_push_old fn hi (Nat.succ_pos _) hle]
      exact h.place f gn l hf hgn hl
    · have hlt := (List.getElem?_eq_some_iff.mp hgn).1
      rw [hfns, List.length_append, List.length_singleton] at hlt
      obtain rfl : f = st.functions.length := by omega
      rw [hlast, Option.some.injEq] at hgn
      subst hgn
      have hraw : st.blockToFunction.length + l + 1 = st.blockToFunction.length + 1 + l := by omega
      rw [hbefore, hraw]
      exact resolve_push_new hi hl
  · rcases push_id_cases hi hpos hle with ⟨hold, hres⟩ | ⟨l, hl, -, hres⟩
    · obtain ⟨hreal, gn, hgn, hb⟩ := h.block raw hpos hold
      rw [hres, hfns, List.getElem?_append_left (List.getElem?_eq_some_iff.mp hgn).1]
      exact ⟨hreal, gn, hgn, hb⟩
    · rw [hres]
      exact ⟨hi.sentinel, fn, hlast, hl⟩

theorem buildCfg_laidOut (root : Node) (source : SourceId) (bytes : Text) :
    LaidOut (buildCfg root source bytes).1 :=
  (buildFunctions_induction (Q := fun st => Indexed st ∧ LaidOut st)
    (fun _ _ h => ⟨h.1.push _, h.2.push h.1 _⟩) _ _ _
    ⟨indexed_empty source, laidOut_empty source⟩).2

/-- The id of a block. -/
theorem LaidOut.globalId {st : CfgStorage} (h : LaidOut st) (hi : Indexed st) (hu : UniqueIds st)
    {f l : Nat} {fn : CfgFunction} (hf : 0 < f) (hfn : st.functions[f]? = some fn)
    (hl : l < fn.blocks.length) : st.globalId f l = blocksBefore st f + l + 1 := by
  have hid := globalId_resolve hi hu (Nat.succ_pos (blocksBefore st f + l)) (h.le hfn hl)
  rw [Nat.succ_eq_add_one, h.place f fn l hf hfn hl] at hid
  exact hid

/-- `raw` is one of the ids `1, …, n`. -/
def ValidId (st : CfgStorage) (raw : Nat) : Prop := 0 < raw ∧ raw ≤ st.blockToFunction.length

/-- `l` is a block of the function `f`, not the sentinel. -/
def BlockOf (st : CfgStorage) (f l : Nat) (block : BasicBlock) : Prop :=
  0 < f ∧ ∃ fn, st.functions[f]? = some fn ∧ fn.blocks[l]? = some block

/-- **Block ids are consistent** in what `build_cfg` leaves behind: the ids of
the blocks are `1, …, n`, one for each block; `resolve` and `global_id` undo
each other; the blocks of a function have consecutive ids in the order of their
allocation, behind those of the functions before it; and an entry of the span
list names the block with its span. -/
theorem blockIds_consistent (root : Node) (source : SourceId) (bytes : Text) :
    let st := (buildCfg root source bytes).1
    (∀ raw, ValidId st raw ↔ ∃ f l block, BlockOf st f l block ∧ st.globalId f l = raw)
      ∧ st.blockToFunction.length = blocksBefore st st.functions.length
      ∧ (∀ f l block, BlockOf st f l block → st.resolve (st.globalId f l) = (f, l))
      ∧ (∀ raw, ValidId st raw → st.globalId (st.resolve raw).1 (st.resolve raw).2 = raw)
      ∧ (∀ f l block, BlockOf st f l block → st.globalId f l = blocksBefore st f + l + 1)
      ∧ (∀ span raw, (span, raw) ∈ st.spanToBlock → ValidId st raw
        ∧ ∃ block, BlockOf st (st.resolve raw).1 (st.resolve raw).2 block ∧ block.span = span) := by
  intro st
  have h : LaidOut st := buildCfg_laidOut root source bytes
  have hi : Indexed st := buildCfg_indexed root source bytes
  have hu : UniqueIds st := buildCfg_uniqueIds root source bytes
  have hid : ∀ f l block, BlockOf st f l block → st.globalId f l = blocksBefore st f + l + 1 := by
    intro f l block ⟨hf, fn, hfn, hblock⟩
    exact h.globalId hi hu hf hfn (List.getElem?_eq_some_iff.mp hblock).1
  have hback : ∀ raw, ValidId st raw →
      st.globalId (st.resolve raw).1 (st.resolve raw).2 = raw :=
    fun raw hvalid => globalId_resolve hi hu hvalid.1 hvalid.2
  refine ⟨fun raw => ⟨fun hvalid => ?_, ?_⟩, h.total, fun f l block hb => ?_, hback, hid,
    fun span raw hmem => ?_⟩
  · obtain ⟨hreal, fn, hfn, hl⟩ := h.block raw hvalid.1 hvalid.2
    exact ⟨_, _, fn.blocks[(st.resolve raw).2], ⟨hreal, fn, hfn, List.getElem?_eq_getElem hl⟩,
      hback raw hvalid⟩
  · rintro ⟨f, l, block, hb, rfl⟩
    obtain ⟨hf, fn, hfn, hblock⟩ := id hb
    rw [hid f l block hb]
    exact ⟨Nat.succ_pos _, h.le hfn (List.getElem?_eq_some_iff.mp hblock).1⟩
  · obtain ⟨hf, fn, hfn, hblock⟩ := id hb
    rw [hid f l block hb]
    exact h.place f fn l hf hfn (List.getElem?_eq_some_iff.mp hblock).1
  · obtain ⟨fn, block, hpos, hle, hreal, hfn, hblock, hspan⟩ := hi.entry span raw hmem
    exact ⟨⟨hpos, hle⟩, block, ⟨hreal, fn, hfn, hblock⟩, hspan⟩

end ShaderClippy.ControlFlow
