/-
  ShaderClippy.ControlFlow.BuildInvariant

  **WHAT EVERY WALK KEEPS, AND THE IDS A BUILD HANDS OUT.**

  A property of the builder's state that its primitives keep is kept by
  `walk_statement` on ANY tree (`walkStatement_keeps`). Two uses here:

    * the storage is a function of the blocks: building a function appends
      its ids and its spans and touches nothing else (`buildFunction_storage`);
    * so the ids of a finished storage are exactly the blocks of its
      functions, with their spans (`Indexed`, `buildCfg_indexed`).
-/
import ShaderClippy.ControlFlow.CfgBuilder
import ShaderClippy.Syntax.Stmt

namespace ShaderClippy.ControlFlow

/-! ## §1. The invariant rule. -/

/-- `P` is kept by the primitives, as the walk uses them on the nodes of `S`. -/
structure KeptByPrimitives (ctx : BuildContext) (S : Node → Prop) (P : FunctionBuilder → Prop) :
    Prop where
  newBlock : ∀ fb anchor, S anchor → P fb → P (fb.newBlock ctx anchor).2
  addEdge : ∀ fb u v, P fb → P (fb.addEdge u v)
  markExit : ∀ fb b, P fb → P (fb.markExit b)
  markDiscard : ∀ fb text b, P fb → P (fb.markDiscard text b)
  markBarrier : ∀ fb b stmt, S stmt → detectBarrier ctx.bytes stmt = true → P fb →
    P (fb.markBarrier b)

section Chosen

variable {kids : Kids} {Q : Node × Walker → Prop}

/-! What holds of every child holds of the ones the walk chooses. -/

theorem Kids.named_all (hk : ∀ kid ∈ kids, Q kid) : ∀ kid ∈ kids.named, Q kid :=
  fun kid h => hk kid (List.mem_filter.mp h).1

theorem Kids.byField_all (hk : ∀ kid ∈ kids, Q kid) {f : Field} {kid : Node × Walker}
    (h : kids.byField f = some kid) : Q kid :=
  hk kid (List.mem_of_find?_eq_some h)

theorem ifArms_all (hk : ∀ kid ∈ kids, Q kid) :
    (∀ k, (ifArms kids).1 = some k → Q k) ∧ ∀ k, (ifArms kids).2 = some k → Q k := by
  unfold ifArms
  split
  · exact ⟨fun k h => Kids.named_all hk k (List.mem_of_getElem? h),
      fun k h => Kids.named_all hk k (List.mem_of_getElem? h)⟩
  · exact ⟨fun k h => Kids.byField_all hk h, fun k h => Kids.byField_all hk h⟩

theorem loopBody_all (hk : ∀ kid ∈ kids, Q kid) (last : Bool) :
    ∀ k, loopBody kids last = some k → Q k := by
  intro k h
  unfold loopBody at h
  split at h
  · rename_i k' hk'
    cases h
    exact Kids.byField_all hk hk'
  · cases last with
    | true => exact Kids.named_all hk k (List.mem_of_getLast? h)
    | false => exact Kids.named_all hk k (List.mem_of_head? h)

end Chosen

/-- A walker keeps `P`. -/
def Keeps (P : FunctionBuilder → Prop) (w : Walker) : Prop := ∀ fb cur, P fb → P (w fb cur).1

section Walks

variable {ctx : BuildContext} {S : Node → Prop} {P : FunctionBuilder → Prop} {stmt : Node}
  {kids : Kids}

/-- Every child is in `S`, and its walk keeps `P`. -/
def KidsKeep (S : Node → Prop) (P : FunctionBuilder → Prop) (kids : Kids) : Prop :=
  ∀ kid ∈ kids, S kid.1 ∧ Keeps P kid.2

theorem walkOptional_keeps {kid : Option (Node × Walker)}
    (hk : ∀ k, kid = some k → S k.1 ∧ Keeps P k.2) : Keeps P (walkOptional kid) := by
  intro fb cur h
  cases kid with
  | none => exact h
  | some k => exact (hk k rfl).2 fb cur h

theorem walkIf_keeps (hP : KeptByPrimitives ctx S P) (hS : S stmt) (hk : KidsKeep S P kids) :
    Keeps P (walkIf ctx stmt kids) := by
  intro fb cur h
  obtain ⟨hthen, helse⟩ := ifArms_all hk
  unfold walkIf
  cases harms : ifArms kids with
  | mk thenNode elseNode =>
      rw [harms] at hthen helse
      have h1 := hP.addEdge _ cur (fb.newBlock ctx stmt).1 (hP.newBlock fb stmt hS h)
      have h2 := walkOptional_keeps hthen _ (fb.newBlock ctx stmt).1 h1
      cases elseNode with
      | none => exact hP.addEdge _ _ _ (hP.addEdge _ _ _ (hP.newBlock _ stmt hS h2))
      | some e =>
          obtain ⟨hSe, hwe⟩ := helse e rfl
          refine hP.addEdge _ _ _ (hP.addEdge _ _ _ (hP.newBlock _ stmt hS (hwe _ _ ?_)))
          exact hP.addEdge _ cur _ (hP.newBlock _ e.1 hSe h2)

theorem walkLoop_keeps (hP : KeptByPrimitives ctx S P) (hS : S stmt) (hk : KidsKeep S P kids) :
    Keeps P (walkLoop ctx stmt kids) := by
  intro fb cur h
  unfold walkLoop
  have hbody := walkOptional_keeps (loopBody_all hk true)
  refine hP.addEdge _ _ _ (hP.newBlock _ stmt hS (hP.addEdge _ _ _ (hbody _ _ ?_)))
  exact hP.addEdge _ _ _ (hP.newBlock _ stmt hS (hP.addEdge _ _ _ (hP.newBlock fb stmt hS h)))

theorem walkDo_keeps (hP : KeptByPrimitives ctx S P) (hS : S stmt) (hk : KidsKeep S P kids) :
    Keeps P (walkDo ctx stmt kids) := by
  intro fb cur h
  unfold walkDo
  have hbody := walkOptional_keeps (loopBody_all hk false)
  refine hP.addEdge _ _ _ (hP.newBlock _ stmt hS (hP.addEdge _ _ _ (hP.addEdge _ _ _ ?_)))
  exact hP.newBlock _ stmt hS (hbody _ _ (hP.addEdge _ _ _ (hP.newBlock fb stmt hS h)))

theorem walkCases_keeps (hP : KeptByPrimitives ctx S P) (dispatch join : Nat) :
    ∀ kids, KidsKeep S P kids → ∀ fb, P fb → P (walkCases ctx dispatch join kids fb) := by
  intro kids
  induction kids with
  | nil => intro _ fb h; exact h
  | cons k ks ih =>
      intro hk fb h
      have hks : KidsKeep S P ks := fun kid h => hk kid (List.mem_cons_of_mem _ h)
      obtain ⟨hSk, hwk⟩ := hk k (List.mem_cons_self ..)
      unfold walkCases
      split
      · refine ih hks _ (hP.addEdge _ _ _ (hwk _ _ ?_))
        exact hP.addEdge _ dispatch _ (hP.newBlock fb k.1 hSk h)
      · exact ih hks fb h

theorem walkSwitch_keeps (hP : KeptByPrimitives ctx S P) (hS : S stmt) (hk : KidsKeep S P kids) :
    Keeps P (walkSwitch ctx stmt kids) := by
  intro fb cur h
  have h1 := walkCases_keeps hP cur (fb.newBlock ctx stmt).1 kids.named (Kids.named_all hk) _
    (hP.newBlock fb stmt hS h)
  unfold walkSwitch
  show P (if kids.named.isEmpty = true then _ else _)
  split
  · exact hP.addEdge _ _ _ h1
  · exact h1

theorem walkAll_keeps (hk : KidsKeep S P kids) : Keeps P (walkAll kids) := by
  induction kids with
  | nil => intro fb cur h; exact h
  | cons k ks ih =>
      intro fb cur h
      exact ih (fun kid h => hk kid (List.mem_cons_of_mem _ h)) _ _
        ((hk k (List.mem_cons_self ..)).2 fb cur h)

/-- The dispatch, which looks at the children of control statements only. -/
theorem walkByKind_keeps (hP : KeptByPrimitives ctx S P) (hS : S stmt)
    (hk : stmt.kind.isControl = true → KidsKeep S P kids) :
    Keeps P (walkByKind ctx stmt kids) := by
  intro fb cur h
  unfold walkByKind
  split
  · rename_i hkind
    exact walkIf_keeps hP hS (hk (by rw [hkind]; rfl)) fb cur h
  · rename_i hkind
    exact walkLoop_keeps hP hS (hk (by rw [hkind]; rfl)) fb cur h
  · rename_i hkind
    exact walkLoop_keeps hP hS (hk (by rw [hkind]; rfl)) fb cur h
  · rename_i hkind
    exact walkDo_keeps hP hS (hk (by rw [hkind]; rfl)) fb cur h
  · rename_i hkind
    exact walkSwitch_keeps hP hS (hk (by rw [hkind]; rfl)) fb cur h
  · rename_i hkind
    exact walkAll_keeps (Kids.named_all (hk (by rw [hkind]; rfl))) fb cur h
  · exact h

theorem walkKind_keeps (hP : KeptByPrimitives ctx S P) (hS : S stmt)
    (hk : stmt.kind.isControl = true → KidsKeep S P kids) :
    Keeps P (walkKind ctx stmt kids) := by
  intro fb cur h
  unfold walkKind
  split
  · exact hP.newBlock _ stmt hS (hP.markExit fb cur h)
  · split
    · rename_i hbar
      exact hP.addEdge _ _ _ (hP.newBlock _ stmt hS (hP.markBarrier fb cur stmt hS hbar h))
    · exact walkByKind_keeps hP hS hk _ _ (hP.markDiscard fb _ cur h)

end Walks

section Tree

variable {ctx : BuildContext} {S : Node → Prop} {P : FunctionBuilder → Prop}

mutual
/-- **Every walk keeps what the primitives keep.** -/
theorem walkStatement_keeps (hP : KeptByPrimitives ctx S P)
    (hS : ∀ i cs, i.kind.isControl = true → S (.mk i cs) → ∀ c ∈ cs, S c) :
    ∀ stmt, S stmt → Keeps P (walkStatement ctx stmt)
  | .mk i cs, h => walkKind_keeps hP h fun hi =>
      walkChildren_keep hP hS cs (hS i cs hi h)

theorem walkChildren_keep (hP : KeptByPrimitives ctx S P)
    (hS : ∀ i cs, i.kind.isControl = true → S (.mk i cs) → ∀ c ∈ cs, S c) :
    ∀ ns, (∀ n ∈ ns, S n) → KidsKeep S P (walkChildren ctx ns)
  | [], _ => fun _ h => absurd h List.not_mem_nil
  | n :: ns, h => by
      have hn := walkStatement_keeps hP hS n (h n (List.mem_cons_self ..))
      have hns := walkChildren_keep hP hS ns fun m hm => h m (List.mem_cons_of_mem _ hm)
      intro kid hkid
      cases hkid with
      | head => exact ⟨h n (List.mem_cons_self ..), hn⟩
      | tail _ hkid => exact hns kid hkid
end

end Tree

/-! ## §2. The storage is a function of the blocks. -/

/-- `st` with the ids of one more function, whose blocks have these spans. -/
def CfgStorage.extend (st : CfgStorage) (functionId : Nat) (spans : List Span) : CfgStorage :=
  { st with
    blockToFunction := st.blockToFunction ++ List.replicate spans.length functionId
    blockToLocal := st.blockToLocal ++ List.range spans.length
    spanToBlock := st.spanToBlock
      ++ spans.zip (List.range' (st.blockToFunction.length + 1) spans.length) }

theorem CfgStorage.extend_nil (st : CfgStorage) (functionId : Nat) :
    st.extend functionId [] = st := by
  simp [CfgStorage.extend]

/-- One more block: the next id, with its span. -/
theorem CfgStorage.extend_snoc (st : CfgStorage) (functionId : Nat) (spans : List Span)
    (span : Span) :
    { ((st.extend functionId spans).allocateBlockId functionId spans.length).2 with
      spanToBlock := (st.extend functionId spans).spanToBlock
        ++ [(span, ((st.extend functionId spans).allocateBlockId functionId spans.length).1)] }
      = st.extend functionId (spans ++ [span]) := by
  have hzip : (spans ++ [span]).zip (List.range' (st.blockToFunction.length + 1) (spans.length + 1))
      = spans.zip (List.range' (st.blockToFunction.length + 1) spans.length)
        ++ [(span, st.blockToFunction.length + 1 + spans.length)] := by
    rw [List.range'_1_concat, List.zip_append (by simp)]
    rfl
  simp only [CfgStorage.extend, CfgStorage.allocateBlockId, List.length_append, List.length_singleton,
    List.length_replicate, List.range_succ, List.replicate_succ', hzip, List.append_assoc]
  rw [Nat.add_right_comm]

/-- The storage holds the ids of the blocks built so far. -/
def InStep (st : CfgStorage) (functionId : Nat) (fb : FunctionBuilder) : Prop :=
  fb.storage = st.extend functionId (fb.blocks.map (·.span))

/-- A change of a block that keeps its span. -/
theorem map_span_modify (blocks : List BasicBlock) (b : Nat) {f : BasicBlock → BasicBlock}
    (hf : ∀ block, (f block).span = block.span) :
    (blocks.modify b f).map (·.span) = blocks.map (·.span) := by
  apply List.ext_getElem?
  intro i
  simp only [List.getElem?_map, List.getElem?_modify]
  cases blocks[i]? with
  | none => rfl
  | some block => by_cases hi : b = i <;> simp [hi, hf]

theorem inStep_modify {st : CfgStorage} {functionId : Nat} {fb : FunctionBuilder} {b : Nat}
    {f : BasicBlock → BasicBlock} (hf : ∀ block, (f block).span = block.span)
    (h : InStep st functionId fb) :
    InStep st functionId { fb with blocks := fb.blocks.modify b f } := by
  unfold InStep at h ⊢
  rw [map_span_modify fb.blocks b hf]
  exact h

theorem inStep_newBlock {st : CfgStorage} {ctx : BuildContext} {fb : FunctionBuilder}
    {anchor : Node} (h : InStep st ctx.functionId fb) :
    InStep st ctx.functionId (fb.newBlock ctx anchor).2 := by
  have hstep := st.extend_snoc ctx.functionId (fb.blocks.map (·.span)) (anchor.span ctx.source)
  unfold InStep at h ⊢
  unfold FunctionBuilder.newBlock
  simp only [List.map_append, List.map_cons, List.map_nil]
  rw [List.length_map, ← h] at hstep
  exact hstep

theorem inStep_kept (st : CfgStorage) (ctx : BuildContext) :
    KeptByPrimitives ctx (fun _ => True) (InStep st ctx.functionId) where
  newBlock _ _ _ h := inStep_newBlock h
  addEdge _ _ _ h := inStep_modify (fun _ => rfl) h
  markExit _ _ h := inStep_modify (fun _ => rfl) h
  markDiscard fb text b h := by
    unfold FunctionBuilder.markDiscard
    split
    · exact inStep_modify (fun _ => rfl) h
    · exact h
  markBarrier _ _ _ _ _ h := inStep_modify (fun _ => rfl) h

/-- A function with errors: one block. -/
theorem buildFunction_error (st : CfgStorage) (functionId : Nat) {fnNode : Node}
    (source : SourceId) (bytes : Text) (h : fnNode.hasError = true) :
    ∃ fn, buildFunction st functionId fnNode source bytes
        = (fn, st.extend functionId (fn.blocks.map (·.span)),
            [cfgSkipDiagnostic (fnNode.span source)])
      ∧ fn.blocks.length = 1 ∧ ∀ b ∈ fn.blocks, b.span = fnNode.span source
        ∧ b.successors = [] ∧ b.containsBarrier = false := by
  have hone := st.extend_snoc functionId [] (fnNode.span source)
  rw [st.extend_nil] at hone
  unfold buildFunction
  simp only [h, if_true]
  refine ⟨_, Prod.ext rfl (Prod.ext hone rfl), rfl, fun b hb => ?_⟩
  cases List.mem_singleton.mp hb
  exact ⟨rfl, rfl, rfl⟩

/-- A function without errors: what the primitives keep holds of the state
it is read off from. -/
theorem buildFunction_keeps (st : CfgStorage) (ctx : BuildContext) {fnNode : Node}
    {S : Node → Prop} {P : FunctionBuilder → Prop} (hP : KeptByPrimitives ctx S P)
    (hS : ∀ i cs, i.kind.isControl = true → S (.mk i cs) → ∀ c ∈ cs, S c)
    (hbody : ∀ b, functionBody fnNode = some b → S b) (herr : fnNode.hasError = false)
    (h0 : P (FunctionBuilder.newBlock ctx ⟨[], st⟩ fnNode).2) :
    ∃ fb, P fb ∧ buildFunction st ctx.functionId fnNode ctx.source ctx.bytes
      = (⟨fnNode.span ctx.source, functionName ctx.bytes fnNode.children [], fb.blocks, [], false⟩,
          fb.storage, []) := by
  unfold buildFunction
  simp only [herr, Bool.false_eq_true, if_false]
  cases hb : functionBody fnNode with
  | none => exact ⟨_, hP.markExit _ 0 h0, rfl⟩
  | some body =>
      have hwalk := walkStatement_keeps hP hS body (hbody body hb) _ 0 h0
      exact ⟨_, hP.markExit _ _ hwalk, rfl⟩

/-- **Building a function** appends the ids of its blocks and nothing else. -/
theorem buildFunction_storage (st : CfgStorage) (functionId : Nat) (fnNode : Node)
    (source : SourceId) (bytes : Text) :
    (buildFunction st functionId fnNode source bytes).2.1
      = st.extend functionId
          ((buildFunction st functionId fnNode source bytes).1.blocks.map (·.span)) := by
  by_cases herr : fnNode.hasError = true
  · obtain ⟨fn, h, -⟩ := buildFunction_error st functionId source bytes herr
    rw [h]
  · obtain ⟨fb, h, h'⟩ := buildFunction_keeps st ⟨functionId, source, bytes⟩
      (inStep_kept st _) (fun _ _ _ _ _ _ => trivial) (fun _ _ => trivial)
      (Bool.eq_false_iff.mpr herr) (inStep_newBlock (st.extend_nil functionId).symm)
    rw [h']
    exact h

/-! ## §3. The ids of a finished storage. -/

/-- The ids are dense, and each is a block of a function, with its span. -/
structure Indexed (st : CfgStorage) : Prop where
  sentinel : 0 < st.functions.length
  lengths : st.blockToLocal.length = st.blockToFunction.length
  /-- Every recorded span is the span of the block with that id. -/
  entry : ∀ span raw, (span, raw) ∈ st.spanToBlock → ∃ fn block,
    0 < raw ∧ raw ≤ st.blockToFunction.length ∧ 0 < (st.resolve raw).1
      ∧ st.functions[(st.resolve raw).1]? = some fn
      ∧ fn.blocks[(st.resolve raw).2]? = some block ∧ block.span = span
  /-- Every block of a real function has an id. -/
  id : ∀ f fn b, 0 < f → st.functions[f]? = some fn → b < fn.blocks.length →
    ∃ raw, 0 < raw ∧ raw ≤ st.blockToFunction.length ∧ st.resolve raw = (f, b)

theorem indexed_empty (source : SourceId) : Indexed (emptyStorage source) where
  sentinel := Nat.one_pos
  lengths := rfl
  entry _ _ h := absurd h List.not_mem_nil
  id f fn b hf hfn _ := by
    cases f with
    | zero => exact absurd hf (Nat.lt_irrefl 0)
    | succ f => simp [emptyStorage] at hfn

/-- The storage with one more function. -/
def CfgStorage.push (st : CfgStorage) (fn : CfgFunction) : CfgStorage :=
  { st.extend st.functions.length (fn.blocks.map (·.span)) with
    functions := st.functions ++ [fn] }

theorem resolve_push_old {st : CfgStorage} (fn : CfgFunction) {raw : Nat} (h : Indexed st)
    (hpos : 0 < raw) (hle : raw ≤ st.blockToFunction.length) :
    (st.push fn).resolve raw = st.resolve raw := by
  have h1 : raw - 1 < st.blockToFunction.length := by omega
  have h2 : raw - 1 < st.blockToLocal.length := by rw [h.lengths]; exact h1
  unfold CfgStorage.resolve CfgStorage.push CfgStorage.extend
  simp only [List.getD_eq_getElem?_getD, List.getElem?_append_left h1,
    List.getElem?_append_left h2, List.length_append]
  rw [if_neg (by simp; omega), if_neg (by simp; omega)]

theorem resolve_push_new {st : CfgStorage} {fn : CfgFunction} {i : Nat} (h : Indexed st)
    (hi : i < fn.blocks.length) :
    (st.push fn).resolve (st.blockToFunction.length + 1 + i) = (st.functions.length, i) := by
  have hidx : st.blockToFunction.length + 1 + i - 1 = st.blockToFunction.length + i := by omega
  unfold CfgStorage.resolve CfgStorage.push CfgStorage.extend
  simp only [List.getD_eq_getElem?_getD, List.length_append, List.length_replicate,
    List.length_map, hidx]
  rw [if_neg (by simp; omega), List.getElem?_append_right (by omega),
    List.getElem?_append_right (by rw [h.lengths]; omega), h.lengths, Nat.add_sub_cancel_left]
  simp [hi]

/-- One more function keeps the ids in order. -/
theorem Indexed.push {st : CfgStorage} (h : Indexed st) (fn : CfgFunction) :
    Indexed (st.push fn) := by
  have hlen : (st.push fn).blockToFunction.length
      = st.blockToFunction.length + fn.blocks.length := by
    simp [CfgStorage.push, CfgStorage.extend]
  have hfns : (st.push fn).functions = st.functions ++ [fn] := rfl
  refine ⟨?_, ?_, ?_, ?_⟩
  · simp [hfns]
  · simp [CfgStorage.push, CfgStorage.extend, h.lengths]
  · intro span raw hmem
    rcases List.mem_append.mp hmem with hold | hnew
    · obtain ⟨gn, block, hpos, hle, hreal, hgn, hb, hspan⟩ := h.entry span raw hold
      have hres := resolve_push_old fn h hpos hle
      refine ⟨gn, block, hpos, by omega, hres ▸ hreal, ?_, hres ▸ hb, hspan⟩
      rw [hres, hfns, List.getElem?_append_left (List.getElem?_eq_some_iff.mp hgn).1]
      exact hgn
    · obtain ⟨i, hi, hget⟩ := List.mem_iff_getElem.mp hnew
      rw [List.getElem_zip] at hget
      simp only [List.length_zip, List.length_map, List.length_range', Nat.min_self] at hi
      simp only [List.getElem_map, List.getElem_range', Nat.one_mul, Prod.mk.injEq] at hget
      obtain ⟨rfl, rfl⟩ := hget
      have hres := resolve_push_new h hi
      have := h.sentinel
      refine ⟨fn, fn.blocks[i], by omega, by omega, ?_, ?_, ?_, rfl⟩
      · rw [hres]
        exact this
      · rw [hres, hfns]
        simp
      · rw [hres]
        exact List.getElem?_eq_getElem hi
  · intro f gn b hf hgn hb
    by_cases hlt : f < st.functions.length
    · rw [hfns, List.getElem?_append_left hlt] at hgn
      obtain ⟨raw, hpos, hle, hres⟩ := h.id f gn b hf hgn hb
      exact ⟨raw, hpos, by omega, (resolve_push_old fn h hpos hle).trans hres⟩
    · have hsome := (List.getElem?_eq_some_iff.mp hgn).1
      rw [hfns, List.length_append, List.length_singleton] at hsome
      have hf' : f = st.functions.length := by omega
      subst hf'
      have hfn : gn = fn := by
        rw [hfns] at hgn
        simpa using hgn.symm
      subst hfn
      exact ⟨_, by omega, by omega, resolve_push_new h hb⟩

/-! ## §4. The whole source. -/

/-- The functions are built one after another, each pushed on the storage. -/
theorem buildFunctions_cons (source : SourceId) (bytes : Text) (fnNode : Node)
    (fnNodes : List Node) (st : CfgStorage) (ds : List Diagnostic) :
    buildFunctions source bytes (fnNode :: fnNodes) (st, ds)
      = buildFunctions source bytes fnNodes
          (st.push (buildFunction st st.functions.length fnNode source bytes).1,
            ds ++ (buildFunction st st.functions.length fnNode source bytes).2.2) := by
  have h := buildFunction_storage st st.functions.length fnNode source bytes
  have hfns : (buildFunction st st.functions.length fnNode source bytes).2.1.functions
      = st.functions := by rw [h]; rfl
  rw [buildFunctions]
  simp only [hfns]
  rw [h]
  rfl

/-- What holds of every storage on the way to the finished one. -/
theorem buildFunctions_induction {source : SourceId} {bytes : Text} {Q : CfgStorage → Prop}
    (hpush : ∀ st fnNode, Q st →
      Q (st.push (buildFunction st st.functions.length fnNode source bytes).1)) :
    ∀ fnNodes st ds, Q st → Q (buildFunctions source bytes fnNodes (st, ds)).1 := by
  intro fnNodes
  induction fnNodes with
  | nil => intro st ds h; exact h
  | cons fnNode fnNodes ih =>
      intro st ds h
      rw [buildFunctions_cons]
      exact ih _ _ (hpush st fnNode h)

theorem buildFunctions_length (source : SourceId) (bytes : Text) :
    ∀ fnNodes st ds, (buildFunctions source bytes fnNodes (st, ds)).1.functions.length
      = st.functions.length + fnNodes.length := by
  intro fnNodes
  induction fnNodes with
  | nil => intro st ds; rfl
  | cons fnNode fnNodes ih =>
      intro st ds
      rw [buildFunctions_cons, ih]
      simp only [CfgStorage.push, List.length_append, List.length_cons, List.length_nil]
      omega

/-- Function `i + 1` is built from the `i`-th function of the source. -/
theorem buildCfg_function {root : Node} {i : Nat} {fnNode : Node} (source : SourceId)
    (bytes : Text) (hi : (collectFunctions root)[i]? = some fnNode) :
    ∃ st, (buildCfg root source bytes).1.functions[i + 1]?
      = some (buildFunction st (i + 1) fnNode source bytes).1 := by
  have hkeep : ∀ (f : Nat) fn fnNodes (st : CfgStorage) ds, st.functions[f]? = some fn →
      (buildFunctions source bytes fnNodes (st, ds)).1.functions[f]? = some fn := by
    intro f fn
    refine buildFunctions_induction (Q := fun st => st.functions[f]? = some fn)
      fun st fnNode h => ?_
    unfold CfgStorage.push
    rw [List.getElem?_append_left (List.getElem?_eq_some_iff.mp h).1]
    exact h
  have hget : ∀ fnNodes st ds i, fnNodes[i]? = some fnNode →
      ∃ st', (buildFunctions source bytes fnNodes (st, ds)).1.functions[st.functions.length + i]?
        = some (buildFunction st' (st.functions.length + i) fnNode source bytes).1 := by
    intro fnNodes
    induction fnNodes with
    | nil => intro st ds i h; exact absurd h (by simp)
    | cons m fnNodes ih =>
        intro st ds i h
        rw [buildFunctions_cons]
        cases i with
        | zero =>
            cases h
            refine ⟨st, hkeep _ _ _ _ _ ?_⟩
            simp [CfgStorage.push]
        | succ i =>
            obtain ⟨st', h'⟩ := ih (st.push (buildFunction st st.functions.length m source bytes).1)
              (ds ++ (buildFunction st st.functions.length m source bytes).2.2) i h
            have hlen : (st.push (buildFunction st st.functions.length m source bytes).1).functions.length
                + i = st.functions.length + (i + 1) := by
              simp only [CfgStorage.push, List.length_append, List.length_singleton]
              omega
            rw [hlen] at h'
            exact ⟨st', h'⟩
  obtain ⟨st, h⟩ := hget _ (emptyStorage source) [] i hi
  rw [Nat.add_comm i 1]
  exact ⟨st, h⟩

/-- Every real function is built from a function of the source. -/
theorem buildCfg_function_inv {root : Node} {f : Nat} {source : SourceId} {bytes : Text}
    {fn : CfgFunction} (hpos : 0 < f)
    (hfn : (buildCfg root source bytes).1.functions[f]? = some fn) :
    ∃ fnNode st, (collectFunctions root)[f - 1]? = some fnNode
      ∧ fn = (buildFunction st f fnNode source bytes).1 := by
  have hlt := (List.getElem?_eq_some_iff.mp hfn).1
  have hlen : (buildCfg root source bytes).1.functions.length
      = 1 + (collectFunctions root).length := buildFunctions_length ..
  have hidx : f - 1 < (collectFunctions root).length := by omega
  obtain ⟨st, h⟩ := buildCfg_function source bytes (List.getElem?_eq_getElem hidx)
  rw [Nat.sub_add_cancel hpos, hfn] at h
  exact ⟨_, st, List.getElem?_eq_getElem hidx, Option.some.inj h⟩

/-- The dominator pass keeps everything but the parent tables. -/
theorem computeAllDominators_get {st : CfgStorage} {f : Nat} {fn : CfgFunction} (hpos : 0 < f)
    (h : st.functions[f]? = some fn) :
    (computeAllDominators st).functions[f]? = some ((computeDominators fn).getD fn) := by
  unfold computeAllDominators
  cases hfns : st.functions with
  | nil => simp [hfns] at h
  | cons sentinel fns =>
      cases f with
      | zero => exact absurd hpos (Nat.lt_irrefl 0)
      | succ f =>
          rw [hfns, List.getElem?_cons_succ] at h
          simp [h]

/-- **The ids of a finished storage.** -/
theorem buildCfg_indexed (root : Node) (source : SourceId) (bytes : Text) :
    Indexed (buildCfg root source bytes).1 :=
  buildFunctions_induction (fun _ _ h => h.push _) _ _ _ (indexed_empty source)

end ShaderClippy.ControlFlow
