/-
  ShaderClippy.ControlFlow.DefUse

  **WHAT EACH BLOCK READS AND DEFINES** (`compute_liveness`, phase 1,
  `rules/util/liveness.cpp`).

  One walk over the tree sends identifiers to blocks. Where it goes does not
  depend on what it has recorded, so it is the list of its calls of
  `record_def` and `record_use` (`walkSource`), and the tables are what these
  leave behind (`defUseTables`).

  A name is in a block's definitions exactly if some identifier was recorded
  as a definition there (`mem_defPerBlock_iff`), and in its uses exactly if
  one was recorded as a use before any definition (`mem_usePerBlock_iff`).
-/
import ShaderClippy.ControlFlow.CfgQuery
import ShaderClippy.ControlFlow.Liveness

namespace ShaderClippy.ControlFlow.Liveness

/-! ## §1. Names that are no variables. -/

/-- `k_type_prefixes`. -/
def kTypePrefixes : List Text :=
  ["float".toList, "double".toList, "half".toList, "min10float".toList, "min16float".toList,
   "min12int".toList, "min16int".toList, "min16uint".toList, "uint".toList, "int".toList,
   "bool".toList, "uint16_t".toList, "uint32_t".toList, "uint64_t".toList, "int16_t".toList,
   "int32_t".toList, "int64_t".toList, "vector".toList, "matrix".toList]

/-- `k_keywords`. -/
def kKeywords : List Text :=
  ["if".toList, "else".toList, "for".toList, "while".toList, "do".toList, "switch".toList,
   "case".toList, "default".toList, "break".toList, "continue".toList, "return".toList,
   "discard".toList, "true".toList, "false".toList, "void".toList, "in".toList, "out".toList,
   "inout".toList, "const".toList, "static".toList, "uniform".toList, "groupshared".toList,
   "shared".toList, "register".toList, "struct".toList, "cbuffer".toList, "tbuffer".toList,
   "typedef".toList, "namespace".toList, "this".toList, "nullptr".toList, "centroid".toList,
   "noperspective".toList, "linear".toList, "sample".toList, "nointerpolation".toList,
   "precise".toList, "snorm".toList, "unorm".toList, "row_major".toList, "column_major".toList,
   "globallycoherent".toList, "reordercoherent".toList]

/-- A type word, alone or with a digit behind it. -/
def hasTypePrefix (text pfx : Text) : Bool :=
  text == pfx || (Text.startsWith text pfx && (text.drop pfx.length).head?.any Char.isDigit)

/-- `is_reserved_or_type_token`. -/
def isReservedOrTypeToken (text : Text) : Bool :=
  text.isEmpty || kTypePrefixes.any (hasTypePrefix text) || kKeywords.contains text

/-! ## §2. What is recorded. -/

/-- What the walk does at an identifier or a callee, or between two
functions. -/
inductive Record where
  | define (ident : Node) (block : Nat)
  | use (ident : Node) (block : Nat)
  | skip (callee : Node)
  | reset

/-- `pack_node`: the two offsets. -/
def packNode (n : Node) : Nat × Nat := (n.info.lo, n.info.hi)

/-- `def_key`: an FNV-1a fold, 64 bits. -/
def defKey (block : Nat) (name : Text) : UInt64 :=
  name.foldl (fun h c => (h ^^^ c.toNat.toUInt64) * 1099511628211)
    (block.toUInt64 * 1099511628211)

/-- The state of the `Walker`. -/
structure WalkerState where
  tables : DefUseTables
  defsSeen : List UInt64
  useSkip : List (Nat × Nat)

def WalkerState.start : WalkerState := ⟨⟨fun _ => ∅, fun _ => ∅⟩, [], []⟩

/-- One more name in the set of a block. -/
def insertName (table : Nat → Finset Text) (block : Nat) (name : Text) : Nat → Finset Text :=
  Function.update table block (insert name (table block))

/-- `record_def`. -/
def recordDef (bytes : Text) (s : WalkerState) (ident : Node) (block : Nat) : WalkerState :=
  let text := ident.text bytes
  if block = 0 then s
  else if isReservedOrTypeToken text then s
  else
    ⟨⟨insertName s.tables.defPerBlock block text, s.tables.usePerBlock⟩,
      defKey block text :: s.defsSeen, packNode ident :: s.useSkip⟩

/-- `record_use`. -/
def recordUse (bytes : Text) (s : WalkerState) (ident : Node) (block : Nat) : WalkerState :=
  let text := ident.text bytes
  if block = 0 then s
  else if packNode ident ∈ s.useSkip then s
  else if isReservedOrTypeToken text then s
  else if defKey block text ∈ s.defsSeen then s
  else { s with tables := ⟨s.tables.defPerBlock, insertName s.tables.usePerBlock block text⟩ }

/-- One record. -/
def record (bytes : Text) (s : WalkerState) : Record → WalkerState
  | .define ident block => recordDef bytes s ident block
  | .use ident block => recordUse bytes s ident block
  | .skip callee => { s with useSkip := packNode callee :: s.useSkip }
  | .reset => { s with defsSeen := [], useSkip := [] }

/-- The state after some records. -/
def recordAll (bytes : Text) (rs : List Record) : WalkerState :=
  rs.foldl (record bytes) WalkerState.start

/-! ## §3. Expressions and declarations. -/

/-- `walk_subexpr` on a node, and on the child in its field `argument`. -/
structure SubexprWalk where
  walk : List Record
  receiver : List Record

/-- The children of a node, each with its walks. -/
abbrev SubexprKids := List (Node × SubexprWalk)

/-- The first child in this field. -/
def SubexprKids.byField (kids : SubexprKids) (f : Field) : Option (Node × SubexprWalk) :=
  kids.find? fun k => decide (k.1.info.field = some f)

/-- `call_expression`: the callee is no use, but the receiver of a method is;
then the arguments. -/
def callRecords (kids : SubexprKids) : List Record :=
  (match kids.byField .function with
    | none => []
    | some callee =>
        Record.skip callee.1 :: if callee.1.kind = .fieldExpression then callee.2.receiver else [])
  ++ match kids.byField .arguments with
    | none => []
    | some args => args.2.walk

/-- One node of `walk_subexpr`. The named children are pushed in source order,
so the last one is walked first. -/
def subexprRecords (block : Nat) (i : NodeInfo) (cs : List Node) (kids : SubexprKids) :
    List Record :=
  match i.kind with
  | .identifier => [.use (.mk i cs) block]
  | .callExpression => callRecords kids
  | _ => (kids.filter fun k => k.1.info.named).reverse.flatMap fun k => k.2.walk

mutual
def subexpr (block : Nat) : Node → SubexprWalk
  | .mk i cs =>
      ⟨subexprRecords block i cs (subexprs block cs),
        match (subexprs block cs).byField .argument with
        | none => []
        | some receiver => receiver.2.walk⟩

def subexprs (block : Nat) : List Node → SubexprKids
  | [] => []
  | n :: ns => (n, subexpr block n) :: subexprs block ns
end

/-- **`walk_subexpr`.** -/
def walkSubexpr (block : Nat) (n : Node) : List Record := (subexpr block n).walk

/-- `walk_subexpr` on a child that may be null. -/
def walkOptionalSubexpr (block : Nat) : Option Node → List Record
  | none => []
  | some n => walkSubexpr block n

/-- The index of the child in this field, else the first child. -/
def fieldIndex (cs : List Node) (f : Field) : Nat :=
  (cs.findIdx? fun c => decide (c.info.field = some f)).getD 0

/-- `walk_assignment_lhs`. -/
def walkAssignmentLhs (block : Nat) (lhs : Node) : List Record :=
  let k := fieldIndex lhs.children .argument
  match lhs.kind with
  | .identifier => [.define lhs block]
  | .subscriptExpression =>
      walkOptionalSubexpr block lhs.children[k]?
        ++ ((lhs.children.eraseIdx k).filter fun c => c.info.named).flatMap (walkSubexpr block)
  | .fieldExpression => walkOptionalSubexpr block lhs.children[k]?
  | _ => walkSubexpr block lhs

mutual
/-- The loop that unwraps array declarators. -/
def unwrapArray : Node → Node
  | .mk i cs =>
      if i.kind = .other "array_declarator".toList then unwrapArrayField (.mk i cs) cs
      else .mk i cs

/-- The declarator among these children, else `self`. -/
def unwrapArrayField (self : Node) : List Node → Node
  | [] => self
  | n :: ns => if n.info.field = some .declarator then unwrapArray n else unwrapArrayField self ns
end

/-- Does the loop take a step? -/
def isWrapped (n : Node) : Bool :=
  n.kind == .other "array_declarator".toList && (n.childByField .declarator).isSome

/-- `init_declarator`: the declared name, then the value: the field, else the
last named child other than the declarator. -/
def initDeclaratorRecords (block : Nat) (cs : List Node) : List Record :=
  let k := fieldIndex cs .declarator
  let others := if cs[k]?.any isWrapped then cs else cs.eraseIdx k
  let value := (cs.find? fun c => decide (c.info.field = some .value)).or
    (others.filter fun c => c.info.named).getLast?
  (match cs[k]?.map unwrapArray with
    | none => []
    | some declarator => if declarator.kind = .identifier then [.define declarator block] else [])
  ++ walkOptionalSubexpr block value

mutual
/-- **`walk_declaration`.** -/
def walkDeclaration (block : Nat) : Node → List Record
  | .mk i cs =>
      match i.kind with
      | .initDeclarator => initDeclaratorRecords block cs
      | .identifier => [.define (.mk i cs) block]
      | _ => walkDeclarations block cs

def walkDeclarations (block : Nat) : List Node → List Record
  | [] => []
  | n :: ns => walkDeclarations block ns ++ if n.info.named then walkDeclaration block n else []
end

mutual
/-- `update_expression`: every identifier is used and defined. -/
def walkUpdate (block : Nat) : Node → List Record
  | .mk i cs =>
      if i.kind = .identifier then [.use (.mk i cs) block, .define (.mk i cs) block]
      else walkUpdates block cs

def walkUpdates (block : Nat) : List Node → List Record
  | [] => []
  | n :: ns => walkUpdates block ns ++ if n.info.named then walkUpdate block n else []
end

/-! ## §4. Statements. -/

/-- One turn of the loop of `find_enclosing_block`. -/
def enclosingStep (lo hi : Nat) (best : Nat × Nat) (entry : Span × Nat) : Nat × Nat :=
  if entry.1.bytes.lo > lo || entry.1.bytes.hi < hi then best
  else if spanSize entry.1 < best.2 then (entry.2, spanSize entry.1)
  else best

/-- `find_enclosing_block`, for a node (`block_of`). -/
def blockOf (st : CfgStorage) (n : Node) : Nat :=
  (st.spanToBlock.foldl (enclosingStep n.info.lo n.info.hi) (0, 2 ^ 32 - 1)).1

/-- `find_nth_block_with_exact_span`, for the span of a node. -/
def findNthBlock (st : CfgStorage) (n : Node) (k : Nat) : Nat :=
  match (st.spanToBlock.filter fun e => e.1.bytes == ⟨n.info.lo, n.info.hi⟩)[k]? with
  | none => 0
  | some entry => entry.2

/-- `raw != 0U ? raw : fallback`. -/
def blockOr (raw fallback : Nat) : Nat := if raw ≠ 0 then raw else fallback

/-- The children of a statement, each with its walk by block. -/
abbrev StatementKids := List (Node × (Nat → List Record))

/-- The named children. -/
def StatementKids.named (kids : StatementKids) : StatementKids :=
  kids.filter fun k => k.1.info.named

/-- `compound_statement` or `block`. -/
def isBlock (k : NodeKind) : Bool := k == .compoundStatement || k == .other "block".toList

/-- `if`, `switch` or a loop. -/
def isBranching (k : NodeKind) : Bool :=
  k == .ifStatement || k == .switchStatement || k == .forStatement || k == .whileStatement
    || k == .doStatement

/-- The parts of an `if` or `switch` that are looked up in a block of their own. -/
def isArm (k : NodeKind) : Bool :=
  isBlock k || isBranching k || k == .caseStatement || k == .defaultStatement

/-- The children of a compound that are looked up in a block of their own. -/
def isRelocated (k : NodeKind) : Bool := isBlock k || isBranching k || k == .returnStatement

/-- `for_statement` and `while_statement`: header, body and exit are recorded
with the same span. -/
def loopRecords (st : CfgStorage) (stmt : Node) (kids : StatementKids) (block : Nat) :
    List Record :=
  let header := blockOr (findNthBlock st stmt 0) block
  let body := blockOr (findNthBlock st stmt 1) header
  kids.named.flatMap fun k =>
    if isBlock k.1.kind then k.2 body
    else if k.1.kind = .declaration ∨ k.1.kind = .initDeclarator then walkDeclaration header k.1
    else walkSubexpr header k.1

/-- `do_statement`. -/
def doRecords (st : CfgStorage) (stmt : Node) (kids : StatementKids) (block : Nat) :
    List Record :=
  let body := blockOr (findNthBlock st stmt 0) block
  let cond := blockOr (findNthBlock st stmt 1) body
  kids.named.flatMap fun k =>
    if isBlock k.1.kind then k.2 body else walkSubexpr cond k.1

/-- `if_statement` and `switch_statement`. -/
def branchRecords (st : CfgStorage) (kids : StatementKids) (block : Nat) : List Record :=
  kids.named.flatMap fun k =>
    if isArm k.1.kind then k.2 (blockOf st k.1) else walkSubexpr block k.1

/-- `compound_statement` and `block`. -/
def compoundRecords (st : CfgStorage) (kids : StatementKids) (block : Nat) : List Record :=
  kids.named.flatMap fun k =>
    if isRelocated k.1.kind then k.2 (blockOf st k.1) else k.2 block

/-- The dispatch of `walk_statement`. -/
def statementRecords (st : CfgStorage) (stmt : Node) (kids : StatementKids) (block : Nat) :
    List Record :=
  match stmt.kind with
  | .declaration => walkDeclaration block stmt
  | .assignmentExpression =>
      -- the right side first: `x = x + 1` uses `x` before it defines it
      walkOptionalSubexpr block (stmt.childByField .right)
        ++ match stmt.childByField .left with
          | none => []
          | some lhs => walkAssignmentLhs block lhs
  | .updateExpression => walkUpdate block stmt
  | .expressionStatement => kids.named.flatMap fun k => k.2 block
  | .returnStatement => kids.named.flatMap fun k => walkSubexpr block k.1
  | .forStatement | .whileStatement => loopRecords st stmt kids block
  | .doStatement => doRecords st stmt kids block
  | .ifStatement | .switchStatement => branchRecords st kids block
  | .compoundStatement => compoundRecords st kids block
  | k =>
      if k = .other "variable_declaration".toList ∨ k = .other "field_declaration".toList then
        walkDeclaration block stmt
      else if k = .other "block".toList then compoundRecords st kids block
      else walkSubexpr block stmt

mutual
/-- **`walk_statement`.** -/
def walkStatement (st : CfgStorage) : Node → Nat → List Record
  | .mk i cs => statementRecords st (.mk i cs) (walkStatements st cs)

def walkStatements (st : CfgStorage) : List Node → StatementKids
  | [] => []
  | n :: ns => (n, walkStatement st n) :: walkStatements st ns
end

/-! ## §5. The source. -/

/-- The declarations of the parameters, in the entry block. -/
def parameterRecords (block : Nat) (fnNode : Node) : List Record :=
  (fnNode.children.filter fun c => decide (c.kind = .functionDeclarator)).flatMap fun d =>
    (d.children.filter fun c => decide (c.kind = .other "parameter_list".toList)).flatMap fun p =>
      (p.children.filter fun c =>
        decide (c.kind = .parameterDeclaration ∨ c.kind = .parameter)).flatMap
          (walkDeclaration block)

/-- What `walk_source` does at a function. -/
def functionRecords (st : CfgStorage) (fnNode : Node) : List Record :=
  match functionBody fnNode with
  | none => []
  | some body =>
      parameterRecords (blockOf st fnNode) fnNode
        ++ .reset :: walkStatement st body (blockOf st body)

/-- **`walk_source`**: all children are pushed, so the last function is walked
first. -/
def walkSource (st : CfgStorage) (root : Node) : List Record :=
  (collectFunctions root).reverse.flatMap (functionRecords st)

/-- **`compute_liveness`**, phase 1. -/
def defUseTables (st : CfgStorage) (root : Node) (bytes : Text) : DefUseTables :=
  (recordAll bytes (walkSource st root)).tables

/-! ## §6. What is in the tables. -/

theorem mem_insertName {table : Nat → Finset Text} {block b : Nat} {name x : Text} :
    x ∈ insertName table block name b ↔ (b = block ∧ x = name) ∨ x ∈ table b := by
  unfold insertName
  by_cases hb : b = block
  · rw [hb, Function.update_self, Finset.mem_insert]
    exact or_congr_left ⟨fun hx => ⟨rfl, hx⟩, fun h => h.2⟩
  · rw [Function.update_of_ne hb]
    exact ⟨.inr, fun h => h.resolve_left fun h => hb h.1⟩

theorem mem_insertName_if {c : Prop} [Decidable c] {table : Nat → Finset Text} {block b : Nat}
    {name x : Text} :
    x ∈ (if c then insertName table block name else table) b
      ↔ (c ∧ b = block ∧ x = name) ∨ x ∈ table b := by
  by_cases hc : c
  · rw [if_pos hc, mem_insertName]
    exact or_congr_left ⟨fun h => ⟨hc, h⟩, fun h => h.2⟩
  · rw [if_neg hc]
    exact ⟨.inr, fun h => h.resolve_left fun h => hc h.1⟩

/-- When `record_def` adds a name. -/
theorem defPerBlock_recordDef (bytes : Text) (s : WalkerState) (ident : Node) (block : Nat) :
    (recordDef bytes s ident block).tables.defPerBlock
      = if block ≠ 0 ∧ isReservedOrTypeToken (ident.text bytes) = false then
          insertName s.tables.defPerBlock block (ident.text bytes)
        else s.tables.defPerBlock := by
  unfold recordDef
  dsimp only
  split
  next hzero => rw [if_neg fun h => h.1 hzero]
  next hzero =>
    split
    next hreserved => rw [if_neg fun h => absurd (hreserved.symm.trans h.2) (by decide)]
    next hfree => rw [if_pos ⟨hzero, eq_false_of_ne_true hfree⟩]

/-- When `record_use` adds a name. -/
theorem usePerBlock_recordUse (bytes : Text) (s : WalkerState) (ident : Node) (block : Nat) :
    (recordUse bytes s ident block).tables.usePerBlock
      = if block ≠ 0 ∧ packNode ident ∉ s.useSkip ∧ isReservedOrTypeToken (ident.text bytes) = false
            ∧ defKey block (ident.text bytes) ∉ s.defsSeen then
          insertName s.tables.usePerBlock block (ident.text bytes)
        else s.tables.usePerBlock := by
  unfold recordUse
  dsimp only
  split
  next hzero => rw [if_neg fun h => h.1 hzero]
  next hzero =>
    split
    next hskip => rw [if_neg fun h => h.2.1 hskip]
    next hskip =>
      split
      next hreserved => rw [if_neg fun h => absurd (hreserved.symm.trans h.2.2.1) (by decide)]
      next hfree =>
        split
        next hseen => rw [if_neg fun h => h.2.2.2 hseen]
        next hnew => rw [if_pos ⟨hzero, hskip, eq_false_of_ne_true hfree, hnew⟩]

/-- The record defines the name in the block. -/
def Defines (bytes : Text) (b : Nat) (x : Text) (r : Record) : Prop :=
  ∃ ident, r = .define ident b ∧ ident.text bytes = x ∧ b ≠ 0 ∧ isReservedOrTypeToken x = false

/-- The record uses the name in the block, in a state that lets it. -/
def Uses (bytes : Text) (b : Nat) (x : Text) (s : WalkerState) (r : Record) : Prop :=
  ∃ ident, r = .use ident b ∧ ident.text bytes = x ∧ b ≠ 0 ∧ isReservedOrTypeToken x = false
    ∧ packNode ident ∉ s.useSkip ∧ defKey b x ∉ s.defsSeen

/-- **Step lemma**, for the definitions. -/
theorem mem_defPerBlock_record {bytes : Text} {s : WalkerState} {r : Record} {b : Nat} {x : Text} :
    x ∈ (record bytes s r).tables.defPerBlock b
      ↔ Defines bytes b x r ∨ x ∈ s.tables.defPerBlock b := by
  have hother : (∀ ident, r ≠ .define ident b) →
      (x ∈ s.tables.defPerBlock b ↔ Defines bytes b x r ∨ x ∈ s.tables.defPerBlock b) := by
    intro hne
    refine ⟨.inr, fun h => h.resolve_left fun ⟨ident, hr, _⟩ => hne ident hr⟩
  cases r with
  | define ident block =>
      show x ∈ (recordDef bytes s ident block).tables.defPerBlock b ↔ _
      rw [defPerBlock_recordDef, mem_insertName_if]
      refine or_congr_left ⟨?_, ?_⟩
      · intro ⟨⟨hzero, hfree⟩, hb, hx⟩
        subst hb hx
        exact ⟨ident, rfl, rfl, hzero, hfree⟩
      · intro ⟨ident', hr, hx, hzero, hfree⟩
        cases hr
        subst hx
        exact ⟨⟨hzero, hfree⟩, rfl, rfl⟩
  | use ident block =>
      -- a use adds no definition
      have hsame : (recordUse bytes s ident block).tables.defPerBlock = s.tables.defPerBlock := by
        unfold recordUse
        dsimp only
        split_ifs <;> rfl
      show x ∈ (recordUse bytes s ident block).tables.defPerBlock b ↔ _
      rw [hsame]
      exact hother fun ident => nofun
  | skip callee => exact hother fun ident => nofun
  | reset => exact hother fun ident => nofun

/-- **Step lemma**, for the uses. -/
theorem mem_usePerBlock_record {bytes : Text} {s : WalkerState} {r : Record} {b : Nat} {x : Text} :
    x ∈ (record bytes s r).tables.usePerBlock b
      ↔ Uses bytes b x s r ∨ x ∈ s.tables.usePerBlock b := by
  have hother : (∀ ident, r ≠ .use ident b) →
      (x ∈ s.tables.usePerBlock b ↔ Uses bytes b x s r ∨ x ∈ s.tables.usePerBlock b) := by
    intro hne
    refine ⟨.inr, fun h => h.resolve_left fun ⟨ident, hr, _⟩ => hne ident hr⟩
  cases r with
  | define ident block =>
      -- a definition adds no use
      have hsame : (recordDef bytes s ident block).tables.usePerBlock = s.tables.usePerBlock := by
        unfold recordDef
        dsimp only
        split_ifs <;> rfl
      show x ∈ (recordDef bytes s ident block).tables.usePerBlock b ↔ _
      rw [hsame]
      exact hother fun ident => nofun
  | use ident block =>
      show x ∈ (recordUse bytes s ident block).tables.usePerBlock b ↔ _
      rw [usePerBlock_recordUse, mem_insertName_if]
      refine or_congr_left ⟨?_, ?_⟩
      · intro ⟨⟨hzero, hskip, hfree, hnew⟩, hb, hx⟩
        subst hb hx
        exact ⟨ident, rfl, rfl, hzero, hfree, hskip, hnew⟩
      · intro ⟨ident', hr, hx, hzero, hfree, hskip, hnew⟩
        cases hr
        subst hx
        exact ⟨⟨hzero, hskip, hfree, hnew⟩, rfl, rfl⟩
  | skip callee => exact hother fun ident => nofun
  | reset => exact hother fun ident => nofun

theorem recordAll_append_singleton (bytes : Text) (rs : List Record) (r : Record) :
    recordAll bytes (rs ++ [r]) = record bytes (recordAll bytes rs) r := by
  unfold recordAll
  rw [List.foldl_append]
  rfl

/-- **The definitions of a block.** -/
theorem mem_defPerBlock_iff {bytes : Text} {rs : List Record} {b : Nat} {x : Text} :
    x ∈ (recordAll bytes rs).tables.defPerBlock b ↔ ∃ r ∈ rs, Defines bytes b x r := by
  induction rs using List.reverseRecOn with
  | nil =>
      refine ⟨fun h => absurd h (Finset.notMem_empty x), fun ⟨r, hr, _⟩ => ?_⟩
      exact absurd hr List.not_mem_nil
  | append_singleton rs r ih =>
      rw [recordAll_append_singleton, mem_defPerBlock_record, ih]
      constructor
      · rintro (h | ⟨r', hr', h⟩)
        · exact ⟨r, List.mem_append_right _ (List.mem_singleton_self r), h⟩
        · exact ⟨r', List.mem_append_left _ hr', h⟩
      · intro ⟨r', hr', h⟩
        rcases List.mem_append.mp hr' with hr' | hr'
        · exact .inr ⟨r', hr', h⟩
        · rw [List.mem_singleton.mp hr'] at h
          exact .inl h

/-- **The uses of a block**: recorded while the name had no definition in the
block, up to two names with the same key. -/
theorem mem_usePerBlock_iff {bytes : Text} {rs : List Record} {b : Nat} {x : Text} :
    x ∈ (recordAll bytes rs).tables.usePerBlock b
      ↔ ∃ before r behind, rs = before ++ r :: behind ∧ Uses bytes b x (recordAll bytes before) r := by
  induction rs using List.reverseRecOn with
  | nil =>
      refine ⟨fun h => absurd h (Finset.notMem_empty x), fun ⟨before, r, behind, h, _⟩ => ?_⟩
      exact absurd h (by simp)
  | append_singleton rs r ih =>
      rw [recordAll_append_singleton, mem_usePerBlock_record, ih]
      constructor
      · rintro (h | ⟨before, r', behind, rfl, h⟩)
        · exact ⟨rs, r, [], rfl, h⟩
        · refine ⟨before, r', behind ++ [r], ?_, h⟩
          rw [List.append_assoc, List.cons_append]
      · intro ⟨before, r', behind, heq, h⟩
        rcases List.eq_nil_or_concat behind with rfl | ⟨behind', last, rfl⟩
        · -- the use is the last record, or one in front of it
          obtain ⟨rfl, hlast⟩ := List.append_inj' heq rfl
          cases hlast
          exact .inl h
        · rw [List.concat_eq_append, ← List.cons_append, ← List.append_assoc] at heq
          obtain ⟨rfl, -⟩ := List.append_inj' heq rfl
          exact .inr ⟨before, r', behind', rfl, h⟩

end ShaderClippy.ControlFlow.Liveness
