/-
  ShaderClippy.Rules.GroupsharedOverwrite

  **IS A GROUPSHARED WRITE OVERWRITTEN?**
  (`groupshared_overwrite_before_barrier.cpp`)

  The rule pairs each write with the next one, in source order, to the same
  cell text in the same function (`mem_writePairs_iff`), and reports the pairs
  that `barrier_separates` does not separate. Inside a function body it
  never separates anything, so all pairs are reported
  (`mem_reportedPairs_iff`).

  So a report is right exactly where an execution leads from the first write
  to the second past no barrier and no read of the array
  (`overwriteLaw_iff`), which `overwrites` decides on the statements.
-/
import Mathlib
import ShaderClippy.ControlFlow.Barrier
import ShaderClippy.ControlFlow.Evaluation
import ShaderClippy.Rules.GroupsharedNames

namespace ShaderClippy.Rules.GroupsharedOverwrite

open ControlFlow ControlFlow.Evaluation Structured

/-! ## §1. The rule. -/

/-- `WriteSite`. -/
structure WriteSite where
  cellKey : Text
  assign : ByteSpan
  lhsSubscript : ByteSpan
  receiver : Text
  fnId : Nat
  deriving Repr, DecidableEq

namespace WriteSite

/-- The key of `last_write_idx`. -/
def key (w : WriteSite) : Text := functionKey w.fnId w.cellKey

/-- The bytes of the left side in the file `source`. -/
def span (w : WriteSite) (source : SourceId) : Span := ⟨source, w.lhsSubscript⟩

end WriteSite

/-- What `scan_writes` takes from one node. -/
def writeSite (names : List Text) (bytes : Text) (fnId : Nat) (n : Node) : List WriteSite :=
  match n.childByField .left with
  | none => []
  | some lhs =>
      let receiver := optionText (subscriptReceiver lhs) bytes
      if n.kind = .assignmentExpression ∧ lhs.kind = .subscriptExpression ∧ receiver ≠ []
          ∧ receiver ∈ names then
        [⟨cellText receiver (optionText (subscriptIndex lhs) bytes), ⟨n.info.lo, n.info.hi⟩,
          ⟨lhs.info.lo, lhs.info.hi⟩, receiver, fnId⟩]
      else []

mutual
/-- `scan_writes`. -/
def scanWrites (names : List Text) (bytes : Text) (fnId : Nat) : Node → List WriteSite
  | .mk i cs =>
      let fnId := functionKeyBelow fnId i
      writeSite names bytes fnId (.mk i cs) ++ scanWritesAll names bytes fnId cs

def scanWritesAll (names : List Text) (bytes : Text) (fnId : Nat) : List Node → List WriteSite
  | [] => []
  | n :: ns => scanWrites names bytes fnId n ++ scanWritesAll names bytes fnId ns
end

/-- The loop over the sites: `last_write_idx` is a list, the latest write of a
key in front. -/
def pairsFrom (last : List (Text × WriteSite)) : List WriteSite → List (WriteSite × WriteSite)
  | [] => []
  | w :: ws =>
      match last.lookup w.key with
      | none => pairsFrom ((w.key, w) :: last) ws
      | some prev => (prev, w) :: pairsFrom ((w.key, w) :: last) ws

/-- The pairs the loop asks about. -/
def writePairs (sites : List WriteSite) : List (WriteSite × WriteSite) :=
  if sites.length < 2 then [] else pairsFrom [] sites

/-- The sites of a source. -/
def writeSites (root : Node) (bytes : Text) : List WriteSite :=
  scanWrites (collectGroupsharedNames bytes root) bytes 0 root

/-- The pairs `on_cfg` reports. -/
def reportedPairs (source : SourceId) (root : Node) (bytes : Text) : List (WriteSite × WriteSite) :=
  (writePairs (writeSites root bytes)).filter fun pair =>
    !barrierSeparatesSpans (buildEntry source root bytes).info (pair.1.span source)
      (pair.2.span source)

/-- The diagnostic at the first write of a pair. -/
def deadWrite (source : SourceId) (prev : WriteSite) : Diagnostic where
  code := "groupshared-overwrite-before-barrier".toList
  severity := .warning
  primarySpan := ⟨source, prev.assign⟩
  message := "groupshared write to `".toList ++ prev.cellKey
    ++ "` is overwritten on the same path with no intervening ".toList
    ++ "`GroupMemoryBarrier*` -- the first store is unobservable ".toList
    ++ "to other threads; delete it or insert a barrier".toList
  fixes := []

/-- `GroupsharedOverwriteBeforeBarrier::on_cfg`. -/
def onCfg (source : SourceId) (root : Node) (bytes : Text) : List Diagnostic :=
  (reportedPairs source root bytes).map fun pair => deadWrite source pair.1

/-! ## §2. Which writes are paired. -/

/-- The next write to the same cell text in the same function. -/
def NextWrite (sites : List WriteSite) (a b : WriteSite) : Prop :=
  ∃ before between behind, sites = before ++ a :: (between ++ b :: behind)
    ∧ a.fnId = b.fnId ∧ a.cellKey = b.cellKey
    ∧ ∀ c ∈ between, ¬ (c.fnId = b.fnId ∧ c.cellKey = b.cellKey)

theorem key_inj {a b : WriteSite} : a.key = b.key ↔ a.fnId = b.fnId ∧ a.cellKey = b.cellKey :=
  functionKey_inj

/-- The latest write of a key among `sites`. -/
def Latest (sites : List WriteSite) (key : Text) (a : WriteSite) : Prop :=
  ∃ before behind, sites = before ++ a :: behind ∧ a.key = key ∧ ∀ c ∈ behind, c.key ≠ key

/-- The table holds the latest write of every key. -/
def Remembers (last : List (Text × WriteSite)) (seen : List WriteSite) : Prop :=
  ∀ key a, last.lookup key = some a ↔ Latest seen key a

theorem remembers_nil : Remembers [] [] := by
  intro key a
  constructor
  · exact nofun
  · intro ⟨before, behind, heq, _⟩
    exact absurd heq (by simp)

theorem latest_append_singleton {seen : List WriteSite} {key : Text} {a w : WriteSite} :
    Latest (seen ++ [w]) key a ↔ if w.key = key then a = w else Latest seen key a := by
  constructor
  · intro ⟨before, behind, heq, hkey, hbehind⟩
    rcases List.eq_nil_or_concat behind with rfl | ⟨behind', x, rfl⟩
    · -- the new write is the latest of its key
      have ⟨_, haw⟩ := List.append_inj' heq rfl
      cases haw
      rw [if_pos hkey]
    · -- the latest is an old write; the new one has another key
      rw [List.concat_eq_append] at heq hbehind
      rw [← List.cons_append, ← List.append_assoc] at heq
      have ⟨hseen, hx⟩ := List.append_inj' heq rfl
      cases hx
      rw [if_neg (hbehind _ (List.mem_append_right _ (List.mem_singleton_self _)))]
      exact ⟨before, behind', hseen, hkey, fun c hc => hbehind c (List.mem_append_left _ hc)⟩
  · intro h
    split at h
    next hkey =>
      rw [h]
      exact ⟨seen, [], rfl, hkey, fun c hc => absurd hc List.not_mem_nil⟩
    next hkey =>
      obtain ⟨before, behind, rfl, ha, hbehind⟩ := h
      refine ⟨before, behind ++ [w], by rw [List.append_assoc, List.cons_append], ha, fun c hc => ?_⟩
      rcases List.mem_append.mp hc with hc | hc
      · exact hbehind c hc
      · rw [List.mem_singleton.mp hc]
        exact hkey

theorem Remembers.step {last : List (Text × WriteSite)} {seen : List WriteSite}
    (h : Remembers last seen) (w : WriteSite) : Remembers ((w.key, w) :: last) (seen ++ [w]) := by
  intro key a
  rw [latest_append_singleton, List.lookup_cons]
  by_cases hkey : w.key = key
  · -- the new entry hides an older one of its key
    rw [if_pos hkey, beq_iff_eq.mpr hkey.symm]
    show some w = some a ↔ _
    rw [Option.some.injEq]
    exact eq_comm
  · rw [if_neg hkey, beq_eq_false_iff_ne.mpr (Ne.symm hkey)]
    exact h key a

theorem pairsFrom_cons {last : List (Text × WriteSite)} {w : WriteSite} {ws : List WriteSite} :
    pairsFrom last (w :: ws) = match last.lookup w.key with
      | none => pairsFrom ((w.key, w) :: last) ws
      | some prev => (prev, w) :: pairsFrom ((w.key, w) :: last) ws := rfl

/-- A write is paired with the latest one of its key, of those seen before and
those in front of it in the list. -/
theorem mem_pairsFrom {a b : WriteSite} : ∀ {ws : List WriteSite} {last : List (Text × WriteSite)}
    {seen : List WriteSite}, Remembers last seen →
      ((a, b) ∈ pairsFrom last ws
        ↔ ∃ front behind, ws = front ++ b :: behind ∧ Latest (seen ++ front) b.key a) := by
  intro ws
  induction ws with
  | nil =>
      intro last seen _
      constructor
      · exact fun h => absurd h List.not_mem_nil
      · intro ⟨front, behind, heq, _⟩
        exact absurd heq (by simp)
  | cons w ws ih =>
      intro last seen hlast
      have hrest := ih (hlast.step w)
      -- the pair is made at `w`, or later
      have hcases : (a, b) ∈ pairsFrom last (w :: ws)
          ↔ (last.lookup w.key = some a ∧ w = b) ∨ (a, b) ∈ pairsFrom ((w.key, w) :: last) ws := by
        rw [pairsFrom_cons]
        cases last.lookup w.key with
        | none => exact ⟨.inr, fun h => h.resolve_left fun hab => absurd hab.1 nofun⟩
        | some prev =>
            show (a, b) ∈ (prev, w) :: pairsFrom ((w.key, w) :: last) ws ↔ _
            rw [List.mem_cons, Prod.mk.injEq, Option.some.injEq]
            constructor
            · rintro (⟨ha, hb⟩ | h)
              · exact .inl ⟨ha.symm, hb.symm⟩
              · exact .inr h
            · rintro (⟨ha, hb⟩ | h)
              · exact .inl ⟨ha.symm, hb.symm⟩
              · exact .inr h
      rw [hcases, hrest]
      constructor
      · rintro (⟨hlook, rfl⟩ | ⟨front, behind, rfl, h⟩)
        · refine ⟨[], ws, rfl, ?_⟩
          rw [List.append_nil]
          exact (hlast _ a).mp hlook
        · refine ⟨w :: front, behind, rfl, ?_⟩
          rw [List.append_cons]
          exact h
      · intro ⟨front, behind, heq, h⟩
        -- `w` is `b` itself, or one of the writes in front of it
        cases front with
        | nil =>
            obtain ⟨rfl, rfl⟩ := List.cons.inj heq
            rw [List.append_nil] at h
            exact .inl ⟨(hlast _ a).mpr h, rfl⟩
        | cons f front =>
            obtain ⟨rfl, rfl⟩ := List.cons.inj heq
            rw [List.append_cons] at h
            exact .inr ⟨front, behind, rfl, h⟩

/-- **The loop pairs each write with the next one to its cell.** -/
theorem mem_writePairs_iff {sites : List WriteSite} {a b : WriteSite} :
    (a, b) ∈ writePairs sites ↔ NextWrite sites a b := by
  have hloop : (a, b) ∈ pairsFrom [] sites ↔ NextWrite sites a b := by
    rw [mem_pairsFrom remembers_nil]
    constructor
    · intro ⟨front, behind, hsites, before, between, hfront, hkey, hbetween⟩
      rw [List.nil_append] at hfront
      have ⟨hfn, hcell⟩ := key_inj.mp hkey
      refine ⟨before, between, behind, ?_, hfn, hcell, fun c hc h => hbetween c hc (key_inj.mpr h)⟩
      rw [hsites, hfront, List.append_assoc, List.cons_append]
    · intro ⟨before, between, behind, hsites, hfn, hcell, hbetween⟩
      refine ⟨before ++ a :: between, behind, ?_, before, between, rfl, key_inj.mpr ⟨hfn, hcell⟩,
        fun c hc h => hbetween c hc (key_inj.mp h)⟩
      rw [hsites, List.append_assoc, List.cons_append]
  unfold writePairs
  split
  next hshort =>
    -- the rule gives up below two sites, and a pair has two
    refine ⟨fun h => absurd h List.not_mem_nil, fun h => ?_⟩
    obtain ⟨before, between, behind, rfl, _⟩ := h
    simp only [List.length_append, List.length_cons] at hshort
    omega
  next => exact hloop

/-! ## §3. All pairs in a function are reported. -/

/-- The write stands in the `i`-th function of the source. -/
def InFunction (root : Node) (i : Nat) (source : SourceId) (w : WriteSite) : Prop :=
  ∃ fnNode, (collectFunctions root)[i]? = some fnNode ∧ Covers fnNode (w.span source)

mutual
/-- The left sides of writes have bytes. -/
theorem scanWrites_nonempty {names : List Text} {bytes : Text} {w : WriteSite} :
    ∀ {n : Node} {fnId : Nat}, n.wellSpanned = true → w ∈ scanWrites names bytes fnId n →
      w.lhsSubscript.lo < w.lhsSubscript.hi
  | .mk i cs, fnId, hw, hmem => by
      unfold scanWrites at hmem
      rcases List.mem_append.mp hmem with hmem | hmem
      · unfold writeSite at hmem
        cases hleft : (Node.mk i cs).childByField .left with
        | none =>
            rw [hleft] at hmem
            exact absurd hmem List.not_mem_nil
        | some lhs =>
            rw [hleft] at hmem
            have hlhs : lhs.wellSpanned = true :=
              (Node.wellSpanned_child hw (List.mem_of_find?_eq_some hleft)).1
            simp only at hmem
            split at hmem
            next hsite =>
              -- the name of the array stands in it
              rw [List.mem_singleton.mp hmem]
              exact lo_lt_hi_of_receiver hlhs hsite.2.2.1
            next => exact absurd hmem List.not_mem_nil
      · exact scanWritesAll_nonempty (fun c hc => (Node.wellSpanned_child hw hc).1) hmem

theorem scanWritesAll_nonempty {names : List Text} {bytes : Text} {w : WriteSite} :
    ∀ {ns : List Node} {fnId : Nat}, (∀ n ∈ ns, n.wellSpanned = true) →
      w ∈ scanWritesAll names bytes fnId ns → w.lhsSubscript.lo < w.lhsSubscript.hi
  | [], _, _, hmem => absurd hmem List.not_mem_nil
  | n :: ns, fnId, hw, hmem => by
      unfold scanWritesAll at hmem
      rcases List.mem_append.mp hmem with hmem | hmem
      · exact scanWrites_nonempty (hw n (List.mem_cons_self ..)) hmem
      · exact scanWritesAll_nonempty (fun c hc => hw c (List.mem_cons_of_mem _ hc)) hmem
end

/-- **A pair whose first write stands in a function without errors is
reported.** -/
theorem mem_reportedPairs_iff {root : Node} {i : Nat} {source : SourceId} {bytes : Text}
    {span : ByteSpan} {body : Stmts} {a b : WriteSite} (hw : root.wellSpanned = true)
    (hbody : IsBody root i (.compound span body)) (hin : InFunction root i source a) :
    (a, b) ∈ reportedPairs source root bytes ↔ NextWrite (writeSites root bytes) a b := by
  obtain ⟨fnNode, f, hnode, herr, hfb⟩ := hbody
  obtain ⟨fnNode', hnode', hcovers⟩ := hin
  rw [hnode, Option.some.injEq] at hnode'
  subst hnode'
  unfold reportedPairs
  rw [List.mem_filter, mem_writePairs_iff]
  refine ⟨fun h => h.1, fun h => ⟨h, ?_⟩⟩
  -- `a` is a site
  have hmem : a ∈ writeSites root bytes := by
    obtain ⟨before, between, behind, hsites, -⟩ := h
    rw [hsites]
    exact List.mem_append_right _ (List.mem_cons_self ..)
  -- inside such a function the query finds no barrier, so the pair stays
  rw [barrierSeparatesSpans_eq_false hw hnode herr hfb hcovers (scanWrites_nonempty hw hmem)]
  rfl

/-! ## §4. The law. -/

/-- The left side of the write is stored to. -/
def storesTo (w : WriteSite) : Step → Bool
  | .store n => n.info.lo == w.lhsSubscript.lo && n.info.hi == w.lhsSubscript.hi
  | .value _ | .declare _ => false

/-- What a place is a part of, if it is one: the receiver of a subscript, the
object of a field, what is in the parentheses. -/
def wholeIsPart (k : NodeKind) (parts : List (Node × Bool)) : Bool :=
  match k with
  | .subscriptExpression =>
      ((parts.find? fun c => decide (c.1.info.field = some .argument)).or parts.head?).any Prod.snd
  | .fieldExpression => (parts.find? fun c => decide (c.1.info.field = some .argument)).any Prod.snd
  | .parenthesizedExpression => parts.any Prod.snd
  | _ => false

mutual
/-- Is the node the array, or a place in it? -/
def isPart (bytes array : Text) : Node → Bool
  | .mk i cs => (Node.mk i cs).text bytes == array || wholeIsPart i.kind (partsOf bytes array cs)

def partsOf (bytes array : Text) : List Node → List (Node × Bool)
  | [] => []
  | n :: ns => (n, isPart bytes array n) :: partsOf bytes array ns
end

/-- The step calls no barrier and reads nothing of the array. The left side of
`+=` and the operand of `++` are places, whose arrays are no operands: they are
read all the same. -/
def isQuiet (bytes array : Text) : Step → Bool
  | .store _ | .declare _ => true
  | .value n => !isBarrierNode bytes n.info n.children && !isPart bytes array n

/-- Some execution stores for `a` and later for `b`, with no barrier and no
read of the array in between. -/
def Overwritten (bytes : Text) (body : Stmt) (a b : WriteSite) : Prop :=
  ∃ before x mid y behind o, Exec (bodySteps body) (before ++ x :: (mid ++ y :: behind)) o
    ∧ storesTo a x = true ∧ storesTo b y = true ∧ ∀ z ∈ mid, isQuiet bytes a.receiver z = true

/-- The law for a function: what is reported is overwritten. -/
def OverwriteLaw (source : SourceId) (root : Node) (bytes : Text) (i : Nat) (body : Stmt) : Prop :=
  ∀ a b, (a, b) ∈ reportedPairs source root bytes → InFunction root i source a →
    Overwritten bytes body a b

/-- Decides on the statements if some way leads from `a` to `b` past no
barrier and no read of the array. -/
def overwrites (bytes : Text) (body : Stmt) (a b : WriteSite) : Bool :=
  passes [⟨fun _ => true, storesTo a⟩, ⟨isQuiet bytes a.receiver, storesTo b⟩] (bodySteps body)

theorem overwrites_iff {bytes : Text} {body : Stmt} {a b : WriteSite} :
    overwrites bytes body a b = true ↔ Overwritten bytes body a b := by
  unfold overwrites
  rw [passes_iff]
  constructor
  · intro ⟨tr, o, hexec, before, x, rest, htr, _, hx, mid, y, behind, hrest, hmid, hy, _⟩
    -- the stages split the trace at the two stores
    rw [htr, hrest] at hexec
    exact ⟨before, x, mid, y, behind, o, hexec, hx, hy, hmid⟩
  · intro ⟨before, x, mid, y, behind, o, hexec, hx, hy, hmid⟩
    exact ⟨_, o, hexec, before, x, _, rfl, fun _ _ => rfl, hx, mid, y, behind, rfl, hmid, hy, trivial⟩

/-- **All reports in a function are right exactly if every write in it and the
next one to the same cell are joined past no barrier and no read.** -/
theorem overwriteLaw_iff {root : Node} {i : Nat} {source : SourceId} {bytes : Text}
    {span : ByteSpan} {body : Stmts} (hw : root.wellSpanned = true)
    (hbody : IsBody root i (.compound span body)) :
    OverwriteLaw source root bytes i (.compound span body)
      ↔ ∀ a b, NextWrite (writeSites root bytes) a b → InFunction root i source a →
        overwrites bytes (.compound span body) a b = true := by
  unfold OverwriteLaw
  refine forall_congr' fun a => forall_congr' fun b => ?_
  constructor
  · intro h hnext hin
    exact overwrites_iff.mpr (h ((mem_reportedPairs_iff hw hbody hin).mpr hnext) hin)
  · intro h hmem hin
    exact overwrites_iff.mp (h ((mem_reportedPairs_iff hw hbody hin).mp hmem) hin)

/-! ## §5. Two functions. -/

/-- `groupshared int g[4];` -/
def declarationOfG : Node :=
  namedNode .declaration none ⟨0, 21⟩
    [namedNode (.other "primitive_type".toList) none ⟨12, 15⟩ [],
     namedNode kArrayDeclarator (some .declarator) ⟨16, 20⟩
      [namedNode .identifier (some .declarator) ⟨16, 17⟩ [],
       namedNode .numberLiteral none ⟨18, 19⟩ []]]

/-- `g[i]=a;` at `lo`. -/
def writeStatement (lo : Nat) : PlainNode :=
  ⟨namedNode .expressionStatement none ⟨lo, lo + 7⟩
    [namedNode .assignmentExpression none ⟨lo, lo + 6⟩
      [namedNode .subscriptExpression (some .left) ⟨lo, lo + 4⟩
        [namedNode .identifier (some .argument) ⟨lo, lo + 1⟩ [],
         namedNode .identifier (some .index) ⟨lo + 2, lo + 3⟩ []],
       namedNode .identifier (some .right) ⟨lo + 5, lo + 6⟩ []]], rfl, rfl⟩

/-- The array, and `void f()` with this body, in `size` bytes. -/
def sourceTree (body : Stmt) (size : Nat) : Node :=
  namedNode .translationUnit none ⟨0, size⟩
    [declarationOfG,
     namedNode .functionDefinition none ⟨21, size⟩
      [namedNode .functionDeclarator (some .declarator) ⟨26, 29⟩
        [namedNode .identifier (some .declarator) ⟨26, 27⟩ []],
       body.toNode (some .body)]]

def twoWrites : Text := "groupshared int g[4];void f(){g[i]=a;g[i]=b;}".toList

def twoWritesBody : Stmts :=
  .cons (.simple (writeStatement 30)) (.cons (.simple (writeStatement 37)) .nil)

/-- The law of a body with a dead write. -/
theorem overwriteLaw_iff_twoWrites :
    OverwriteLaw ⟨1⟩ (sourceTree (.compound ⟨29, 45⟩ twoWritesBody) 45) twoWrites 0
      (.compound ⟨29, 45⟩ twoWritesBody) := by
  refine (overwriteLaw_iff (by decide) ⟨_, some .body, rfl, rfl, rfl⟩).mpr fun a b hnext _ => ?_
  have hall : ∀ pair ∈ writePairs (writeSites (sourceTree (.compound ⟨29, 45⟩ twoWritesBody) 45)
      twoWrites), overwrites twoWrites (.compound ⟨29, 45⟩ twoWritesBody) pair.1 pair.2 = true := by
    decide +kernel
  exact hall (a, b) (mem_writePairs_iff.mpr hnext)

/-- A write to `g[i]`. -/
def armWrite (lo : Nat) : WriteSite :=
  ⟨"g[i]".toList, ⟨lo, lo + 6⟩, ⟨lo, lo + 4⟩, "g".toList, 21⟩

/-- `g[i]+=b;` at `lo`. -/
def addStatement (lo : Nat) : PlainNode :=
  ⟨namedNode .expressionStatement none ⟨lo, lo + 8⟩
    [namedNode .assignmentExpression none ⟨lo, lo + 7⟩
      [namedNode .subscriptExpression (some .left) ⟨lo, lo + 4⟩
        [namedNode .identifier (some .argument) ⟨lo, lo + 1⟩ [],
         namedNode .identifier (some .index) ⟨lo + 2, lo + 3⟩ []],
       namedNode (.other "+=".toList) (some .operator) ⟨lo + 4, lo + 6⟩ [],
       namedNode .identifier (some .right) ⟨lo + 6, lo + 7⟩ []]], rfl, rfl⟩

/-- The second write reads the cell before it stores. -/
example : overwrites "groupshared int g[4];void f(){g[i]=a;g[i]+=b;}".toList
    (.compound ⟨29, 46⟩ (.cons (.simple (writeStatement 30)) (.cons (.simple (addStatement 37)) .nil)))
    (armWrite 30) (armWrite 37) = false := by decide +kernel

def twoArms : Text := "groupshared int g[4];void f(){if(c)g[i]=a;else g[i]=b;}".toList

def twoArmsBody : Stmts :=
  .cons (.ifElse ⟨30, 54⟩ (identCondition 32) (.simple (writeStatement 35)) ⟨42, 54⟩
    (.simple (writeStatement 47))) .nil

def twoArmsTree : Node := sourceTree (.compound ⟨29, 55⟩ twoArmsBody) 55

/-- **The two arms of an `if` are reported**, and no execution runs both. -/
theorem twoArms_reported :
    IsBody twoArmsTree 0 (.compound ⟨29, 55⟩ twoArmsBody)
      ∧ ¬ OverwriteLaw ⟨1⟩ twoArmsTree twoArms 0 (.compound ⟨29, 55⟩ twoArmsBody) := by
  refine ⟨⟨_, some .body, rfl, rfl, rfl⟩, fun hlaw => ?_⟩
  have hreported : (armWrite 35, armWrite 47) ∈ reportedPairs ⟨1⟩ twoArmsTree twoArms := by
    decide +kernel
  have hover := overwrites_iff.mpr (hlaw _ _ hreported ⟨_, rfl, by decide, by decide⟩)
  exact absurd hover (by decide +kernel)

end ShaderClippy.Rules.GroupsharedOverwrite
