/-
  ShaderClippy.Rules.GroupsharedRace

  **WHICH GROUPSHARED READS RACE WITH A WRITE?**
  (`groupshared_first_read_without_barrier.cpp`,
  `groupshared_write_then_no_barrier_read.cpp`)

  Both rules go through the accesses of a file and ask `barrier_separates`
  about pairs of a write and a read. Here that query is any relation `sep`
  on spans.

  The first rule asks about ONE write for each read, the earliest before it
  (`reportsRead_iff`). It finds the racing reads exactly if a barrier behind
  the earliest write means a barrier behind all of them (`firstReadLaw_iff`).

  The second rule asks about all pairs, but each write reports one read only,
  of whatever array. It reports the racing reads once each exactly if the
  writes and the racing reads are in correspondence (`pairLaw_iff`).
-/
import Mathlib
import ShaderClippy.Diagnostic
import ShaderClippy.Lib.FirstSmallest
import ShaderClippy.Rules.GroupsharedNames

namespace ShaderClippy.Rules.GroupsharedRace

/-! ## §1. `groupshared-first-read-without-barrier`. -/

/-- `AccessSite`: `cellKey` is `name[index]`. -/
structure AccessSite where
  cellKey : Text
  bytes : ByteSpan
  fnId : Nat
  isWrite : Bool
  bracketed : '[' ∈ cellKey

namespace AccessSite

/-- The receiver name in front of the bracket. -/
def arrayName (s : AccessSite) : Text := s.cellKey.takeWhile (· != '[')

/-- The key of `writes_by_name`. -/
def nameKey (s : AccessSite) : Text := functionKey s.fnId s.arrayName

/-- The accessed bytes of the file `source`. -/
def span (s : AccessSite) (source : SourceId) : Span := ⟨source, s.bytes⟩

end AccessSite

/-- The site of a subscript of one of the arrays. -/
def accessSite (names : List Text) (bytes : Text) (fnId : Nat) (isLhs : Bool) (n : Node) :
    List AccessSite :=
  let receiver := optionText (subscriptReceiver n) bytes
  if n.kind = .subscriptExpression ∧ receiver ≠ [] ∧ receiver ∈ names then
    [⟨cellText receiver (optionText (subscriptIndex n) bytes), ⟨n.info.lo, n.info.hi⟩, fnId, isLhs,
      List.mem_append_right _ (List.mem_cons_self ..)⟩]
  else []

mutual
/-- `scan_accesses`; `isLhs` is `is_lhs_of_assignment` of the node. (The test
for atomics always says no.) -/
def scanAccesses (names : List Text) (bytes : Text) (fnId : Nat) (isLhs : Bool) :
    Node → List AccessSite
  | .mk i cs =>
      let fnId := functionKeyBelow fnId i
      let lhs := if i.kind = .assignmentExpression then (Node.mk i cs).childByField .left else none
      accessSite names bytes fnId isLhs (.mk i cs) ++ scanAccessesAll names bytes fnId lhs cs

def scanAccessesAll (names : List Text) (bytes : Text) (fnId : Nat) (lhs : Option Node) :
    List Node → List AccessSite
  | [] => []
  | n :: ns => scanAccesses names bytes fnId (lhs.map Node.info == some n.info) n
      ++ scanAccessesAll names bytes fnId lhs ns
end

/-- `writes_by_name` at a key, in the order of the sites. -/
def writesByName (sites : List AccessSite) (key : Text) : List AccessSite :=
  sites.filter fun s => s.isWrite && s.nameKey == key

/-- The loop for `earliest_writer_idx`. -/
def earliestWriter (sites : List AccessSite) (read : AccessSite) : Option AccessSite :=
  ((writesByName sites read.nameKey).foldl
    (scanStep (fun w => w.bytes.lo < read.bytes.lo) fun w => w.bytes.lo) (none, read.bytes.lo)).1

/-- What the loop over the reads asks about one of them. -/
def reportsRead (sep : Span → Span → Bool) (source : SourceId) (sites : List AccessSite)
    (read : AccessSite) : Bool :=
  match earliestWriter sites read with
  | none => false
  | some w => !sep (w.span source) (read.span source)

/-- The reads `on_cfg` reports. -/
def reportedReads (sep : Span → Span → Bool) (source : SourceId) (sites : List AccessSite) :
    List AccessSite :=
  if sites.length < 2 then []
  else sites.filter fun s => !s.isWrite && reportsRead sep source sites s

/-- The diagnostic at a read. -/
def unseparatedRead (source : SourceId) (read : AccessSite) : Diagnostic where
  code := "groupshared-first-read-without-barrier".toList
  severity := .error
  primarySpan := read.span source
  message := "groupshared read of `".toList ++ read.cellKey
    ++ "` is not separated by `GroupMemoryBarrier*` from a prior ".toList
    ++ "write to the same array on this CFG path; cross-lane reads ".toList
    ++ "are unordered without a barrier and produce undefined ".toList
    ++ "values once the workgroup spans more than one wave".toList
  fixes := []

/-- `GroupsharedFirstReadWithoutBarrier::on_cfg`. -/
def firstReadOnCfg (sep : Span → Span → Bool) (source : SourceId) (root : Node) (bytes : Text) :
    List Diagnostic :=
  let sites := scanAccesses (collectGroupsharedNames bytes root) bytes 0 false root
  (reportedReads sep source sites).map (unseparatedRead source)

/-! ## §2. The writes before a read. -/

/-- A write before the read, in the same function and to the same array. -/
structure WriteBefore (w read : AccessSite) : Prop where
  isWrite : w.isWrite = true
  fnId : w.fnId = read.fnId
  array : w.arrayName = read.arrayName
  earlier : w.bytes.lo < read.bytes.lo

instance (w read : AccessSite) : Decidable (WriteBefore w read) :=
  decidable_of_iff (w.isWrite = true ∧ w.fnId = read.fnId ∧ w.arrayName = read.arrayName
    ∧ w.bytes.lo < read.bytes.lo)
    ⟨fun ⟨h1, h2, h3, h4⟩ => ⟨h1, h2, h3, h4⟩, fun ⟨h1, h2, h3, h4⟩ => ⟨h1, h2, h3, h4⟩⟩

theorem mem_writesByName {sites : List AccessSite} {w read : AccessSite} :
    w ∈ writesByName sites read.nameKey ∧ w.bytes.lo < read.bytes.lo
      ↔ w ∈ sites ∧ WriteBefore w read := by
  unfold writesByName
  rw [List.mem_filter, Bool.and_eq_true, beq_iff_eq, AccessSite.nameKey, AccessSite.nameKey,
    functionKey_inj]
  exact ⟨fun ⟨⟨hm, hw, hfn, ha⟩, hlo⟩ => ⟨hm, hw, hfn, ha, hlo⟩,
    fun ⟨hm, hw, hfn, ha, hlo⟩ => ⟨⟨hm, hw, hfn, ha⟩, hlo⟩⟩

/-- The first write of an array in the source, as a read of the array sees it. -/
def Earliest (sites : List AccessSite) (read w : AccessSite) : Prop :=
  ∃ i, FirstSmallest (fun w => w.bytes.lo < read.bytes.lo) (fun w => w.bytes.lo)
    (writesByName sites read.nameKey) i w

theorem Earliest.writeBefore {sites : List AccessSite} {read w : AccessSite}
    (h : Earliest sites read w) : w ∈ sites ∧ WriteBefore w read := by
  obtain ⟨i, hfirst⟩ := h
  exact mem_writesByName.mp ⟨List.mem_of_getElem? hfirst.get, hfirst.sat⟩

theorem exists_earliest {sites : List AccessSite} {read : AccessSite}
    (h : ∃ w ∈ sites, WriteBefore w read) : ∃ w, Earliest sites read w := by
  obtain ⟨w, hw, hbefore⟩ := h
  have ⟨hmem, hlo⟩ := mem_writesByName.mpr ⟨hw, hbefore⟩
  have ⟨i, w₀, hfirst⟩ := @FirstSmallest.exists_of_mem _
    (fun w => w.bytes.lo < read.bytes.lo) (fun w => w.bytes.lo) _ _ ⟨w, hmem, hlo⟩
  exact ⟨w₀, i, hfirst⟩

/-- The loop ends on the earliest write, if there is one. -/
theorem earliestWriter_eq_some {sites : List AccessSite} {read w : AccessSite}
    (h : Earliest sites read w) : earliestWriter sites read = some w := by
  obtain ⟨i, hfirst⟩ := h
  exact foldl_scanStep hfirst hfirst.sat

theorem earliestWriter_eq_none {sites : List AccessSite} {read : AccessSite}
    (h : ¬ ∃ w ∈ sites, WriteBefore w read) : earliestWriter sites read = none := by
  unfold earliestWriter
  refine foldl_scanStep_none fun w hw hlo => ?_
  exact absurd ⟨w, mem_writesByName.mp ⟨hw, hlo⟩⟩ h

/-- **A read is reported exactly if its earliest write is not separated from
it.** -/
theorem reportsRead_iff {sep : Span → Span → Bool} {source : SourceId} {sites : List AccessSite}
    {read : AccessSite} : reportsRead sep source sites read = true
      ↔ ∃ w, Earliest sites read w ∧ sep (w.span source) (read.span source) = false := by
  unfold reportsRead
  by_cases h : ∃ w ∈ sites, WriteBefore w read
  · obtain ⟨w₀, hw₀⟩ := exists_earliest h
    rw [earliestWriter_eq_some hw₀]
    show (!sep (w₀.span source) (read.span source)) = true ↔ _
    rw [Bool.not_eq_true']
    constructor
    · -- there is one earliest write only
      exact fun hsep => ⟨w₀, hw₀, hsep⟩
    · intro ⟨w, hw, hsep⟩
      obtain ⟨i, hi⟩ := hw₀
      obtain ⟨j, hj⟩ := hw
      rw [(hi.unique hj).2]
      exact hsep
  · rw [earliestWriter_eq_none h]
    -- no write comes before the read
    show false = true ↔ _
    constructor
    · exact fun hf => absurd hf Bool.false_ne_true
    · exact fun ⟨w, hw, _⟩ => absurd ⟨w, hw.writeBefore⟩ h

/-! ## §3. The law of the first rule. -/

/-- Some write before the read is not separated from it. -/
def Racing (sep : Span → Span → Bool) (source : SourceId) (sites : List AccessSite)
    (read : AccessSite) : Prop :=
  ∃ w ∈ sites, WriteBefore w read ∧ sep (w.span source) (read.span source) = false

/-- The reported reads are the racing ones. -/
def FirstReadLaw (sep : Span → Span → Bool) (source : SourceId) (sites : List AccessSite) : Prop :=
  ∀ read ∈ sites, read.isWrite = false →
    (read ∈ reportedReads sep source sites ↔ Racing sep source sites read)

/-- A barrier between the earliest write and a read is one between every
earlier write and the read. -/
def EarliestDecides (sep : Span → Span → Bool) (source : SourceId) (sites : List AccessSite) :
    Prop :=
  ∀ read ∈ sites, read.isWrite = false → ∀ w₀, Earliest sites read w₀ →
    sep (w₀.span source) (read.span source) = true →
      ∀ w ∈ sites, WriteBefore w read → sep (w.span source) (read.span source) = true

/-- One site alone is no write before a read. -/
theorem mem_reportedReads {sep : Span → Span → Bool} {source : SourceId} {sites : List AccessSite}
    {read : AccessSite} (hmem : read ∈ sites) (hread : read.isWrite = false) :
    read ∈ reportedReads sep source sites ↔ reportsRead sep source sites read = true := by
  unfold reportedReads
  split
  case isTrue hshort =>
    refine ⟨fun h => absurd h List.not_mem_nil, fun h => ?_⟩
    obtain ⟨w, hw, -⟩ := reportsRead_iff.mp h
    have ⟨hwmem, hbefore⟩ := hw.writeBefore
    -- the list has one element, which would be the read and the write
    have hone : sites.length = 1 := by
      have := List.length_pos_of_mem hmem
      omega
    obtain ⟨a, rfl⟩ := List.length_eq_one_iff.mp hone
    have hwrite := hbefore.isWrite
    rw [List.mem_singleton.mp hwmem, ← List.mem_singleton.mp hmem, hread] at hwrite
    exact absurd hwrite Bool.false_ne_true
  case isFalse =>
    rw [List.mem_filter, Bool.and_eq_true, hread]
    exact ⟨fun h => h.2.2, fun h => ⟨hmem, rfl, h⟩⟩

/-- **The first rule finds the racing reads exactly if the earliest write
decides for all**, whatever the query says. -/
theorem firstReadLaw_iff (sep : Span → Span → Bool) (source : SourceId) (sites : List AccessSite) :
    FirstReadLaw sep source sites ↔ EarliestDecides sep source sites := by
  constructor
  · intro hlaw read hmem hread w₀ hw₀ hsep w hw hbefore
    rw [← Bool.not_eq_false]
    intro hfree
    -- the read races with `w`, so it is reported, so not separated from `w₀`
    have hin := (hlaw read hmem hread).mpr ⟨w, hw, hbefore, hfree⟩
    obtain ⟨w₁, ⟨j, hj⟩, hfree₁⟩ := reportsRead_iff.mp ((mem_reportedReads hmem hread).mp hin)
    obtain ⟨i, hi⟩ := hw₀
    rw [(hi.unique hj).2, hfree₁] at hsep
    exact absurd hsep Bool.false_ne_true
  · intro hdecides read hmem hread
    rw [mem_reportedReads hmem hread, reportsRead_iff]
    constructor
    · intro ⟨w, hw, hfree⟩
      have ⟨hwmem, hbefore⟩ := hw.writeBefore
      exact ⟨w, hwmem, hbefore, hfree⟩
    · intro ⟨w, hw, hbefore, hfree⟩
      -- were the earliest write separated, so would be `w`
      obtain ⟨w₀, hw₀⟩ := exists_earliest ⟨w, hw, hbefore⟩
      refine ⟨w₀, hw₀, ?_⟩
      rw [← Bool.not_eq_true]
      intro hsep
      rw [hdecides read hmem hread w₀ hw₀ hsep w hw hbefore] at hfree
      exact absurd hfree.symm Bool.false_ne_true

/-- An access to `g[i]` in the function at byte 20. -/
def accessAt (lo : Nat) (isWrite : Bool) : AccessSite :=
  ⟨"g[i]".toList, ⟨lo, lo + 4⟩, 20, isWrite, by decide⟩

/-- `g[i] = a; GroupMemoryBarrier(); g[i] = b; x = g[i];`: the barrier is at
byte 50. -/
def secondWriteBehind : List AccessSite := [accessAt 40 true, accessAt 80 true, accessAt 94 false]

/-- A barrier at byte 50. -/
def barrierAt50 (a b : Span) : Bool := decide (a.bytes.lo < 50 ∧ 50 < b.bytes.lo)

/-- **A barrier behind the first write hides the second.** -/
theorem secondWriteBehind_missed : ¬ FirstReadLaw barrierAt50 ⟨1⟩ secondWriteBehind := by
  intro hlaw
  have hrace : Racing barrierAt50 ⟨1⟩ secondWriteBehind (accessAt 94 false) :=
    ⟨accessAt 80 true, List.mem_cons_of_mem _ (List.mem_cons_self ..), by decide, by decide⟩
  have hread : accessAt 94 false ∈ secondWriteBehind :=
    List.mem_cons_of_mem _ (List.mem_cons_of_mem _ (List.mem_cons_self ..))
  have hin := (mem_reportedReads hread rfl).mp ((hlaw _ hread rfl).mpr hrace)
  exact absurd hin (by decide)

/-! ## §4. `groupshared-write-then-no-barrier-read`. -/

/-- `GsAccess`; `array` is the text of the receiver, by which it was collected. -/
structure GsAccess where
  array : Text
  bytes : ByteSpan
  isWrite : Bool
  deriving Repr, DecidableEq

/-- The accessed bytes of the file `source`. -/
def GsAccess.span (a : GsAccess) (source : SourceId) : Span := ⟨source, a.bytes⟩

mutual
/-- `collect_gs_accesses`. -/
def collectGsAccesses (names : List Text) (bytes : Text) (parentIsLhs : Bool) :
    Node → List GsAccess
  | .mk i cs =>
      let receiver := optionText (Node.mk i cs).namedChildren.head? bytes
      (if i.kind = .subscriptExpression ∧ receiver ∈ names then
        [⟨receiver, ⟨i.lo, i.hi⟩, parentIsLhs⟩] else [])
        ++ (if i.kind = .assignmentExpression then
              -- the first child is the left side
              match cs with
              | [] => []
              | left :: rest =>
                  collectGsAccesses names bytes true left ++ collectGsAccessesAll names bytes rest
            else collectGsAccessesAll names bytes cs)

def collectGsAccessesAll (names : List Text) (bytes : Text) : List Node → List GsAccess
  | [] => []
  | n :: ns => collectGsAccesses names bytes false n ++ collectGsAccessesAll names bytes ns
end

/-- The loop over `r` for the write at `w`: the first read behind it that is
not separated from it. -/
def reportedBy (sep : Span → Span → Bool) (source : SourceId) (accesses : List GsAccess) (w : Nat) :
    Option Nat :=
  match accesses[w]? with
  | none => none
  | some write =>
      if write.isWrite then
        ((accesses.drop (w + 1)).findIdx? fun r =>
          !r.isWrite && !sep (write.span source) (r.span source)).map (w + 1 + ·)
      else none

/-- The positions of the reported reads, in the order of the reports. -/
def pairReports (sep : Span → Span → Bool) (source : SourceId) (accesses : List GsAccess) :
    List Nat := (List.range accesses.length).filterMap (reportedBy sep source accesses)

/-- The diagnostic at a read. -/
def readAfterWrite (source : SourceId) (read : GsAccess) : Diagnostic where
  code := "groupshared-write-then-no-barrier-read".toList
  severity := .warning
  primarySpan := read.span source
  message := "groupshared read after a cross-thread write with no ".toList
    ++ "GroupMemoryBarrier* between them -- the reader may observe ".toList
    ++ "stale or partially-updated values; UB per the HLSL memory ".toList
    ++ "model".toList
  fixes := [{
    description := "insert `GroupMemoryBarrierWithGroupSync()` between the ".toList
      ++ "writer and the reader; without it the LDS visibility is ".toList
      ++ "implementation-defined".toList
    machineApplicable := false
    edits := [] }]

/-- `GroupsharedWriteThenNoBarrierRead::on_cfg`, for the names that
`collect_gs_names` finds. -/
def pairOnCfg (sep : Span → Span → Bool) (source : SourceId) (names : List Text) (root : Node)
    (bytes : Text) : List Diagnostic :=
  let accesses := collectGsAccesses names bytes false root
  ((pairReports sep source accesses).filterMap fun r => accesses[r]?).map (readAfterWrite source)

/-! ## §5. One report per racing read. -/

section Pairs

variable (sep : Span → Span → Bool) (source : SourceId) (accesses : List GsAccess)

/-- The write at `w` and a read behind it at `r`, not separated. -/
structure Unseparated (w r : Nat) : Prop where
  behind : w < r
  pair : ∃ write read, accesses[w]? = some write ∧ accesses[r]? = some read
    ∧ write.isWrite = true ∧ read.isWrite = false
    ∧ sep (write.span source) (read.span source) = false

/-- The read at `r` is the first that is not separated from the write at `w`. -/
structure FirstUnseparated (w r : Nat) : Prop where
  unseparated : Unseparated sep source accesses w r
  first : ∀ r' < r, ¬ Unseparated sep source accesses w r'

/-- Some earlier write to the same array is not separated from the read at
`r`. -/
def RacingAt (r : Nat) : Prop :=
  ∃ w, Unseparated sep source accesses w r
    ∧ (accesses[w]?).map GsAccess.array = (accesses[r]?).map GsAccess.array

/-- Racing reads are reported once, and no others. -/
def PairLaw : Prop :=
  ∀ r read, accesses[r]? = some read → read.isWrite = false →
    (RacingAt sep source accesses r → (pairReports sep source accesses).count r = 1)
    ∧ (¬ RacingAt sep source accesses r → (pairReports sep source accesses).count r = 0)

/-- Writes and racing reads correspond: each racing read is the first
unseparated one behind one write, and each write with unseparated reads behind
it has a racing one as the first. -/
structure OneWriteEach : Prop where
  racing : ∀ w r, FirstUnseparated sep source accesses w r → RacingAt sep source accesses r
  found : ∀ r, RacingAt sep source accesses r → ∃ w, FirstUnseparated sep source accesses w r
  once : ∀ w w' r, FirstUnseparated sep source accesses w r →
    FirstUnseparated sep source accesses w' r → w = w'

variable {sep source accesses}

/-- Where a search by index ends. -/
theorem findIdx?_iff {α : Type} {p : α → Bool} {l : List α} {k : Nat} :
    l.findIdx? p = some k ↔ (∃ a, l[k]? = some a ∧ p a = true)
      ∧ ∀ j < k, ¬ ∃ a, l[j]? = some a ∧ p a = true := by
  rw [List.findIdx?_eq_some_iff_getElem]
  constructor
  · intro ⟨hk, hp, hbefore⟩
    -- the places are in range on both sides
    refine ⟨⟨l[k], List.getElem?_eq_getElem hk, hp⟩, fun j hj ⟨a, ha, hpa⟩ => hbefore j hj ?_⟩
    obtain ⟨_, rfl⟩ := List.getElem?_eq_some_iff.mp ha
    exact hpa
  · intro ⟨⟨a, ha, hp⟩, hbefore⟩
    obtain ⟨hk, rfl⟩ := List.getElem?_eq_some_iff.mp ha
    exact ⟨hk, hp, fun j hj hpj =>
      hbefore j hj ⟨_, List.getElem?_eq_getElem (Nat.lt_trans hj hk), hpj⟩⟩

/-- **What the inner loop reports.** -/
theorem reportedBy_eq_some {w r : Nat} :
    reportedBy sep source accesses w = some r ↔ FirstUnseparated sep source accesses w r := by
  unfold reportedBy
  split
  next hnone =>
    -- no access at `w`
    refine ⟨by rintro ⟨⟩, fun h => ?_⟩
    obtain ⟨-, write, read, hw, -⟩ := h.unseparated
    rw [hnone] at hw
    cases hw
  next write hwrite =>
    split
    next hisWrite =>
      -- what the inner loop tests at its `k`-th turn
      have hstep : ∀ k, (∃ read, (accesses.drop (w + 1))[k]? = some read
          ∧ (!read.isWrite && !sep (write.span source) (read.span source)) = true)
          ↔ Unseparated sep source accesses w (w + 1 + k) := by
        intro k
        rw [List.getElem?_drop]
        constructor
        · rintro ⟨read, hget, hp⟩
          rw [Bool.and_eq_true, Bool.not_eq_true', Bool.not_eq_true'] at hp
          exact ⟨by omega, write, read, hwrite, hget, hisWrite, hp.1, hp.2⟩
        · rintro ⟨_, write', read, hw, hget, _, hread, hsep⟩
          rw [hwrite, Option.some.injEq] at hw
          subst hw
          exact ⟨read, hget, by rw [hread, hsep]; rfl⟩
      rw [Option.map_eq_some_iff]
      constructor
      · rintro ⟨k, hk, hr⟩
        obtain ⟨hat, hbefore⟩ := findIdx?_iff.mp hk
        rw [← hr]
        refine ⟨(hstep k).mp hat, fun r' hr' hun => ?_⟩
        have hlt := hun.behind
        refine hbefore (r' - (w + 1)) (by omega) ((hstep _).mpr ?_)
        rw [Nat.add_sub_of_le (by omega)]
        exact hun
      · rintro ⟨hun, hfirst⟩
        have hlt := hun.behind
        refine ⟨r - (w + 1), findIdx?_iff.mpr ⟨(hstep _).mpr ?_, fun j hj hat => ?_⟩, by omega⟩
        · rw [Nat.add_sub_of_le (by omega)]
          exact hun
        · exact hfirst (w + 1 + j) (by omega) ((hstep j).mp hat)
    next hisWrite =>
      refine ⟨by rintro ⟨⟩, fun h => ?_⟩
      obtain ⟨-, write', read, hw, -, hw', -⟩ := h.unseparated
      rw [hwrite, Option.some.injEq] at hw
      rw [hw] at hisWrite
      exact absurd hw' hisWrite

/-- A write with something behind it is in the list. -/
theorem FirstUnseparated.lt_length {w r : Nat} (h : FirstUnseparated sep source accesses w r) :
    w < accesses.length := by
  obtain ⟨-, write, read, hw, -⟩ := h.unseparated
  exact (List.getElem?_eq_some_iff.mp hw).1

/-- A read is reported once for every write it is the first behind. -/
theorem count_pairReports {r : Nat} : (pairReports sep source accesses).count r
    = (List.range accesses.length).countP fun w => reportedBy sep source accesses w == some r := by
  unfold pairReports
  exact List.count_filterMap

theorem count_eq_zero_iff {r : Nat} : (pairReports sep source accesses).count r = 0
    ↔ ∀ w, ¬ FirstUnseparated sep source accesses w r := by
  rw [count_pairReports, List.countP_eq_zero]
  constructor
  · intro h w hw
    -- a write with a read behind it is one that the outer loop comes to
    refine h w (List.mem_range.mpr hw.lt_length) ?_
    rw [beq_iff_eq]
    exact reportedBy_eq_some.mpr hw
  · intro h w _ hw
    exact h w (reportedBy_eq_some.mp (beq_iff_eq.mp hw))

/-- In a list without duplicates, one element satisfies `p` exactly if the
count is 1. -/
theorem countP_eq_one_iff {α : Type} {p : α → Bool} {l : List α} (hnodup : l.Nodup) :
    l.countP p = 1 ↔ ∃ a ∈ l, p a = true ∧ ∀ b ∈ l, p b = true → b = a := by
  rw [List.countP_eq_length_filter, List.length_eq_one_iff]
  constructor
  · intro ⟨a, ha⟩
    -- what is left by the filter is `[a]`
    have hmem : ∀ b, b ∈ l.filter p ↔ b = a := by
      intro b
      rw [ha, List.mem_singleton]
    have ⟨hal, hpa⟩ := List.mem_filter.mp ((hmem a).mpr rfl)
    exact ⟨a, hal, hpa, fun b hb hpb => (hmem b).mp (List.mem_filter.mpr ⟨hb, hpb⟩)⟩
  · intro ⟨a, hal, hpa, honly⟩
    refine ⟨a, List.perm_singleton.mp ?_⟩
    refine (List.perm_ext_iff_of_nodup (hnodup.filter p) (List.nodup_singleton a)).mpr fun b => ?_
    rw [List.mem_filter, List.mem_singleton]
    constructor
    · exact fun ⟨hb, hpb⟩ => honly b hb hpb
    · rintro rfl
      exact ⟨hal, hpa⟩

theorem count_eq_one_iff {r : Nat} : (pairReports sep source accesses).count r = 1
    ↔ ∃ w, FirstUnseparated sep source accesses w r
      ∧ ∀ w', FirstUnseparated sep source accesses w' r → w' = w := by
  rw [count_pairReports, countP_eq_one_iff List.nodup_range]
  constructor
  · intro ⟨w, _, hw, honly⟩
    refine ⟨w, reportedBy_eq_some.mp (beq_iff_eq.mp hw), fun w' hw' => ?_⟩
    refine honly w' (List.mem_range.mpr hw'.lt_length) ?_
    rw [beq_iff_eq]
    exact reportedBy_eq_some.mpr hw'
  · intro ⟨w, hw, honly⟩
    refine ⟨w, List.mem_range.mpr hw.lt_length, ?_, fun w' _ hw' => ?_⟩
    · rw [beq_iff_eq]
      exact reportedBy_eq_some.mpr hw
    · exact honly w' (reportedBy_eq_some.mp (beq_iff_eq.mp hw'))

/-- **Every racing read is reported once, and no other read, exactly if writes
and racing reads correspond.** -/
theorem pairLaw_iff (sep : Span → Span → Bool) (source : SourceId) (accesses : List GsAccess) :
    PairLaw sep source accesses ↔ OneWriteEach sep source accesses := by
  -- the law is about reads; both sides are false of anything else
  have hread : ∀ w r, Unseparated sep source accesses w r →
      ∃ read, accesses[r]? = some read ∧ read.isWrite = false := by
    intro w r h
    obtain ⟨-, write, read, -, hr, -, hisRead, -⟩ := h
    exact ⟨read, hr, hisRead⟩
  constructor
  · intro hlaw
    -- a reported read is racing, or its count would be 0
    have hracing : ∀ w r, FirstUnseparated sep source accesses w r →
        RacingAt sep source accesses r := by
      intro w r h
      obtain ⟨read, hr, hisRead⟩ := hread w r h.unseparated
      by_contra hnot
      exact count_eq_zero_iff.mp ((hlaw r read hr hisRead).2 hnot) w h
    -- a racing read has the count 1
    have hcount : ∀ r, RacingAt sep source accesses r →
        (pairReports sep source accesses).count r = 1 := by
      intro r hrace
      have ⟨w, hun, _⟩ := hrace
      obtain ⟨read, hr, hisRead⟩ := hread w r hun
      exact (hlaw r read hr hisRead).1 hrace
    refine ⟨hracing, fun r hrace => ?_, fun w w' r h h' => ?_⟩
    · obtain ⟨w, hw, -⟩ := count_eq_one_iff.mp (hcount r hrace)
      exact ⟨w, hw⟩
    · obtain ⟨w₀, -, honly⟩ := count_eq_one_iff.mp (hcount r (hracing w r h))
      rw [honly w h, honly w' h']
  · intro ⟨hracing, hfound, honce⟩ r read _ _
    constructor
    · intro hrace
      obtain ⟨w, hw⟩ := hfound r hrace
      exact count_eq_one_iff.mpr ⟨w, hw, fun w' hw' => honce w' w r hw' hw⟩
    · intro hnot
      exact count_eq_zero_iff.mpr fun w hw => hnot (hracing w r hw)

end Pairs

/-- An access to `g[…]`. -/
def gsAccessAt (lo : Nat) (isWrite : Bool) : GsAccess := ⟨"g".toList, ⟨lo, lo + 4⟩, isWrite⟩

/-- `g[i] = v; x = g[j]; y = g[k];` -/
def twoReads : List GsAccess := [gsAccessAt 40 true, gsAccessAt 54 false, gsAccessAt 64 false]

/-- **The second of two racing reads is not reported.** -/
theorem twoReads_missed : ¬ PairLaw (fun _ _ => false) ⟨1⟩ twoReads := by
  intro hlaw
  have hrace : RacingAt (fun _ _ => false) ⟨1⟩ twoReads 2 :=
    ⟨0, ⟨by omega, gsAccessAt 40 true, gsAccessAt 64 false, rfl, rfl, rfl, rfl, rfl⟩, rfl⟩
  -- the loop stops at the first of the two
  have hcount := (hlaw 2 (gsAccessAt 64 false) rfl rfl).1 hrace
  exact absurd hcount (by decide)

end ShaderClippy.Rules.GroupsharedRace
