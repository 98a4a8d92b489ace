/-
  ShaderClippy.Rules.DeadStore

  **WHICH WRITES TO TARGETS ARE REPORTED** (`dead_store_sv_target.cpp`)

  The rule gathers the names of the fields that stand in front of an `SV_Target`
  and then goes over the bytes of the file, once for each of them. It counts
  braces, keeps at every depth the last `.field =`, and reports that one when it
  meets another one at the same depth.

  Offsets and depths are numbers of no fixed size: a file is too short for its
  braces to overflow an `int`. How it reads the file is said by a grammar (`Cut`):
  up to the `;` behind a write it looks at nothing. A write is reported exactly if another one stands
  behind it in the same braces, with no `if` in between that is in no inner
  braces (`mem_onTree_iff`).
-/
import ShaderClippy.Diagnostic
import ShaderClippy.Lib.BlockSlots
import ShaderClippy.Rules.GroupsharedBudget

namespace ShaderClippy.Rules.DeadStore

open BlockSlots (Mark Consecutive handed next output)
open GroupsharedBudget (isIdChar)

/-! ## §1. The rule. -/

def kRuleId : Text := "dead-store-sv-target".toList

def kSvTarget : Text := "SV_Target".toList

def isBlank (c : Char) : Bool := c == ' ' || c == '\t'

/-- `token_ending_at`: the identifier at the end of a text. -/
def tokenEndingAt (before : Text) : Text := before.rtakeWhile isIdChar

/-- The name in front of the last colon of what stands before an `SV_Target`. -/
def fieldName (before : Text) : Text :=
  tokenEndingAt ((before.rdropWhile (· != ':')).dropLast.rdropWhile isBlank)

def collectFrom (before : Text) : Text → List Text
  | [] => []
  | c :: s =>
      (if kSvTarget.isPrefixOf (c :: s) ∧ fieldName before ≠ [] then [fieldName before] else [])
        ++ collectFrom (before ++ [c]) s

/-- `collect_sv_target_fields`. -/
def collectSvTargetFields (bytes : Text) : List Text := collectFrom [] bytes

/-- The state of the scan for a field: the depth, the two arrays over it, and the
ranges that were reported. -/
structure Scan where
  depth : Nat
  lastAssign : List (Nat × Nat)
  lastValid : List Bool
  out : List (Nat × Nat)
  deriving Repr

namespace Scan

def start : Scan := ⟨0, List.replicate 64 (0, 0), List.replicate 64 false, []⟩

/-- `resize`, to a size that is no less. -/
def resize {α : Type} (size : Nat) (a : α) (l : List α) : List α := l ++ List.replicate (size - l.length) a

def invalidate (σ : Scan) : Scan :=
  if σ.depth < σ.lastValid.length then { σ with lastValid := σ.lastValid.set σ.depth false } else σ

/-- At a `{`. -/
def openBrace (σ : Scan) : Scan :=
  let depth := σ.depth + 1
  let lastAssign := if depth ≥ σ.lastAssign.length then resize (depth + 16) (0, 0) σ.lastAssign
    else σ.lastAssign
  let lastValid := if depth ≥ σ.lastAssign.length then resize lastAssign.length false σ.lastValid
    else σ.lastValid
  { σ with depth := depth, lastAssign := lastAssign, lastValid := lastValid.set depth false }

/-- At a `}`. -/
def closeBrace (σ : Scan) : Scan := { σ.invalidate with depth := σ.depth - 1 }

/-- At a write. -/
def assign (σ : Scan) (range : Nat × Nat) : Scan :=
  let out := if σ.depth < σ.lastValid.length ∧ σ.lastValid.getD σ.depth false = true then
      σ.out ++ [σ.lastAssign.getD σ.depth (0, 0)]
    else σ.out
  if σ.depth < σ.lastValid.length then
    { σ with lastAssign := σ.lastAssign.set σ.depth range, lastValid := σ.lastValid.set σ.depth true, out := out }
  else { σ with out := out }

end Scan

/-- What stands behind the `i` of an `if`. -/
def startsIf : Text → Bool
  | 'f' :: c :: _ => !isIdChar c
  | _ => false

/-- The loop over the bytes, from byte `i` on. -/
def scanLoop (field : Text) : Nat → Nat → Text → Scan → Scan
  | 0, _, _, σ => σ
  | _ + 1, _, [], σ => σ
  | fuel + 1, i, c :: s, σ =>
      if c = '{' then scanLoop field fuel (i + 1) s σ.openBrace
      else if c = '}' then scanLoop field fuel (i + 1) s σ.closeBrace
      else if c ≠ '.' then
        scanLoop field fuel (i + 1) s (if c = 'i' ∧ startsIf s = true then σ.invalidate else σ)
      else
        let name := s.takeWhile isIdChar
        let behind := s.dropWhile isIdChar
        let j := i + 1 + name.length
        if name ≠ field then scanLoop field fuel j behind σ
        else
          let tail := behind.dropWhile isBlank
          if tail.head? ≠ some '=' ∨ tail.tail.head? = some '=' then scanLoop field fuel j behind σ
          else
            let statement := tail.takeWhile (· != ';')
            match tail.dropWhile (· != ';') with
            | [] => σ
            | _ :: rest =>
                let stmtEnd := j + (behind.takeWhile isBlank).length + statement.length + 1
                scanLoop field fuel stmtEnd rest (σ.assign (i, stmtEnd))

def message (field : Text) : Text :=
  "write to `.".toList ++ field
    ++ "` (an `SV_Target*` field) is overwritten by a later write at the same scope before the function returns -- the first write is dead".toList

def diagnosticAt (source : SourceId) (field : Text) (range : Nat × Nat) : Diagnostic where
  code := kRuleId
  severity := .warning
  primarySpan := ⟨source, ⟨range.1, range.2⟩⟩
  message := message field
  fixes := []

/-- `on_tree`. -/
def onTree (source : SourceId) (bytes : Text) : List Diagnostic :=
  (collectSvTargetFields bytes).flatMap fun field =>
    (scanLoop field bytes.length 0 bytes .start).out.map (diagnosticAt source field)

/-! ## §2. How the text is read. -/

/-- Identifier characters, as many as there are. -/
def Word (name rest : Text) : Prop :=
  (∀ c ∈ name, isIdChar c = true) ∧ ∀ c, rest.head? = some c → isIdChar c = false

/-- Blanks, and a `=` that is not the first of two. -/
def Equals (s : Text) : Prop :=
  ∃ blanks value, s = blanks ++ '=' :: value ∧ (∀ c ∈ blanks, isBlank c = true) ∧ value.head? ≠ some '='

inductive Piece where
  | opening
  | closing
  | branch
  | write (text : Text)
  | other (text : Text)
  deriving DecidableEq, Repr

def Piece.text : Piece → Text
  | .opening => ['{']
  | .closing => ['}']
  | .branch => ['i']
  | .write text => text
  | .other text => text

/-- **The text, as the scan for a field takes it apart.** -/
inductive Cut (field : Text) : Text → List Piece → Prop
  | nil : Cut field [] []
  | opening {s : Text} {ps : List Piece} : Cut field s ps → Cut field ('{' :: s) (.opening :: ps)
  | closing {s : Text} {ps : List Piece} : Cut field s ps → Cut field ('}' :: s) (.closing :: ps)
  | branch {s : Text} {ps : List Piece} : startsIf s = true → Cut field s ps → Cut field ('i' :: s) (.branch :: ps)
  | other {c : Char} {s : Text} {ps : List Piece} : c ≠ '{' → c ≠ '}' → c ≠ '.' → ¬ (c = 'i' ∧ startsIf s = true) →
      Cut field s ps → Cut field (c :: s) (.other [c] :: ps)
  -- another name, or no write
  | member {name s : Text} {ps : List Piece} : Word name s → ¬ (name = field ∧ Equals s) →
      Cut field s ps → Cut field ('.' :: (name ++ s)) (.other ('.' :: name) :: ps)
  -- a write, up to its semicolon
  | write {blanks value s : Text} {ps : List Piece} : (∀ c ∈ field, isIdChar c = true) →
      (∀ c ∈ blanks, isBlank c = true) → value.head? ≠ some '=' → ';' ∉ value → Cut field s ps →
      Cut field ('.' :: (field ++ (blanks ++ '=' :: (value ++ ';' :: s))))
        (.write ('.' :: (field ++ (blanks ++ '=' :: (value ++ [';'])))) :: ps)
  -- behind a write without one nothing is read
  | unfinished {blanks value : Text} : (∀ c ∈ field, isIdChar c = true) →
      (∀ c ∈ blanks, isBlank c = true) → value.head? ≠ some '=' → ';' ∉ value →
      Cut field ('.' :: (field ++ (blanks ++ '=' :: value))) [.other ('.' :: (field ++ (blanks ++ '=' :: value)))]

/-- What the pieces mean to the scan; a write puts its range. -/
def marks : Nat → List Piece → List (Mark (Nat × Nat))
  | _, [] => []
  | i, p :: ps =>
      (match p with
        | .opening => .opening
        | .closing => .closing
        | .branch => .clear
        | .write text => .put (i, i + text.length)
        | .other _ => .silent) :: marks (i + p.text.length) ps

/-! ## §3. The arrays hold a slot for each open brace. -/

namespace Scan

/-- The entries of the two arrays. -/
def cells (σ : Scan) : List (Option (Nat × Nat)) :=
  List.zipWith (fun valid range => if valid then some range else none) σ.lastValid σ.lastAssign

/-- The entries of the open braces, innermost first. -/
def slots (σ : Scan) : List (Option (Nat × Nat)) := (σ.cells.take (σ.depth + 1)).reverse

/-- The arrays have an entry for the depth. -/
structure Sized (σ : Scan) : Prop where
  same : σ.lastAssign.length = σ.lastValid.length
  depth_lt : σ.depth < σ.lastValid.length

/-- What the scan does at a mark. -/
def step (σ : Scan) : Mark (Nat × Nat) → Scan
  | .opening => σ.openBrace
  | .closing => σ.closeBrace
  | .clear => σ.invalidate
  | .put range => σ.assign range
  | .silent => σ

theorem zipWith_set {α β γ : Type} (f : α → β → γ) (a : α) (b : β) (l : List α) (m : List β) (n : Nat) :
    List.zipWith f (l.set n a) (m.set n b) = (List.zipWith f l m).set n (f a b) := by
  induction l generalizing m n with
  | nil => rfl
  | cons x l ih =>
      cases m with
      | nil => cases n <;> rfl
      | cons y m =>
          cases n with
          | zero => rfl
          | succ n => exact congrArg (f x y :: ·) (ih m n)

/-- Where the left entry alone says what the result is. -/
theorem zipWith_set_left {α β γ : Type} {f : α → β → γ} {a : α} {c : γ} (hf : ∀ b, f a b = c) (l : List α)
    (m : List β) (n : Nat) : List.zipWith f (l.set n a) m = (List.zipWith f l m).set n c := by
  induction l generalizing m n with
  | nil => rfl
  | cons x l ih =>
      cases m with
      | nil => cases n <;> rfl
      | cons y m =>
          cases n with
          | zero => exact congrArg (· :: List.zipWith f l m) (hf y)
          | succ n => exact congrArg (f x y :: ·) (ih m n)

variable {σ : Scan}

theorem length_cells (h : σ.Sized) : σ.cells.length = σ.lastValid.length := by
  rw [cells, List.length_zipWith, h.same, Nat.min_self]

/-- The innermost entry, and the others. -/
theorem slots_eq (h : σ.Sized) :
    σ.slots = (if σ.lastValid.getD σ.depth false = true then some (σ.lastAssign.getD σ.depth (0, 0)) else none)
      :: (σ.cells.take σ.depth).reverse := by
  have hassign : σ.depth < σ.lastAssign.length := h.same ▸ h.depth_lt
  have hcell : σ.cells[σ.depth]? = some (if σ.lastValid.getD σ.depth false = true
      then some (σ.lastAssign.getD σ.depth (0, 0)) else none) := by
    rw [cells, List.getElem?_zipWith, List.getElem?_eq_getElem h.depth_lt, List.getElem?_eq_getElem hassign,
      List.getD_eq_getElem _ _ h.depth_lt, List.getD_eq_getElem _ _ hassign]
  rw [slots, List.take_add_one, hcell, Option.toList_some, List.reverse_append]
  rfl

/-- Other contents of the innermost entry. -/
theorem slots_set (h : σ.Sized) {τ : Scan} {o : Option (Nat × Nat)} (hdepth : τ.depth = σ.depth)
    (hcells : τ.cells = σ.cells.set σ.depth o) : τ.slots = o :: (σ.cells.take σ.depth).reverse := by
  have hlt : σ.depth < σ.cells.length := (length_cells h).symm ▸ h.depth_lt
  rw [slots, hdepth, hcells, List.take_add_one, List.getElem?_set_self hlt, List.take_set_of_le (Nat.le_refl _)]
  simp

theorem tail_slots (h : σ.Sized) : σ.slots.tail = (σ.cells.take σ.depth).reverse := by
  rw [slots_eq h, List.tail_cons]

/-- An entry is invalidated. -/
theorem invalidate_spec (h : σ.Sized) :
    σ.invalidate.Sized ∧ σ.invalidate.cells = σ.cells.set σ.depth none
      ∧ σ.invalidate.depth = σ.depth ∧ σ.invalidate.out = σ.out := by
  unfold invalidate
  rw [if_pos h.depth_lt]
  refine ⟨⟨?_, ?_⟩, zipWith_set_left (fun _ => rfl) _ _ _, rfl, rfl⟩
  · rw [List.length_set]
    exact h.same
  · rw [List.length_set]
    exact h.depth_lt

theorem step_clear (h : σ.Sized) : σ.invalidate.Sized ∧ σ.invalidate.slots = next .clear σ.slots := by
  obtain ⟨hsized, hcells, hdepth, -⟩ := invalidate_spec h
  refine ⟨hsized, ?_⟩
  rw [slots_set h hdepth hcells, next, tail_slots h]

theorem step_closing (h : σ.Sized) : σ.closeBrace.Sized ∧ σ.closeBrace.slots = next .closing σ.slots := by
  obtain ⟨hsized, hcells, hdepth, -⟩ := invalidate_spec h
  refine ⟨⟨hsized.same, Nat.lt_of_le_of_lt (Nat.sub_le _ _) (hdepth ▸ hsized.depth_lt)⟩, ?_⟩
  have hslots : σ.closeBrace.slots = ((σ.cells.set σ.depth none).take (σ.depth - 1 + 1)).reverse := by
    rw [← hcells]
    rfl
  rw [hslots, slots_eq h]
  cases hd : σ.depth with
  | zero =>
      -- nothing is open: the entry of the file itself is emptied
      have hpos : 0 < σ.cells.length := (length_cells h).symm ▸ Nat.lt_of_le_of_lt (Nat.zero_le _) h.depth_lt
      cases hc : σ.cells with
      | nil =>
          rw [hc] at hpos
          exact absurd hpos (Nat.lt_irrefl 0)
      | cons o cells => rfl
  | succ d =>
      -- what was around the block is innermost now
      have hlt : d + 1 < σ.cells.length := by
        rw [length_cells h, ← hd]
        exact h.depth_lt
      rw [Nat.add_sub_cancel, List.take_set_of_le (Nat.le_refl _)]
      have hne : (σ.cells.take (d + 1)).reverse ≠ [] := by
        rw [ne_eq, List.reverse_eq_nil_iff, List.take_eq_nil_iff]
        rintro (hzero | hnil)
        · exact Nat.succ_ne_zero d hzero
        · rw [hnil] at hlt
          exact absurd hlt (Nat.not_lt_zero _)
      obtain ⟨o, around, hcons⟩ := List.exists_cons_of_ne_nil hne
      rw [hcons]
      rfl

theorem length_resize {α : Type} {size : Nat} {a : α} {l : List α} (h : l.length ≤ size) :
    (resize size a l).length = size := by
  rw [resize, List.length_append, List.length_replicate, Nat.add_sub_of_le h]

/-- The entries behind a `{`: as they were, with new ones behind them where the
arrays were too short, and the one of the new depth emptied. -/
theorem openBrace_spec (h : σ.Sized) :
    σ.openBrace.Sized ∧ ∃ new, σ.openBrace.cells = (σ.cells ++ new).set (σ.depth + 1) none := by
  have hdepth := h.depth_lt
  have hsame := h.same
  unfold openBrace
  by_cases hge : σ.depth + 1 ≥ σ.lastAssign.length
  · have hassign : (resize (σ.depth + 1 + 16) (0, 0) σ.lastAssign).length = σ.depth + 1 + 16 :=
      length_resize (by omega)
    have hvalid : (resize (σ.depth + 1 + 16) false σ.lastValid).length = σ.depth + 1 + 16 :=
      length_resize (by omega)
    simp only [if_pos hge, hassign]
    refine ⟨⟨?_, ?_⟩, List.replicate (σ.depth + 1 + 16 - σ.lastValid.length) none, ?_⟩
    · rw [List.length_set, hassign, hvalid]
    · show σ.depth + 1 < _
      rw [List.length_set, hvalid]
      omega
    · refine (zipWith_set_left (fun _ => rfl) _ _ _).trans (congrArg (List.set · _ _) ?_)
      rw [resize, resize, hsame, List.zipWith_append hsame.symm, List.zipWith_replicate, Nat.min_self]
      rfl
  · simp only [if_neg hge]
    refine ⟨⟨?_, ?_⟩, [], ?_⟩
    · rw [List.length_set]
      exact hsame
    · show σ.depth + 1 < _
      rw [List.length_set]
      omega
    · rw [List.append_nil]
      exact zipWith_set_left (fun _ => rfl) _ _ _

theorem step_opening (h : σ.Sized) : σ.openBrace.Sized ∧ σ.openBrace.slots = next .opening σ.slots := by
  obtain ⟨hsized, new, hcells⟩ := openBrace_spec h
  refine ⟨hsized, ?_⟩
  have hlen : σ.depth + 1 ≤ σ.cells.length := by
    rw [length_cells h]
    exact h.depth_lt
  have hlt : σ.depth + 1 < (σ.cells ++ new).length := by
    have hcellsLen := length_cells hsized
    rw [hcells, List.length_set] at hcellsLen
    rw [hcellsLen]
    exact hsized.depth_lt
  have hslots : σ.openBrace.slots = (σ.openBrace.cells.take (σ.depth + 1 + 1)).reverse := rfl
  rw [hslots, hcells, List.take_add_one, List.getElem?_set_self hlt, List.take_set_of_le (Nat.le_refl _),
    List.take_append_of_le_length hlen, List.reverse_append]
  rfl

theorem step_put (h : σ.Sized) (range : Nat × Nat) :
    (σ.assign range).Sized ∧ (σ.assign range).slots = next (.put range) σ.slots
      ∧ (σ.assign range).out = σ.out ++ output (.put range) σ.slots := by
  have hout : (if σ.depth < σ.lastValid.length ∧ σ.lastValid.getD σ.depth false = true then
      σ.out ++ [σ.lastAssign.getD σ.depth (0, 0)] else σ.out) = σ.out ++ output (.put range) σ.slots := by
    rw [slots_eq h]
    by_cases hvalid : σ.lastValid.getD σ.depth false = true
    · rw [if_pos ⟨h.depth_lt, hvalid⟩, if_pos hvalid]
      rfl
    · rw [if_neg fun hboth => hvalid hboth.2, if_neg hvalid]
      exact (List.append_nil _).symm
  unfold assign
  rw [if_pos h.depth_lt, hout]
  refine ⟨⟨?_, ?_⟩, ?_, rfl⟩
  · rw [List.length_set, List.length_set]
    exact h.same
  · rw [List.length_set]
    exact h.depth_lt
  · show slots _ = some range :: σ.slots.tail
    rw [tail_slots h]
    exact slots_set h rfl (zipWith_set _ _ _ _ _ _)

/-- **A step on the arrays is one on the slots.** -/
theorem step_spec (h : σ.Sized) (m : Mark (Nat × Nat)) :
    (σ.step m).Sized ∧ (σ.step m).slots = next m σ.slots ∧ (σ.step m).out = σ.out ++ output m σ.slots := by
  have hout : (σ.invalidate).out = σ.out := (invalidate_spec h).2.2.2
  cases m with
  | opening =>
      obtain ⟨hsized, hslots⟩ := step_opening h
      exact ⟨hsized, hslots, (List.append_nil _).symm⟩
  | closing =>
      obtain ⟨hsized, hslots⟩ := step_closing h
      exact ⟨hsized, hslots, hout.trans (List.append_nil _).symm⟩
  | clear =>
      obtain ⟨hsized, hslots⟩ := step_clear h
      exact ⟨hsized, hslots, hout.trans (List.append_nil _).symm⟩
  | put range => exact step_put h range
  | silent => exact ⟨h, rfl, (List.append_nil _).symm⟩

/-- What a run of steps reports. -/
theorem foldl_step (h : σ.Sized) (ms : List (Mark (Nat × Nat))) :
    (ms.foldl step σ).out = σ.out ++ handed σ.slots ms := by
  induction ms generalizing σ with
  | nil => exact (List.append_nil _).symm
  | cons m ms ih =>
      obtain ⟨hsized, hslots, hout⟩ := step_spec h m
      rw [List.foldl_cons, ih hsized, hslots, hout, List.append_assoc]
      rfl

theorem sized_start : start.Sized := ⟨rfl, by decide⟩

end Scan

/-! ## §4. The scan follows the grammar. -/

theorem takeWhile_word {name rest : Text} (h : Word name rest) : (name ++ rest).takeWhile isIdChar = name := by
  rw [List.takeWhile_append_of_pos h.1]
  cases rest with
  | nil => exact List.append_nil _
  | cons c rest => rw [List.takeWhile_cons_of_neg (by rw [h.2 c rfl]; exact Bool.false_ne_true), List.append_nil]

theorem dropWhile_word {name rest : Text} (h : Word name rest) : (name ++ rest).dropWhile isIdChar = rest := by
  rw [List.dropWhile_append_of_pos h.1]
  cases rest with
  | nil => rfl
  | cons c rest => rw [List.dropWhile_cons_of_neg (by rw [h.2 c rfl]; exact Bool.false_ne_true)]

theorem blank_no_id {c : Char} (h : isBlank c = true) : isIdChar c = false := by
  rw [isBlank, Bool.or_eq_true, beq_iff_eq, beq_iff_eq] at h
  rcases h with rfl | rfl <;> rfl

/-- The name in front of a `=` ends there, or at the blanks. -/
theorem word_equals {field blanks : Text} (hfield : ∀ c ∈ field, isIdChar c = true)
    (hblanks : ∀ c ∈ blanks, isBlank c = true) (rest : Text) : Word field (blanks ++ '=' :: rest) := by
  refine ⟨hfield, ?_⟩
  intro c hc
  cases blanks with
  | nil =>
      rw [← Option.some.inj hc]
      rfl
  | cons b blanks =>
      rw [← Option.some.inj hc]
      exact blank_no_id (hblanks b List.mem_cons_self)

theorem takeWhile_blanks {blanks : Text} (h : ∀ c ∈ blanks, isBlank c = true) (rest : Text) :
    (blanks ++ '=' :: rest).takeWhile isBlank = blanks := by
  rw [List.takeWhile_append_of_pos h, List.takeWhile_cons_of_neg (by decide), List.append_nil]

theorem dropWhile_blanks {blanks : Text} (h : ∀ c ∈ blanks, isBlank c = true) (rest : Text) :
    (blanks ++ '=' :: rest).dropWhile isBlank = '=' :: rest := by
  rw [List.dropWhile_append_of_pos h, List.dropWhile_cons_of_neg (by decide)]

/-- The test for a single `=` is that of the grammar. -/
theorem equals_iff {s : Text} :
    Equals s ↔ ¬ ((s.dropWhile isBlank).head? ≠ some '=' ∨ (s.dropWhile isBlank).tail.head? = some '=') := by
  constructor
  · rintro ⟨blanks, value, rfl, hblanks, hvalue⟩
    rw [dropWhile_blanks hblanks]
    rintro (h | h)
    · exact h rfl
    · exact hvalue h
  · intro h
    obtain ⟨hhead, htail⟩ := not_or.mp h
    rw [not_not] at hhead
    cases hs : s.dropWhile isBlank with
    | nil =>
        rw [hs] at hhead
        cases hhead
    | cons c value =>
        rw [hs] at hhead htail
        cases hhead
        refine ⟨s.takeWhile isBlank, value, ?_, fun _ hc => List.mem_takeWhile_imp hc, htail⟩
        rw [← hs, List.takeWhile_append_dropWhile]

variable {field : Text}

/-- A name behind a point that is not written to. -/
theorem scanLoop_member {name s : Text} (hword : Word name s) (hno : ¬ (name = field ∧ Equals s)) (fuel i : Nat)
    (σ : Scan) : scanLoop field (fuel + 1) i ('.' :: (name ++ s)) σ
      = scanLoop field fuel (i + 1 + name.length) s σ := by
  rw [scanLoop, if_neg (by decide), if_neg (by decide), if_neg (not_not.mpr rfl)]
  simp only [takeWhile_word hword, dropWhile_word hword]
  by_cases hname : name = field
  · rw [if_neg (not_not.mpr hname), if_pos]
    by_contra htest
    exact hno ⟨hname, equals_iff.mpr htest⟩
  · rw [if_pos hname]

/-- At a write: what is left of the statement, and whether it ends. -/
theorem scanLoop_equals {blanks value : Text} (hfield : ∀ c ∈ field, isIdChar c = true)
    (hblanks : ∀ c ∈ blanks, isBlank c = true) (hvalue : value.head? ≠ some '=') (fuel i : Nat) (σ : Scan) :
    scanLoop field (fuel + 1) i ('.' :: (field ++ (blanks ++ '=' :: value))) σ
      = match value.dropWhile (· != ';') with
        | [] => σ
        | _ :: rest =>
            let stmtEnd := i + 1 + field.length + blanks.length + ((value.takeWhile (· != ';')).length + 1) + 1
            scanLoop field fuel stmtEnd rest (σ.assign (i, stmtEnd)) := by
  have hword := word_equals hfield hblanks value
  have htest := equals_iff.mp ⟨blanks, value, rfl, hblanks, hvalue⟩
  rw [scanLoop, if_neg (by decide), if_neg (by decide), if_neg (not_not.mpr rfl)]
  simp only [takeWhile_word hword, dropWhile_word hword]
  rw [if_neg (not_not.mpr rfl), if_neg htest, dropWhile_blanks hblanks, takeWhile_blanks hblanks,
    List.takeWhile_cons_of_pos (by decide), List.dropWhile_cons_of_pos (by decide), List.length_cons]

theorem exists_fuel {c : Char} {s : Text} {fuel : Nat} (h : (c :: s).length ≤ fuel) :
    ∃ n, fuel = n + 1 ∧ s.length ≤ n := by
  obtain ⟨n, rfl⟩ := Nat.exists_eq_add_one_of_ne_zero (Nat.ne_of_gt (Nat.lt_of_lt_of_le (Nat.succ_pos _) h))
  exact ⟨n, rfl, Nat.le_of_succ_le_succ h⟩

/-- **The scan passes a text piece by piece.** -/
theorem scan_cut {s : Text} {ps : List Piece} (h : Cut field s ps) :
    ∀ (fuel i : Nat) (σ : Scan), s.length ≤ fuel → scanLoop field fuel i s σ = (marks i ps).foldl Scan.step σ := by
  induction h with
  | nil =>
      intro fuel i σ _
      cases fuel <;> rfl
  | opening _ ih =>
      intro fuel i σ hfuel
      obtain ⟨fuel, rfl, hle⟩ := exists_fuel hfuel
      rw [scanLoop, if_pos rfl, ih _ _ _ hle]
      rfl
  | closing _ ih =>
      intro fuel i σ hfuel
      obtain ⟨fuel, rfl, hle⟩ := exists_fuel hfuel
      rw [scanLoop, if_neg (by decide), if_pos rfl, ih _ _ _ hle]
      rfl
  | branch hif _ ih =>
      intro fuel i σ hfuel
      obtain ⟨fuel, rfl, hle⟩ := exists_fuel hfuel
      rw [scanLoop, if_neg (by decide), if_neg (by decide), if_pos (by decide), if_pos ⟨rfl, hif⟩,
        ih _ _ _ hle]
      rfl
  | other hopen hclose hdot hno _ ih =>
      intro fuel i σ hfuel
      obtain ⟨fuel, rfl, hle⟩ := exists_fuel hfuel
      rw [scanLoop, if_neg hopen, if_neg hclose, if_pos hdot, if_neg hno, ih _ _ _ hle]
      rfl
  | @member name s ps hword hno _ ih =>
      intro fuel i σ hfuel
      rw [List.length_cons, List.length_append] at hfuel
      obtain ⟨fuel, rfl⟩ := Nat.exists_eq_add_one_of_ne_zero (show fuel ≠ 0 by omega)
      rw [scanLoop_member hword hno, ih _ _ _ (by omega), Nat.add_right_comm i 1 name.length]
      rfl
  | @write blanks value s ps hfield hblanks hvalue hsemi _ ih =>
      intro fuel i σ hfuel
      simp only [List.length_cons, List.length_append] at hfuel
      obtain ⟨fuel, rfl⟩ := Nat.exists_eq_add_one_of_ne_zero (show fuel ≠ 0 by omega)
      have hbefore : ∀ c ∈ value, (c != ';') = true := fun c hc => bne_iff_ne.mpr fun heq => hsemi (heq ▸ hc)
      have hhead : (value ++ ';' :: s).head? ≠ some '=' := by
        cases value with
        | nil => rintro ⟨⟩
        | cons c value => exact hvalue
      have hlen : (Piece.write ('.' :: (field ++ (blanks ++ '=' :: (value ++ [';']))))).text.length
          = 1 + field.length + blanks.length + (value.length + 1) + 1 := by
        simp only [Piece.text, List.length_cons, List.length_append, List.length_nil]
        omega
      rw [scanLoop_equals hfield hblanks hhead, List.dropWhile_append_of_pos hbefore,
        List.dropWhile_cons_of_neg (by decide), List.takeWhile_append_of_pos hbefore,
        List.takeWhile_cons_of_neg (by decide), List.append_nil]
      dsimp only
      rw [ih _ _ _ (by omega), marks, List.foldl_cons, hlen]
      have hend : i + 1 + field.length + blanks.length + (value.length + 1) + 1
          = i + (1 + field.length + blanks.length + (value.length + 1) + 1) := by omega
      rw [hend, ← hlen]
      rfl
  | @unfinished blanks value hfield hblanks hvalue hsemi =>
      intro fuel i σ hfuel
      obtain ⟨fuel, rfl, hle⟩ := exists_fuel hfuel
      have hnone : value.dropWhile (· != ';') = [] :=
        List.dropWhile_eq_nil_iff.mpr fun c hc => bne_iff_ne.mpr fun heq => hsemi (heq ▸ hc)
      rw [scanLoop_equals hfield hblanks hvalue, hnone]
      rfl

/-- **Every text can be taken apart.** -/
theorem exists_cut (field : Text) : ∀ (n : Nat) (s : Text), s.length ≤ n → ∃ ps, Cut field s ps := by
  intro n
  induction n with
  | zero =>
      intro s hs
      rw [List.length_eq_zero_iff.mp (Nat.le_zero.mp hs)]
      exact ⟨[], .nil⟩
  | succ n ih =>
      intro s hs
      cases s with
      | nil => exact ⟨[], .nil⟩
      | cons c s =>
          have hlen := Nat.le_of_succ_le_succ hs
          obtain ⟨ps, hps⟩ := ih s hlen
          by_cases hopen : c = '{'
          · subst hopen
            exact ⟨_, .opening hps⟩
          by_cases hclose : c = '}'
          · subst hclose
            exact ⟨_, .closing hps⟩
          by_cases hif : c = 'i' ∧ startsIf s = true
          · obtain ⟨rfl, hif⟩ := hif
            exact ⟨_, .branch hif hps⟩
          by_cases hdot : c = '.'
          · subst hdot
            have hsplit := List.takeWhile_append_dropWhile (p := isIdChar) (l := s)
            have hword : Word (s.takeWhile isIdChar) (s.dropWhile isIdChar) := by
              refine ⟨fun _ hc => List.mem_takeWhile_imp hc, fun c hc => ?_⟩
              have hhead := List.head?_dropWhile_not isIdChar s
              rw [hc] at hhead
              exact hhead
            rw [← hsplit, List.length_append] at hlen
            rw [← hsplit]
            by_cases hwrite : s.takeWhile isIdChar = field ∧ Equals (s.dropWhile isIdChar)
            · obtain ⟨hname, blanks, value, hbehind, hblanks, hvalue⟩ := hwrite
              have hfield : ∀ c ∈ field, isIdChar c = true := hname ▸ hword.1
              rw [hbehind] at hlen
              rw [hname, hbehind]
              by_cases hsemi : ';' ∈ value
              · obtain ⟨assigned, rest, rfl, hno⟩ := List.eq_append_cons_of_mem hsemi
                simp only [List.length_append, List.length_cons] at hlen
                obtain ⟨ps, hps⟩ := ih rest (by omega)
                refine ⟨_, .write hfield hblanks ?_ hno hps⟩
                cases assigned with
                | nil => rintro ⟨⟩
                | cons c assigned => exact hvalue
              · exact ⟨_, .unfinished hfield hblanks hvalue hsemi⟩
            · obtain ⟨ps, hps⟩ := ih (s.dropWhile isIdChar) (by omega)
              exact ⟨_, .member hword hwrite hps⟩
          · exact ⟨_, .other hopen hclose hdot hif hps⟩

/-! ## §5. What is reported. -/

/-- Two writes to the field, one behind the other in the same braces. -/
def InARow (field bytes : Text) (range range' : Nat × Nat) : Prop :=
  ∃ ps, Cut field bytes ps ∧ Consecutive (marks 0 ps) range range'

theorem mem_scanLoop_iff {bytes : Text} {range : Nat × Nat} :
    range ∈ (scanLoop field bytes.length 0 bytes .start).out ↔ ∃ range', InARow field bytes range range' := by
  have hout : ∀ {ps}, Cut field bytes ps →
      (scanLoop field bytes.length 0 bytes .start).out = handed [none] (marks 0 ps) := by
    intro ps hps
    rw [scan_cut hps _ _ _ (Nat.le_refl _), Scan.foldl_step Scan.sized_start]
    rfl
  constructor
  · intro h
    obtain ⟨ps, hps⟩ := exists_cut field bytes.length bytes (Nat.le_refl _)
    rw [hout hps, BlockSlots.mem_handed_iff] at h
    obtain ⟨range', hrow⟩ := h
    exact ⟨range', ps, hps, hrow⟩
  · rintro ⟨range', ps, hps, hrow⟩
    rw [hout hps, BlockSlots.mem_handed_iff]
    exact ⟨range', hrow⟩

/-- **A write to a target field is reported exactly if another write to a field of
that name stands behind it in the same braces.** -/
theorem mem_onTree_iff {source : SourceId} {bytes : Text} {d : Diagnostic} :
    d ∈ onTree source bytes ↔ ∃ field ∈ collectSvTargetFields bytes, ∃ range range',
      InARow field bytes range range' ∧ d = diagnosticAt source field range := by
  simp only [onTree, List.mem_flatMap, List.mem_map, mem_scanLoop_iff]
  constructor
  · rintro ⟨field, hfield, range, ⟨range', hrow⟩, rfl⟩
    exact ⟨field, hfield, range, range', hrow, rfl⟩
  · rintro ⟨field, hfield, range, range', hrow, rfl⟩
    exact ⟨field, hfield, range, ⟨range', hrow⟩, rfl⟩

end ShaderClippy.Rules.DeadStore
