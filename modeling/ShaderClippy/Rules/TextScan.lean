/-
  ShaderClippy.Rules.TextScan

  **DO THE RULES THAT SEARCH THE TEXT REPORT CODE ONLY?**
  (`gather_channel_narrowing.cpp`, `descriptor_heap_no_non_uniform_marker.cpp`)

  Both rules look for a name in the bytes of the source and count brackets from
  there. Comments are bytes like all others.

  So a diagnostic covers one expression of code, and its fix leaves the comments
  alone, exactly if the name and the last bracket are in code, the brackets in
  the comments between cancel out, the brackets of the other sort are balanced,
  and an index that is wrapped does not end with a line comment
  (`codeOnly_iff`).
-/
import ShaderClippy.Diagnostic
import ShaderClippy.Lib.Brackets
import ShaderClippy.Lib.CommentZones
import ShaderClippy.Lib.Splice
import ShaderClippy.Rules.GroupsharedBudget

namespace ShaderClippy.Rules.TextScan

open Comments (Zone marks after code comment Plain)
open Brackets (Kind Balanced afterClose openings closings Covered)
open GroupsharedBudget (isIdChar)

/-! ## §1. The search. -/

/-- Brackets of one sort. -/
def sort (o c x : Char) : Kind := if x = o then .opening else if x = c then .closing else .other

/-- The loop over all places where the name begins. At each of them `tryAt` says
where the search goes on, and what is reported. -/
def search (name : Text) (tryAt : Nat → Text → Nat × Option Diagnostic) : Nat → Nat → Text → List Diagnostic
  | 0, _, _ => []
  | _ + 1, _, [] => []
  | fuel + 1, pos, c :: cs =>
      if name.isPrefixOf (c :: cs) then
        let r := tryAt pos (c :: cs)
        r.2.toList ++ search name tryAt fuel r.1 ((c :: cs).drop (r.1 - pos))
      else search name tryAt fuel (pos + 1) cs

/-! ## §2. `gather-channel-narrowing`. -/

def kGather : Text := "Gather".toList

/-- `channel_to_method`. -/
def channelToMethod : Char → Option Text
  | 'r' => some "GatherRed".toList
  | 'x' => some "GatherRed".toList
  | 'g' => some "GatherGreen".toList
  | 'y' => some "GatherGreen".toList
  | 'b' => some "GatherBlue".toList
  | 'z' => some "GatherBlue".toList
  | 'a' => some "GatherAlpha".toList
  | 'w' => some "GatherAlpha".toList
  | _ => none

def isRedChannel (ch : Char) : Bool := ch == 'r' || ch == 'x'

def gatherMessage (ch : Char) (method : Text) : Text :=
  "`Gather(...).".toList ++ [ch] ++ "` consumes only one channel -- replace with `".toList ++ method
    ++ "` to encode the channel at TMU instruction level and drop the swizzle".toList

def gatherDescription (ch : Char) : Text :=
  if isRedChannel ch then "replace `Gather(...).r` with `GatherRed(...).r`".toList
  else "replace `Gather(...).<channel>` with the channel-specific gather; verify the original swizzle was ".toList
    ++ "intended to mean the channel name (not a texel index)".toList

/-- The diagnostic of a call; `args` is its argument list. -/
def gatherDiagnostic (source : SourceId) (lo : Nat) (args : Text) (ch : Char) (method : Text) : Diagnostic :=
  let span : Span := ⟨source, ⟨lo, lo + kGather.length + args.length + 2⟩⟩
  { code := "gather-channel-narrowing".toList
    severity := .note
    primarySpan := span
    message := gatherMessage ch method
    fixes := [⟨gatherDescription ch, isRedChannel ch, [⟨span, method ++ args ++ ".r".toList⟩]⟩] }

/-- One turn of the loop, at a `.Gather(`. The checks on the characters around
it never fail: they are `.` and `(`. -/
def gatherAt (source : SourceId) (found : Nat) (here : Text) : Nat × Option Diagnostic :=
  let list := here.drop (kGather.length + 1)
  match afterClose (sort '(' ')') 0 list with
  | none => (found + 1, none)
  | some behind =>
      let args := list.take (list.length - behind.length)
      let i := found + kGather.length + args.length
      match behind with
      | '.' :: ch :: rest =>
          match channelToMethod ch with
          | none => (i + 1, none)
          | some method =>
              if rest.head?.any isIdChar then (i + 1, none)
              else (i + 3, some (gatherDiagnostic source (found + 1) args ch method))
      | _ => (i + 1, none)

/-- `GatherChannelNarrowing::on_tree`. -/
def gatherDiagnostics (source : SourceId) (bytes : Text) : List Diagnostic :=
  search ('.' :: (kGather ++ ['('])) (gatherAt source) (bytes.length + 1) 0 bytes

/-! ## §3. `descriptor-heap-no-non-uniform-marker`. -/

def kMarker : Text := "NonUniformResourceIndex".toList

/-- What `trim` takes off. -/
def isTrimmed (c : Char) : Bool := c == ' ' || c == '\t' || c == '\n' || c == '\r'

/-- `is_integer_literal`. -/
def isIntegerLiteral (s : Text) : Bool :=
  let s := Trim.trim isTrimmed s
  !s.isEmpty && s.all Char.isDigit

/-- `starts_with_marker`. -/
def startsWithMarker (s : Text) : Bool :=
  let s := Trim.trim isTrimmed s
  kMarker.isPrefixOf s && !(s.drop kMarker.length).head?.any isIdChar

def heapMessage (heapName : Text) : Text :=
  "`".toList ++ heapName ++ "[...]` index is not wrapped in `NonUniformResourceIndex(...)` -- ".toList
    ++ "SM 6.6 dynamic-resource access requires the marker when the index can ".toList
    ++ "vary across lanes (otherwise the driver may broadcast lane 0's descriptor)".toList

def heapDescription : Text :=
  "wrap descriptor-heap index in `NonUniformResourceIndex(...)`; ".toList
    ++ "verify the index is actually divergent at this call site".toList

/-- The diagnostic of an access: `lo` is where the name begins, `open_` where the
bracket is. -/
def heapDiagnostic (source : SourceId) (heapName : Text) (lo bracket : Nat) (inside : Text) : Diagnostic :=
  let trimmed := Trim.trim isTrimmed inside
  { code := "descriptor-heap-no-non-uniform-marker".toList
    severity := .warning
    primarySpan := ⟨source, ⟨lo, bracket + inside.length + 2⟩⟩
    message := heapMessage heapName
    fixes :=
      if trimmed.isEmpty then []
      else [⟨heapDescription, false,
        [⟨⟨source, ⟨bracket + 1, bracket + 1 + inside.length⟩⟩, kMarker ++ '(' :: (trimmed ++ [')'])⟩]⟩] }

/-- One turn of the loop, at the name of a heap. -/
def heapAt (source : SourceId) (bytes heapName : Text) (found : Nat) (here : Text) : Nat × Option Diagnostic :=
  let behindName := here.drop heapName.length
  if (found ≠ 0 && bytes[found - 1]?.any isIdChar) || behindName.head?.any isIdChar then (found + 1, none)
  else
    let gap := behindName.takeWhile fun c => c == ' ' || c == '\t'
    let list := behindName.dropWhile fun c => c == ' ' || c == '\t'
    if list.head? ≠ some '[' then (found + 1, none)
    else
      match afterClose (sort '[' ']') 0 list with
      | none => (found + 1, none)
      | some behind =>
          let inside := (list.take (list.length - behind.length - 1)).drop 1
          let bracket := found + heapName.length + gap.length
          let j := bracket + inside.length + 1
          if isIntegerLiteral inside || startsWithMarker inside then (j + 1, none)
          else (j + 1, some (heapDiagnostic source heapName found bracket inside))

/-- `scan_for_heap`. -/
def scanForHeap (source : SourceId) (bytes heapName : Text) : List Diagnostic :=
  search heapName (heapAt source bytes heapName) (bytes.length + 1) 0 bytes

def kResourceHeap : Text := "ResourceDescriptorHeap".toList

def kSamplerHeap : Text := "SamplerDescriptorHeap".toList

/-- `DescriptorHeapNoNonUniformMarker::on_tree`. -/
def heapDiagnostics (source : SourceId) (bytes : Text) : List Diagnostic :=
  scanForHeap source bytes kResourceHeap ++ scanForHeap source bytes kSamplerHeap

/-- What both rules report. -/
def textDiagnostics (source : SourceId) (bytes : Text) : List Diagnostic :=
  gatherDiagnostics source bytes ++ heapDiagnostics source bytes

/-! ## §4. What is found. -/

/-- A name in the source, with brackets behind it and what follows them. -/
structure Found where
  front : Text
  name : Text
  gap : Text
  o : Char
  inside : Text
  c : Char
  tail : Text
  behind : Text

/-- The source. -/
def Found.text (f : Found) : Text :=
  f.front ++ (f.name ++ (f.gap ++ f.o :: (f.inside ++ f.c :: (f.tail ++ f.behind))))

/-- What is reported about it. -/
inductive Reported (source : SourceId) : Found → Diagnostic → Prop
  | gather {front inside behind method : Text} {ch : Char} : channelToMethod ch = some method →
      Balanced (sort '(' ')') inside →
      Reported source ⟨front ++ ['.'], kGather, [], '(', inside, ')', ['.', ch], behind⟩
        (gatherDiagnostic source (front.length + 1) ('(' :: (inside ++ [')'])) ch method)
  | heap {front name gap inside behind : Text} : name = kResourceHeap ∨ name = kSamplerHeap →
      (∀ x ∈ gap, (x == ' ' || x == '	') = true) → Balanced (sort '[' ']') inside →
      Reported source ⟨front, name, gap, '[', inside, ']', [], behind⟩
        (heapDiagnostic source name front.length (front.length + name.length + gap.length) inside)

theorem search_mem {name bytes : Text} {tryAt : Nat → Text → Nat × Option Diagnostic}
    (hgoes : ∀ pos here, pos ≤ (tryAt pos here).1) {fuel pos : Nat} {d : Diagnostic}
    (h : d ∈ search name tryAt fuel pos (bytes.drop pos)) :
    ∃ found, name.isPrefixOf (bytes.drop found) = true ∧ (tryAt found (bytes.drop found)).2 = some d := by
  induction fuel generalizing pos with
  | zero => cases h
  | succ fuel ih =>
      cases hrest : bytes.drop pos with
      | nil =>
          rw [hrest] at h
          cases h
      | cons x rest =>
          rw [hrest, search] at h
          split at h
          case isTrue hname =>
              obtain h | h := List.mem_append.mp h
              · exact ⟨pos, by rw [hrest]; exact hname, by rw [hrest]; exact Option.mem_toList.mp h⟩
              · have hnext : (x :: rest).drop ((tryAt pos (x :: rest)).1 - pos)
                    = bytes.drop (tryAt pos (x :: rest)).1 := by
                  have hle := hgoes pos (x :: rest)
                  rw [← hrest, List.drop_drop, Nat.add_sub_cancel' (hrest ▸ hle)]
                rw [hnext] at h
                exact ih h
          case isFalse =>
              have hnext : rest = bytes.drop (pos + 1) := by
                rw [← List.drop_drop, hrest]
                rfl
              rw [hnext] at h
              exact ih h

/-- A closing bracket of a sort. -/
theorem closing_sort {o c x : Char} (h : sort o c x = .closing) : x = c := by
  unfold sort at h
  split at h
  · cases h
  · split at h
    case isTrue heq => exact heq
    case isFalse => cases h

/-- Behind the opening bracket the loop finds its partner. -/
theorem loop_spec {o c : Char} {list behind : Text} (h : afterClose (sort o c) 0 (o :: list) = some behind) :
    ∃ inside, list = inside ++ c :: behind ∧ Balanced (sort o c) inside := by
  have hopening : sort o c o = .opening := if_pos rfl
  rw [Brackets.afterClose_opening hopening, Nat.zero_add, Brackets.afterClose_iff] at h
  obtain ⟨inside, x, hcut, hbalanced, hclosing⟩ := h
  rw [closing_sort hclosing] at hcut
  exact ⟨inside, hcut, hbalanced⟩

theorem gatherAt_goes (source : SourceId) (found : Nat) (here : Text) : found ≤ (gatherAt source found here).1 := by
  unfold gatherAt
  dsimp only
  split
  · exact Nat.le_succ _
  · split
    · split
      · dsimp only
        omega
      · split
        · dsimp only
          omega
        · dsimp only
          omega
    · dsimp only
      omega

theorem gatherAt_spec {source : SourceId} {bytes front list : Text} {d : Diagnostic}
    (hbytes : bytes = front ++ '.' :: (kGather ++ '(' :: list))
    (h : (gatherAt source front.length ('.' :: (kGather ++ '(' :: list))).2 = some d) :
    ∃ f, f.text = bytes ∧ Reported source f d := by
  unfold gatherAt at h
  have hlist : ('.' :: (kGather ++ '(' :: list)).drop (kGather.length + 1) = '(' :: list := rfl
  rw [hlist] at h
  dsimp only at h
  split at h
  case h_1 => cases h
  case h_2 behind hbehind =>
      obtain ⟨inside, rfl, hbalanced⟩ := loop_spec hbehind
      have hargs : ('(' :: (inside ++ ')' :: behind)).take (('(' :: (inside ++ ')' :: behind)).length - behind.length)
          = '(' :: (inside ++ [')']) := by
        have hlength : ('(' :: (inside ++ ')' :: behind)).length - behind.length = ('(' :: (inside ++ [')'])).length := by
          simp only [List.length_cons, List.length_append, List.length_nil]
          omega
        have hsplit : '(' :: (inside ++ ')' :: behind) = '(' :: (inside ++ [')']) ++ behind := by simp
        rw [hlength, hsplit, List.take_left]
      rw [hargs] at h
      split at h
      case h_2 => cases h
      case h_1 _ ch rest =>
          split at h
          case h_1 => cases h
          case h_2 method hmethod =>
              split at h
              case isTrue => cases h
              case isFalse =>
                  cases h
                  refine ⟨⟨front ++ ['.'], kGather, [], '(', inside, ')', ['.', ch], rest⟩, ?_,
                    .gather hmethod hbalanced⟩
                  rw [hbytes, Found.text]
                  simp

theorem heapAt_goes (source : SourceId) (bytes heapName : Text) (found : Nat) (here : Text) :
    found ≤ (heapAt source bytes heapName found here).1 := by
  unfold heapAt
  dsimp only
  split
  · exact Nat.le_succ _
  · split
    · exact Nat.le_succ _
    · split
      · exact Nat.le_succ _
      · split
        · dsimp only
          omega
        · dsimp only
          omega

theorem heapAt_spec {source : SourceId} {bytes heapName front behindName : Text} {d : Diagnostic}
    (hname : heapName = kResourceHeap ∨ heapName = kSamplerHeap) (hbytes : bytes = front ++ (heapName ++ behindName))
    (h : (heapAt source bytes heapName front.length (heapName ++ behindName)).2 = some d) :
    ∃ f, f.text = bytes ∧ Reported source f d := by
  unfold heapAt at h
  rw [List.drop_left] at h
  dsimp only at h
  split at h
  case isTrue => cases h
  case isFalse =>
      split at h
      case isTrue => cases h
      case isFalse hbracket =>
          have hgap : ∀ x ∈ behindName.takeWhile (fun c => c == ' ' || c == '\t'), (x == ' ' || x == '\t') = true :=
            fun x hx => List.mem_takeWhile_imp (p := fun c => c == ' ' || c == '\t') hx
          have hsplit := List.takeWhile_append_dropWhile (p := fun c => c == ' ' || c == '\t') (l := behindName)
          generalize behindName.takeWhile (fun c => c == ' ' || c == '\t') = gap at h hgap hsplit
          generalize behindName.dropWhile (fun c => c == ' ' || c == '\t') = list at h hbracket hsplit
          obtain ⟨list, rfl⟩ : ∃ rest, list = '[' :: rest := by
            cases list with
            | nil => exact absurd (by simp) hbracket
            | cons x rest =>
                simp only [List.head?_cons, ne_eq, Option.some.injEq, Decidable.not_not] at hbracket
                exact ⟨rest, by rw [hbracket]⟩
          split at h
          case h_1 => cases h
          case h_2 behind hbehind =>
              obtain ⟨inside, rfl, hbalanced⟩ := loop_spec hbehind
              have hinside : (('[' :: (inside ++ ']' :: behind)).take
                  (('[' :: (inside ++ ']' :: behind)).length - behind.length - 1)).drop 1 = inside := by
                have hlength : ('[' :: (inside ++ ']' :: behind)).length - behind.length - 1 = ('[' :: inside).length := by
                  simp only [List.length_cons, List.length_append]
                  omega
                have hcut : '[' :: (inside ++ ']' :: behind) = ('[' :: inside) ++ ']' :: behind := rfl
                rw [hlength, hcut, List.take_left]
                rfl
              rw [hinside] at h
              split at h
              case isTrue => cases h
              case isFalse =>
                  cases h
                  refine ⟨⟨front, heapName, gap, '[', inside, ']', [], behind⟩, ?_, .heap hname hgap hbalanced⟩
                  rw [hbytes, ← hsplit, Found.text]
                  simp

/-- **Every diagnostic is about a name and brackets behind it.** -/
theorem reported {source : SourceId} {bytes : Text} {d : Diagnostic} (h : d ∈ textDiagnostics source bytes) :
    ∃ f, f.text = bytes ∧ Reported source f d := by
  -- where the name begins, the rest of the source begins with it
  have hplace : ∀ {name : Text} {found : Nat}, name.isPrefixOf (bytes.drop found) = true → name ≠ [] →
      ∃ rest, bytes.drop found = name ++ rest ∧ bytes = bytes.take found ++ (name ++ rest)
        ∧ (bytes.take found).length = found := by
    intro name found hbegins hne
    obtain ⟨rest, hrest⟩ := List.isPrefixOf_iff_prefix.mp hbegins
    refine ⟨rest, hrest.symm, by rw [hrest, List.take_append_drop], ?_⟩
    rw [List.length_take, Nat.min_eq_left]
    by_contra hlt
    rw [List.drop_eq_nil_of_le (by omega)] at hrest
    exact hne (List.append_eq_nil_iff.mp hrest).1
  have hheap : ∀ {heapName : Text}, heapName = kResourceHeap ∨ heapName = kSamplerHeap →
      d ∈ scanForHeap source bytes heapName → ∃ f, f.text = bytes ∧ Reported source f d := by
    intro heapName hname hd
    obtain ⟨found, hbegins, htry⟩ := @search_mem _ _ _ (heapAt_goes source bytes heapName) _ 0 _ hd
    obtain ⟨rest, hdrop, hbytes, hlength⟩ := hplace hbegins (by obtain rfl | rfl := hname <;> decide)
    rw [hdrop, ← hlength] at htry
    exact heapAt_spec hname hbytes htry
  rw [textDiagnostics, List.mem_append, heapDiagnostics, List.mem_append] at h
  obtain h | h | h := h
  · obtain ⟨found, hbegins, htry⟩ := @search_mem _ _ _ (gatherAt_goes source) _ 0 _ h
    obtain ⟨rest, hdrop, hbytes, hlength⟩ := hplace hbegins nofun
    have hname : '.' :: (kGather ++ ['(']) ++ rest = '.' :: (kGather ++ '(' :: rest) := by simp
    rw [hname] at hdrop hbytes
    rw [hdrop, ← hlength] at htry
    exact gatherAt_spec hbytes htry
  · exact hheap (Or.inl rfl) h
  · exact hheap (Or.inr rfl) h

/-! ## §5. The law. -/

/-- One expression: a word, balanced brackets behind it, and at most a member. -/
def Complete (t : Text) : Prop :=
  ∃ word gap o inner c tail, t = word ++ (gap ++ o :: (inner ++ c :: tail))
    ∧ (∀ x ∈ word, isIdChar x = true) ∧ (∀ x ∈ gap, (x == ' ' || x == '\t') = true)
    ∧ ((o = '(' ∧ c = ')') ∨ (o = '[' ∧ c = ']'))
    ∧ Balanced (sort '(' ')') inner ∧ Balanced (sort '[' ']') inner
    ∧ (tail = [] ∨ ∃ ch, isIdChar ch = true ∧ tail = ['.', ch])

/-- Apply one edit. -/
def applyEdit (bytes : Text) (e : TextEdit Char) : Text :=
  Splice.splice bytes ⟨e.span.bytes.lo, e.span.bytes.hi, e.replacement⟩

/-- The edit edits no comment, and joins no code with one: all that is around it is
read as before, and what it writes as it would be on its own. -/
structure KeepsComments (bytes : Text) (e : TextEdit Char) : Prop where
  apart : marks .code (applyEdit bytes e) = (marks .code bytes).take e.span.bytes.lo
    ++ (marks .code e.replacement ++ (marks .code bytes).drop e.span.bytes.hi)
  comments : comment (marks .code (applyEdit bytes e)) = comment (marks .code bytes)

/-- The diagnostic covers one expression of code, and so do its fixes. -/
structure CodeOnly (bytes : Text) (d : Diagnostic) : Prop where
  starts : ∃ x, (marks .code bytes)[d.primarySpan.bytes.lo]? = some (x, false)
  ends : ∃ x, (marks .code bytes)[d.primarySpan.bytes.hi - 1]? = some (x, false)
  complete : Complete (code (((marks .code bytes).drop d.primarySpan.bytes.lo).take
    (d.primarySpan.bytes.hi - d.primarySpan.bytes.lo)))
  fixes : ∀ fix ∈ d.fixes, ∀ e ∈ fix.edits, KeepsComments bytes e

/-- The brackets in the comments cancel out: in all there are as many of both, and
nowhere do they leave more open than all brackets up to there. -/
def Cancel (kind : Char → Kind) (m : List (Char × Bool)) : Prop :=
  closings kind (comment m) = openings kind (comment m)
    ∧ ∀ q, q <+: m → openings kind (comment q) + closings kind (q.map Prod.fst)
      ≤ closings kind (comment q) + openings kind (q.map Prod.fst)

namespace Found

/-- The brackets of the other sort. -/
def other (f : Found) : Char → Kind := if f.o = '(' then sort '[' ']' else sort '(' ')'

/-- The comments do no harm. -/
structure Harmless (f : Found) : Prop where
  name_in_code : (after .code f.front).inside = false
  bracket_in_code : (after .code f.inside).inside = false
  cancel : Cancel (sort f.o f.c) (marks .code f.inside)
  other_balanced : Balanced f.other (code (marks .code f.inside))
  index_ends : f.o = '[' → after .code (Trim.trim isTrimmed f.inside) ≠ .line

end Found

/-! ## §6. Brackets of the code. -/

theorem openings_split (kind : Char → Kind) (m : List (Char × Bool)) :
    openings kind (m.map Prod.fst) = openings kind (code m) + openings kind (comment m) := by
  induction m with
  | nil => rfl
  | cons x m ih =>
      obtain ⟨c, b⟩ := x
      cases b with
      | true =>
          show openings kind (c :: m.map Prod.fst) = openings kind (code m) + openings kind (c :: comment m)
          rw [Brackets.openings_cons, Brackets.openings_cons, ih]
          omega
      | false =>
          show openings kind (c :: m.map Prod.fst) = openings kind (c :: code m) + openings kind (comment m)
          rw [Brackets.openings_cons, Brackets.openings_cons, ih]
          omega

theorem closings_split (kind : Char → Kind) (m : List (Char × Bool)) :
    closings kind (m.map Prod.fst) = closings kind (code m) + closings kind (comment m) := by
  induction m with
  | nil => rfl
  | cons x m ih =>
      obtain ⟨c, b⟩ := x
      cases b with
      | true =>
          show closings kind (c :: m.map Prod.fst) = closings kind (code m) + closings kind (c :: comment m)
          rw [Brackets.closings_cons, Brackets.closings_cons, ih]
          omega
      | false =>
          show closings kind (c :: m.map Prod.fst) = closings kind (c :: code m) + closings kind (comment m)
          rw [Brackets.closings_cons, Brackets.closings_cons, ih]
          omega

/-- What the code of a text begins with is the code of what the text begins with. -/
theorem prefix_code {m : List (Char × Bool)} {p : Text} :
    p <+: code m ↔ ∃ q, q <+: m ∧ p = code q := by
  constructor
  · intro h
    induction m generalizing p with
    | nil => exact ⟨[], List.nil_prefix, List.prefix_nil.mp h⟩
    | cons x m ih =>
        obtain ⟨c, b⟩ := x
        cases b with
        | true =>
            obtain ⟨q, hq, hp⟩ := ih h
            exact ⟨(c, true) :: q, List.cons_prefix_cons.mpr ⟨rfl, hq⟩, hp⟩
        | false =>
            have h : p <+: c :: code m := h
            cases p with
            | nil => exact ⟨[], List.nil_prefix, rfl⟩
            | cons d p =>
                obtain ⟨rfl, hp⟩ := List.cons_prefix_cons.mp h
                obtain ⟨q, hq, rfl⟩ := ih hp
                exact ⟨(d, false) :: q, List.cons_prefix_cons.mpr ⟨rfl, hq⟩, rfl⟩
  · rintro ⟨q, ⟨r, rfl⟩, rfl⟩
    exact ⟨code r, (Comments.code_append q r).symm⟩

/-- **The brackets of the code are balanced where those of the text are, exactly if
those in the comments cancel out.** -/
theorem balanced_code_iff {kind : Char → Kind} {m : List (Char × Bool)} (h : Balanced kind (m.map Prod.fst)) :
    Balanced kind (code m) ↔ Cancel kind m := by
  obtain ⟨-, htotal⟩ := Brackets.balanced_iff_counts.mp h
  have hopen := openings_split kind m
  have hclose := closings_split kind m
  rw [Brackets.balanced_iff_counts, Cancel]
  constructor
  · rintro ⟨hcovered, hcount⟩
    refine ⟨by omega, fun q hq => ?_⟩
    have hle := hcovered (code q) (prefix_code.mpr ⟨q, hq, rfl⟩)
    rw [openings_split, closings_split]
    omega
  · rintro ⟨hcount, hcancel⟩
    refine ⟨fun p hp => ?_, by omega⟩
    obtain ⟨q, hq, rfl⟩ := prefix_code.mp hp
    have hle := hcancel q hq
    rw [openings_split, closings_split] at hle
    omega

/-! ## §7. One expression. -/

/-- What both rules find. -/
structure Shape (f : Found) : Prop where
  name_ne : f.name ≠ []
  name_word : ∀ x ∈ f.name, isIdChar x = true
  gap_blank : ∀ x ∈ f.gap, (x == ' ' || x == '\t') = true
  brackets : (f.o = '(' ∧ f.c = ')') ∨ (f.o = '[' ∧ f.c = ']')
  balanced : Balanced (sort f.o f.c) f.inside
  tail : f.tail = [] ∨ ∃ ch, isIdChar ch = true ∧ f.tail = ['.', ch]

/-- From the name to what follows the brackets. -/
def Found.span (f : Found) : ByteSpan :=
  ⟨f.front.length, f.front.length + (f.name.length + f.gap.length + 1 + f.inside.length + 1 + f.tail.length)⟩

theorem channel_idChar {ch : Char} {method : Text} (h : channelToMethod ch = some method) : isIdChar ch = true := by
  unfold channelToMethod at h
  split at h <;> first | rfl | cases h

theorem heapName_word {name : Text} (h : name = kResourceHeap ∨ name = kSamplerHeap) :
    name ≠ [] ∧ ∀ x ∈ name, isIdChar x = true := by
  obtain rfl | rfl := h
  · exact ⟨nofun, List.all_eq_true.mp (by decide)⟩
  · exact ⟨nofun, List.all_eq_true.mp (by decide)⟩

theorem gather_word : ∀ x ∈ kGather, isIdChar x = true :=
  List.all_eq_true.mp (show kGather.all isIdChar = true by decide)

theorem gather_span (source : SourceId) (lo : Nat) (args : Text) (ch : Char) (method : Text) :
    (gatherDiagnostic source lo args ch method).primarySpan.bytes = ⟨lo, lo + kGather.length + args.length + 2⟩ := rfl

theorem heap_span (source : SourceId) (name : Text) (lo bracket : Nat) (inside : Text) :
    (heapDiagnostic source name lo bracket inside).primarySpan.bytes = ⟨lo, bracket + inside.length + 2⟩ := rfl

theorem shape_of_reported {source : SourceId} {f : Found} {d : Diagnostic} (h : Reported source f d) :
    Shape f ∧ d.primarySpan.bytes = f.span := by
  cases h with
  | @gather front inside behind method ch hmethod hbalanced =>
      have hch := channel_idChar hmethod
      have hne : kGather ≠ [] := nofun
      refine ⟨⟨hne, gather_word, nofun, Or.inl ⟨rfl, rfl⟩, hbalanced, Or.inr ⟨ch, hch, rfl⟩⟩, ?_⟩
      rw [gather_span, Found.span]
      dsimp only
      rw [List.length_append, List.length_cons, List.length_append, List.length_singleton, List.length_singleton,
        List.length_nil, List.length_cons, List.length_singleton, ByteSpan.mk.injEq]
      omega
  | @heap front name gap inside behind hname hgap hbalanced =>
      obtain ⟨hne, hword⟩ := heapName_word hname
      refine ⟨⟨hne, hword, hgap, Or.inr ⟨rfl, rfl⟩, hbalanced, Or.inl rfl⟩, ?_⟩
      rw [heap_span, Found.span]
      dsimp only
      rw [List.length_nil, ByteSpan.mk.injEq]
      omega

/-- The characters around a comment's end are no word characters. -/
theorem idChar_plain {x : Char} (h : isIdChar x = true) : x ≠ '/' ∧ x ≠ '*' ∧ x ≠ '\n' ∧ x ≠ ' ' ∧ x ≠ '\t'
    ∧ x ∉ ['(', '[', ')', ']'] := by
  refine ⟨?_, ?_, ?_, ?_, ?_, ?_⟩
  · rintro rfl
    cases h
  · rintro rfl
    cases h
  · rintro rfl
    cases h
  · rintro rfl
    cases h
  · rintro rfl
    cases h
  · intro hmem
    have hall : (['(', '[', ')', ']'].all fun c => !isIdChar c) = true := rfl
    have hno := List.all_eq_true.mp hall x hmem
    rw [h] at hno
    cases hno

theorem blank_not_idChar {x : Char} (h : (x == ' ' || x == '\t') = true) : isIdChar x = false ∧ x ≠ '/'
    ∧ x ∉ ['(', '[', ')', ']'] := by
  rw [Bool.or_eq_true, beq_iff_eq, beq_iff_eq] at h
  obtain rfl | rfl := h
  · exact ⟨rfl, by decide, by decide⟩
  · exact ⟨rfl, by decide, by decide⟩

/-- The first characters of a text that something holds of. -/
theorem split_unique {p : Char → Bool} {s s' t t' : Text} (hs : ∀ x ∈ s, p x = true) (hs' : ∀ x ∈ s', p x = true)
    (ht : ∀ x, t.head? = some x → p x = false) (ht' : ∀ x, t'.head? = some x → p x = false)
    (h : s ++ t = s' ++ t') : s = s' ∧ t = t' := by
  have htake : ∀ {s t : Text}, (∀ x ∈ s, p x = true) → (∀ x, t.head? = some x → p x = false) →
      (s ++ t).takeWhile p = s := by
    intro s t hs ht
    rw [List.takeWhile_append_of_pos hs]
    cases t with
    | nil => exact List.append_nil s
    | cons x t => rw [List.takeWhile_cons_of_neg (by rw [ht x rfl]; nofun), List.append_nil]
  have heq : s = s' := by rw [← htake hs ht, h, htake hs' ht']
  rw [heq] at h
  exact ⟨heq, List.append_cancel_left h⟩

/-- **One expression**, exactly if the brackets of both sorts are balanced. -/
theorem complete_iff {word gap inner tail : Text} {o c : Char} (hword : ∀ x ∈ word, isIdChar x = true)
    (hgap : ∀ x ∈ gap, (x == ' ' || x == '\t') = true) (hoc : (o = '(' ∧ c = ')') ∨ (o = '[' ∧ c = ']'))
    (htail : tail = [] ∨ ∃ ch, isIdChar ch = true ∧ tail = ['.', ch]) :
    Complete (word ++ (gap ++ o :: (inner ++ c :: tail)))
      ↔ Balanced (sort '(' ')') inner ∧ Balanced (sort '[' ']') inner := by
  have hopen : ∀ {o c : Char}, ((o = '(' ∧ c = ')') ∨ (o = '[' ∧ c = ']')) →
      isIdChar o = false ∧ (o == ' ' || o == '\t') = false ∧ isIdChar c = false := by
    rintro o c (⟨rfl, rfl⟩ | ⟨rfl, rfl⟩)
    · exact ⟨rfl, rfl, rfl⟩
    · exact ⟨rfl, rfl, rfl⟩
  have hhead : ∀ {gap rest : Text} {o : Char}, (∀ x ∈ gap, (x == ' ' || x == '\t') = true) → isIdChar o = false →
      ∀ x, (gap ++ o :: rest).head? = some x → isIdChar x = false := by
    intro gap rest o hgap ho x hx
    cases gap with
    | nil =>
        cases hx
        exact ho
    | cons y gap =>
        cases hx
        exact (blank_not_idChar (hgap x List.mem_cons_self)).1
  constructor
  · rintro ⟨word', gap', o', inner', c', tail', heq, hword', hgap', hoc', hparens, hsquares, htail'⟩
    obtain ⟨hid, hblank, hc⟩ := hopen hoc
    obtain ⟨hid', hblank', hc'⟩ := hopen hoc'
    obtain ⟨-, heq⟩ := split_unique hword hword' (hhead hgap hid) (hhead hgap' hid') heq
    obtain ⟨-, heq⟩ := split_unique hgap hgap' (by rintro x ⟨⟩; exact hblank) (by rintro x ⟨⟩; exact hblank') heq
    obtain ⟨-, heq⟩ := List.cons.inj heq
    -- the member is there in both or in neither
    have hlength : tail.length = tail'.length := by
      have hlast := congrArg List.getLast? heq
      obtain rfl | ⟨ch, hch, rfl⟩ := htail
      · obtain rfl | ⟨ch', hch', rfl⟩ := htail'
        · rfl
        · simp only [List.getLast?_append, List.getLast?_cons_cons, List.getLast?_singleton, Option.some_or,
            Option.some.injEq] at hlast
          rw [hlast, hch'] at hc
          cases hc
      · obtain rfl | ⟨ch', hch', rfl⟩ := htail'
        · simp only [List.getLast?_append, List.getLast?_cons_cons, List.getLast?_singleton, Option.some_or,
            Option.some.injEq] at hlast
          rw [← hlast, hch] at hc'
          cases hc'
        · rfl
    obtain ⟨rfl, -⟩ := List.append_inj' heq (by rw [List.length_cons, List.length_cons, hlength])
    exact ⟨hparens, hsquares⟩
  · rintro ⟨hparens, hsquares⟩
    exact ⟨word, gap, o, inner, c, tail, rfl, hword, hgap, hoc, hparens, hsquares, htail⟩

/-! ## §8. Where the comments are. -/

namespace Found

/-- The name, up to and with the opening bracket. -/
def head (f : Found) : Text := f.name ++ (f.gap ++ [f.o])

/-- The closing bracket and the member. -/
def last (f : Found) : Text := f.c :: f.tail

end Found

theorem text_eq (f : Found) : f.text = f.front ++ (f.head ++ (f.inside ++ (f.last ++ f.behind))) := by
  rw [Found.text, Found.head, Found.last]
  simp

theorem head_quiet {f : Found} (h : Shape f) : '/' ∉ f.head ∧ '*' ∉ f.head ∧ Plain f.head := by
  have hchar : ∀ x ∈ f.head, x ≠ '/' ∧ x ≠ '*' := by
    intro x hx
    rw [Found.head, List.mem_append, List.mem_append, List.mem_singleton] at hx
    obtain hx | hx | rfl := hx
    · have hplain := idChar_plain (h.name_word x hx)
      exact ⟨hplain.1, hplain.2.1⟩
    · have hblank := h.gap_blank x hx
      rw [Bool.or_eq_true, beq_iff_eq, beq_iff_eq] at hblank
      obtain rfl | rfl := hblank <;> decide
    · obtain ⟨ho, -⟩ | ⟨ho, -⟩ := h.brackets <;> rw [ho] <;> decide
  exact ⟨fun hx => (hchar _ hx).1 rfl, fun hx => (hchar _ hx).2 rfl, fun x hx => hchar x (List.mem_of_mem_head? hx)⟩

theorem last_quiet {f : Found} (h : Shape f) : '/' ∉ f.last ∧ ∀ t, Plain (f.last ++ t) := by
  obtain ⟨hslash, hstar⟩ : f.c ≠ '/' ∧ f.c ≠ '*' := by
    obtain ⟨-, hc⟩ | ⟨-, hc⟩ := h.brackets <;> rw [hc] <;> decide
  refine ⟨fun hx => ?_, fun t => Comments.plain_cons hslash hstar⟩
  rw [Found.last] at hx
  obtain hx | hx := List.mem_cons.mp hx
  · exact hslash hx.symm
  · obtain htail | ⟨ch, hch, htail⟩ := h.tail
    · rw [htail] at hx
      cases hx
    · rw [htail] at hx
      have hcases : '/' = '.' ∨ '/' = ch := by simpa using hx
      obtain hdot | hdot := hcases
      · exact absurd hdot (by decide)
      · exact (idChar_plain hch).1 hdot.symm

/-- A text of code between two others; its last character is no slash. -/
theorem marks_between {s t : Text} (hs : '/' ∉ s) (hstar : '*' ∉ s) (hne : s ≠ []) :
    marks .code (s ++ t) = s.map (·, false) ++ marks .code t := by
  obtain ⟨u, c, rfl⟩ : ∃ u c, s = u ++ [c] := ⟨_, _, (List.dropLast_concat_getLast hne).symm⟩
  have hslash : c ≠ '/' := fun h => hs (by rw [h]; simp)
  have hstar' : c ≠ '*' := fun h => hstar (by rw [h]; simp)
  obtain ⟨hmarks, hafter⟩ := Comments.marks_quiet hs
  rw [List.append_assoc, List.singleton_append, Comments.marks_concat hslash hstar', hmarks, hafter]

/-- In front of what is found, up to what is inside the brackets. -/
theorem marks_front {f : Found} (h : Shape f) (hfront : (after .code f.front).inside = false) (t : Text) :
    marks .code (f.front ++ (f.head ++ t)) = marks .code f.front ++ (f.head.map (·, false) ++ marks .code t)
      ∧ after .code (f.front ++ f.head) = .code := by
  obtain ⟨hslash, hstar, hplain⟩ := head_quiet h
  have hne : f.head ≠ [] := List.append_ne_nil_of_left_ne_nil h.name_ne _
  have hplain' : Plain (f.head ++ t) := by
    intro x hx
    rw [List.head?_append_of_ne_nil _ hne] at hx
    exact hplain x hx
  rw [Comments.marks_append hplain', Comments.marks_code hfront hplain', marks_between hslash hstar hne]
  refine ⟨rfl, ?_⟩
  cases hhead : f.head with
  | nil => exact absurd hhead hne
  | cons x rest =>
      obtain ⟨hx, hx'⟩ := hplain x (by rw [hhead]; rfl)
      rw [hhead] at hslash
      have hrest := (Comments.marks_quiet fun hmem => hslash (List.mem_cons_of_mem x hmem)).2
      rw [Comments.after_append, Comments.after_cons, Comments.after_code hfront hx hx', hrest]

/-- What is found, with comments in front of it and inside that have ended. -/
theorem marks_text {f : Found} (h : Shape f) (hfront : (after .code f.front).inside = false)
    (hinside : (after .code f.inside).inside = false) :
    marks .code f.text = marks .code f.front ++ ((f.head.map (·, false) ++ (marks .code f.inside
      ++ f.last.map (·, false))) ++ marks .code f.behind) := by
  obtain ⟨hslash, hplain⟩ := last_quiet h
  have hstar : '*' ∉ f.last := by
    intro hx
    rw [Found.last] at hx
    obtain hx | hx := List.mem_cons.mp hx
    · obtain ⟨-, hc⟩ | ⟨-, hc⟩ := h.brackets <;> rw [hc] at hx <;> exact absurd hx (by decide)
    · obtain htail | ⟨ch, hch, htail⟩ := h.tail
      · rw [htail] at hx
        cases hx
      · rw [htail] at hx
        have hcases : '*' = '.' ∨ '*' = ch := by simpa using hx
        obtain hdot | hdot := hcases
        · exact absurd hdot (by decide)
        · exact (idChar_plain hch).2.1 hdot.symm
  rw [text_eq, (marks_front h hfront _).1, Comments.marks_append (hplain _), Comments.marks_code hinside (hplain _),
    marks_between hslash hstar nofun]
  simp only [List.append_assoc]

/-- The name is in code exactly if what is in front of it has left the comments. -/
theorem starts_iff {f : Found} (h : Shape f) :
    (∃ x, (marks .code f.text)[f.span.lo]? = some (x, false)) ↔ (after .code f.front).inside = false := by
  obtain ⟨x, rest, hname⟩ : ∃ x rest, f.name = x :: rest := by
    cases hcases : f.name with
    | nil => exact absurd hcases h.name_ne
    | cons x rest => exact ⟨x, rest, rfl⟩
  obtain ⟨hslash, hstar, hbreak, -⟩ := idChar_plain (h.name_word x (by rw [hname]; exact List.mem_cons_self))
  have htext : f.text = f.front ++ x :: (rest ++ (f.gap ++ f.o :: (f.inside ++ f.c :: (f.tail ++ f.behind)))) := by
    rw [Found.text, hname]
    rfl
  have hmark := Comments.marks_char (z := .code) (s := f.front)
    (t := rest ++ (f.gap ++ f.o :: (f.inside ++ f.c :: (f.tail ++ f.behind)))) hslash hstar hbreak
  rw [htext, show f.span.lo = f.front.length from rfl, hmark]
  constructor
  · rintro ⟨y, hy⟩
    exact (Prod.mk.inj (Option.some.inj hy)).2
  · intro hfront
    exact ⟨x, by rw [hfront]⟩

/-- The last bracket is in code exactly if what is inside has left the comments. -/
theorem ends_iff {f : Found} (h : Shape f) (hfront : (after .code f.front).inside = false) :
    (∃ x, (marks .code f.text)[f.span.hi - 1]? = some (x, false)) ↔ (after .code f.inside).inside = false := by
  have hbefore := (marks_front h hfront []).2
  have hlength : (f.front ++ f.head ++ f.inside).length
      = f.front.length + (f.name.length + f.gap.length + 1 + f.inside.length) := by
    rw [List.length_append, List.length_append, Found.head, List.length_append, List.length_append,
      List.length_singleton]
    omega
  have hinside : after .code (f.front ++ f.head ++ f.inside) = after .code f.inside := by
    rw [Comments.after_append, hbefore]
  obtain ⟨hslash, hstar, hbreak⟩ : f.c ≠ '/' ∧ f.c ≠ '*' ∧ f.c ≠ '\n' := by
    obtain ⟨-, hc⟩ | ⟨-, hc⟩ := h.brackets <;> rw [hc] <;> decide
  have hmark : ∀ {s t : Text} {x : Char}, x ≠ '/' → x ≠ '*' → x ≠ '\n' → f.text = s ++ x :: t →
      s.length = f.span.hi - 1 →
      ((∃ y, (marks .code f.text)[f.span.hi - 1]? = some (y, false)) ↔ (after .code s).inside = false) := by
    intro s t x h1 h2 h3 htext hs
    rw [htext, ← hs, Comments.marks_char h1 h2 h3]
    constructor
    · rintro ⟨y, hy⟩
      exact (Prod.mk.inj (Option.some.inj hy)).2
    · intro hzone
      exact ⟨x, by rw [hzone]⟩
  obtain htail | ⟨ch, hch, htail⟩ := h.tail
  · rw [hmark (s := f.front ++ f.head ++ f.inside) (t := f.behind) hslash hstar hbreak, hinside]
    · rw [text_eq, Found.last, htail]
      simp
    · rw [hlength, Found.span, htail]
      dsimp only
      rw [List.length_nil]
      omega
  · obtain ⟨h1, h2, h3, -⟩ := idChar_plain hch
    rw [hmark (s := f.front ++ f.head ++ f.inside ++ [f.c, '.']) (t := f.behind) h1 h2 h3]
    · rw [Comments.after_append, hinside]
      cases hzone : (after .code f.inside).inside with
      | false =>
          rw [Comments.after_cons, Comments.after_code hzone hslash hstar]
          exact iff_of_true rfl rfl
      | true =>
          have hc := Comments.next_inside hzone hslash hbreak
          have hdot : ((Zone.next (after .code f.inside) f.c).next '.').inside = true :=
            Comments.next_inside hc (by decide) (by decide)
          exact iff_of_false (by rw [Comments.after_cons, Comments.after_cons]; exact fun hno => absurd (hdot.symm.trans hno) nofun) nofun
    · rw [text_eq, Found.last, htail]
      simp
    · rw [List.length_append, hlength, Found.span, htail]
      simp only [List.length_cons, List.length_nil]
      omega

theorem length_head (f : Found) : f.head.length = f.name.length + f.gap.length + 1 := by
  rw [Found.head, List.length_append, List.length_append, List.length_singleton]
  omega

/-- What the span covers. -/
theorem code_span {f : Found} (h : Shape f) (hfront : (after .code f.front).inside = false)
    (hinside : (after .code f.inside).inside = false) :
    code (((marks .code f.text).drop f.span.lo).take (f.span.hi - f.span.lo))
      = f.name ++ (f.gap ++ f.o :: (code (marks .code f.inside) ++ f.c :: f.tail)) := by
  have hlo : f.span.lo = (marks .code f.front).length := (Comments.length_marks _ _).symm
  have hlength : f.span.hi - f.span.lo
      = (f.head.map (·, false) ++ (marks .code f.inside ++ f.last.map (·, false))).length := by
    rw [List.length_append, List.length_append, List.length_map, List.length_map, Comments.length_marks, length_head,
      Found.span, Found.last, List.length_cons]
    dsimp only
    omega
  rw [marks_text h hfront hinside, hlength, hlo, List.drop_left, List.take_left, Comments.code_append,
    Comments.code_append, Comments.code_quiet, Comments.code_quiet, Found.head, Found.last]
  simp

/-! ## §9. The fixes. -/

/-- Another name and another member around the same arguments. -/
theorem keeps_gather {f : Found} (h : Shape f) (hfront : (after .code f.front).inside = false)
    (hinside : (after .code f.inside).inside = false) {source : SourceId} {name : Text} {ch : Char} (hne : name ≠ [])
    (hword : ∀ x ∈ name, isIdChar x = true) (hch : isIdChar ch = true) :
    KeepsComments f.text ⟨⟨source, f.span⟩, name ++ f.o :: (f.inside ++ [f.c, '.', ch])⟩ := by
  -- the result is found as the source was, and so is the replacement on its own
  have hshape : ∀ front behind : Text, Shape ⟨front, name, [], f.o, f.inside, f.c, ['.', ch], behind⟩ :=
    fun _ _ => ⟨hne, hword, nofun, h.brackets, h.balanced, Or.inr ⟨ch, hch, rfl⟩⟩
  have hresult := marks_text (hshape f.front f.behind) hfront hinside
  have hown := marks_text (hshape [] []) rfl hinside
  have htext := marks_text h hfront hinside
  have happly : applyEdit f.text ⟨⟨source, f.span⟩, name ++ f.o :: (f.inside ++ [f.c, '.', ch])⟩
      = Found.text ⟨f.front, name, [], f.o, f.inside, f.c, ['.', ch], f.behind⟩ := by
    have hsplit : f.text = (f.front ++ (f.head ++ (f.inside ++ f.last))) ++ f.behind := by
      rw [text_eq]
      simp
    have hlength : f.span.hi = (f.front ++ (f.head ++ (f.inside ++ f.last))).length := by
      rw [List.length_append, List.length_append, List.length_append, length_head, Found.span, Found.last,
        List.length_cons]
      dsimp only
      omega
    rw [applyEdit, Splice.splice]
    dsimp only
    conv_lhs => rw [hlength]
    conv_lhs => rw [show f.text.take f.span.lo = f.front by rw [text_eq]; exact List.take_left]
    rw [hsplit, List.drop_left, Found.text]
    simp
  have hownText : Found.text ⟨[], name, [], f.o, f.inside, f.c, ['.', ch], []⟩
      = name ++ f.o :: (f.inside ++ [f.c, '.', ch]) := by
    rw [Found.text]
    simp
  rw [hownText] at hown
  constructor
  · have hlo : f.span.lo = (marks .code f.front).length := (Comments.length_marks _ _).symm
    have hhi : f.span.hi = (marks .code f.front
        ++ (f.head.map (·, false) ++ (marks .code f.inside ++ f.last.map (·, false)))).length := by
      rw [List.length_append, List.length_append, List.length_append, List.length_map, List.length_map,
        Comments.length_marks, Comments.length_marks, length_head, Found.span, Found.last, List.length_cons]
      dsimp only
      omega
    have hdrop : (marks .code f.text).drop f.span.hi = marks .code f.behind := by
      have hassoc : ∀ a b c : List (Char × Bool), a ++ (b ++ c) = (a ++ b) ++ c :=
        fun a b c => (List.append_assoc a b c).symm
      rw [htext, hassoc, hhi, List.drop_left]
    have htake : (marks .code f.text).take f.span.lo = marks .code f.front := by
      rw [htext, hlo, List.take_left]
    rw [happly, hresult, hdrop, htake, hown]
    simp only [marks, List.nil_append, List.append_nil]
    rfl
  · rw [happly, hresult, htext]
    simp only [Comments.comment_append, Comments.comment_quiet]

/-- Behind blanks a comment that can only end with a slash goes on. -/
theorem blanks_inside {z : Zone} (hz : z = .block ∨ z = .star) {b : Text} (hb : ∀ x ∈ b, isTrimmed x = true) :
    (after z b).inside = true := by
  have hstep : ∀ {z : Zone}, z = .block ∨ z = .star → ∀ x, isTrimmed x = true → z.next x = .block ∨ z.next x = .star := by
    intro z hz x hx
    simp only [isTrimmed, Bool.or_eq_true, beq_iff_eq] at hx
    obtain rfl | rfl := hz
    · obtain ((rfl | rfl) | rfl) | rfl := hx <;> exact Or.inl rfl
    · obtain ((rfl | rfl) | rfl) | rfl := hx <;> exact Or.inl rfl
  have hall : after z b = .block ∨ after z b = .star := by
    induction b generalizing z with
    | nil => exact hz
    | cons x b ih =>
        exact ih (hstep hz x (hb x List.mem_cons_self)) fun y hy => hb y (List.mem_cons_of_mem x hy)
  obtain h | h := hall <;> rw [h] <;> rfl

theorem blank_quiet {b : Text} (hb : ∀ x ∈ b, isTrimmed x = true) : '/' ∉ b ∧ '*' ∉ b ∧ ∀ t, Plain t → Plain (b ++ t) := by
  have hchar : ∀ x, isTrimmed x = true → x ≠ '/' ∧ x ≠ '*' := by
    intro x hx
    simp only [isTrimmed, Bool.or_eq_true, beq_iff_eq] at hx
    obtain ((rfl | rfl) | rfl) | rfl := hx <;> decide
  refine ⟨fun h => (hchar _ (hb _ h)).1 rfl, fun h => (hchar _ (hb _ h)).2 rfl, fun t ht x hx => ?_⟩
  cases b with
  | nil => exact ht x hx
  | cons y b =>
      cases hx
      exact hchar x (hb x List.mem_cons_self)

/-- An index, without the blanks around it: its comments, and where it ends. -/
theorem trimmed_index {inside : Text} (hinside : (after .code inside).inside = false) :
    ((after .code (Trim.trim isTrimmed inside)).inside = false ↔ after .code (Trim.trim isTrimmed inside) ≠ .line)
      ∧ ((after .code (Trim.trim isTrimmed inside)).inside = false →
        comment (marks .code inside) = comment (marks .code (Trim.trim isTrimmed inside))) := by
  obtain ⟨-, a, b, ha, hb, hsplit⟩ := Trim.padded_trim (p := isTrimmed) inside
  generalize Trim.trim isTrimmed inside = trimmed at hsplit
  have ⟨haslash, hastar, _⟩ := blank_quiet ha
  have ⟨hbslash, _, hbplain⟩ := blank_quiet hb
  have hplain : Plain b := by
    have := hbplain [] nofun
    rwa [List.append_nil] at this
  have hafter : after .code inside = after (after .code trimmed) b := by
    rw [hsplit, Comments.after_append, Comments.after_append, (Comments.marks_quiet haslash).2]
  constructor
  · constructor
    · intro h hline
      rw [hline] at h
      cases h
    · intro hline
      cases hzone : after .code trimmed with
      | code => rfl
      | slash => rfl
      | line => exact absurd hzone hline
      | block =>
          rw [hafter, blanks_inside (Or.inl hzone) hb] at hinside
          cases hinside
      | star =>
          rw [hafter, blanks_inside (Or.inr hzone) hb] at hinside
          cases hinside
  · intro hzone
    have htail : comment (marks .code (trimmed ++ b)) = comment (marks .code trimmed) := by
      rw [Comments.marks_append hplain, Comments.marks_code hzone hplain, (Comments.marks_quiet hbslash).1,
        Comments.comment_append, Comments.comment_quiet, List.append_nil]
    rw [hsplit, List.append_assoc]
    by_cases hnil : a = []
    · rw [hnil, List.nil_append, htail]
    · rw [marks_between haslash hastar hnil, Comments.comment_append, Comments.comment_quiet, List.nil_append, htail]

/-- The marker around an index. -/
def wrapped (inside : Text) : Text := kMarker ++ '(' :: (Trim.trim isTrimmed inside ++ [')'])

/-- **The marker is put around the index, exactly if** no line comment is at its
end. -/
theorem keeps_heap_iff {f : Found} (h : Shape f) (hfront : (after .code f.front).inside = false)
    (hinside : (after .code f.inside).inside = false) {source : SourceId} :
    KeepsComments f.text ⟨⟨source, ⟨(f.front ++ f.head).length, (f.front ++ f.head).length + f.inside.length⟩⟩,
        wrapped f.inside⟩
      ↔ after .code (Trim.trim isTrimmed f.inside) ≠ .line := by
  obtain ⟨hends, hcomments⟩ := trimmed_index hinside
  obtain ⟨hlast, hplain⟩ := last_quiet h
  rw [← hends]
  -- where the closing parenthesis of the marker is put
  have hopen : '/' ∉ kMarker ++ ['('] ∧ '*' ∉ kMarker ++ ['('] := by decide
  have hwrapped : wrapped f.inside = (kMarker ++ ['(']) ++ (Trim.trim isTrimmed f.inside ++ [')']) := by
    rw [wrapped]
    simp
  have hclose : Plain [')'] := Comments.plain_cons (by decide) (by decide)
  have hown : marks .code (wrapped f.inside) = (kMarker ++ ['(']).map (·, false)
      ++ (marks .code (Trim.trim isTrimmed f.inside) ++ marks (after .code (Trim.trim isTrimmed f.inside)) [')']) := by
    rw [hwrapped, marks_between hopen.1 hopen.2 nofun, Comments.marks_append hclose]
  have hzone : (after .code (wrapped f.inside)).inside = (after .code (Trim.trim isTrimmed f.inside)).inside := by
    rw [hwrapped, Comments.after_append, (Comments.marks_quiet hopen.1).2, Comments.after_append, Comments.after_cons]
    cases hz : (after .code (Trim.trim isTrimmed f.inside)).inside with
    | false =>
        rw [Comments.after_code hz (by decide) (by decide)]
        rfl
    | true => exact Comments.next_inside hz (by decide) (by decide)
  -- the result and the source
  have happly : applyEdit f.text ⟨⟨source, ⟨(f.front ++ f.head).length, (f.front ++ f.head).length + f.inside.length⟩⟩,
      wrapped f.inside⟩ = f.front ++ (f.head ++ (wrapped f.inside ++ (f.last ++ f.behind))) := by
    have hsplit : f.text = (f.front ++ f.head) ++ (f.inside ++ (f.last ++ f.behind)) := by
      rw [text_eq]
      simp
    rw [applyEdit, Splice.splice]
    dsimp only
    rw [hsplit, List.take_left, ← List.drop_drop, List.drop_left, List.drop_left]
    simp
  have hresult := (marks_front h hfront (wrapped f.inside ++ (f.last ++ f.behind))).1
  rw [Comments.marks_append (hplain _)] at hresult
  have htext := (marks_front h hfront (f.inside ++ (f.last ++ f.behind))).1
  rw [Comments.marks_append (hplain _), Comments.marks_code hinside (hplain _), ← text_eq] at htext
  have hlength : (f.front ++ f.head).length = (marks .code f.front ++ f.head.map (·, false)).length := by
    rw [List.length_append, List.length_append, Comments.length_marks, List.length_map]
  have htake : (marks .code f.text).take (f.front ++ f.head).length = marks .code f.front ++ f.head.map (·, false) := by
    rw [htext, ← List.append_assoc, hlength, List.take_left]
  have hdrop : (marks .code f.text).drop ((f.front ++ f.head).length + f.inside.length)
      = marks .code (f.last ++ f.behind) := by
    rw [htext, ← List.append_assoc, ← List.drop_drop, hlength, List.drop_left, ← Comments.length_marks .code f.inside,
      List.drop_left]
  constructor
  · intro hkeeps
    have hapart := hkeeps.apart
    rw [happly, hresult] at hapart
    dsimp only at hapart
    rw [htake, hdrop, List.append_assoc, List.append_cancel_left_eq, List.append_cancel_left_eq,
      List.append_cancel_left_eq] at hapart
    -- the closing bracket is still in code
    have hhead := congrArg List.head? hapart
    obtain ⟨hslash, hstar, hbreak⟩ : f.c ≠ '/' ∧ f.c ≠ '*' ∧ f.c ≠ '\n' := by
      obtain ⟨-, hc⟩ | ⟨-, hc⟩ := h.brackets <;> rw [hc] <;> decide
    rw [Found.last, List.cons_append, marks, marks, List.head?_cons, List.head?_cons, Option.some.injEq,
      Prod.mk.injEq, Comments.covers_plain hslash hstar hbreak, Comments.covers_plain hslash hstar hbreak] at hhead
    rw [← hzone]
    exact hhead.2
  · intro hz
    rw [Comments.marks_code (hzone.trans hz) (hplain _)] at hresult
    constructor
    · rw [happly, hresult]
      dsimp only
      rw [htake, hdrop, List.append_assoc]
    · rw [happly, hresult, htext, hown]
      have hlastmark : comment (marks (after .code (Trim.trim isTrimmed f.inside)) [')']) = [] := by
        rw [Comments.marks_code hz hclose]
        rfl
      simp only [Comments.comment_append, Comments.comment_quiet, hcomments hz, hlastmark, List.nil_append,
        List.append_nil]

theorem method_word {ch : Char} {method : Text} (h : channelToMethod ch = some method) :
    method ≠ [] ∧ ∀ x ∈ method, isIdChar x = true := by
  unfold channelToMethod at h
  split at h <;> first
    | (cases h; exact ⟨nofun, List.all_eq_true.mp (by decide)⟩)
    | cases h

/-- The fixes of a diagnostic: only a marker can do harm. -/
theorem keeps_iff {source : SourceId} {f : Found} {d : Diagnostic} (h : Reported source f d)
    (hfront : (after .code f.front).inside = false) (hinside : (after .code f.inside).inside = false) :
    (∀ fix ∈ d.fixes, ∀ e ∈ fix.edits, KeepsComments f.text e)
      ↔ (f.o = '[' → after .code (Trim.trim isTrimmed f.inside) ≠ .line) := by
  obtain ⟨hshape, hspan⟩ := shape_of_reported h
  cases h with
  | @gather front inside behind method ch hmethod hbalanced =>
      obtain ⟨hne, hword⟩ := method_word hmethod
      have hkeeps := @keeps_gather _ hshape hfront hinside source _ _ hne hword (show isIdChar 'r' = true from rfl)
      refine iff_of_true (fun fix hfix e he => ?_) nofun
      obtain rfl := List.mem_singleton.mp hfix
      obtain rfl := List.mem_singleton.mp he
      rw [gather_span] at hspan
      rw [hspan]
      have htext : method ++ '(' :: (inside ++ [')', '.', 'r']) = method ++ '(' :: (inside ++ [')']) ++ ".r".toList := by
        simp
      rw [← htext]
      exact hkeeps
  | @heap front name gap inside behind hname hgap hbalanced =>
      have hkeeps := @keeps_heap_iff _ hshape hfront hinside source
      have hbracket : front.length + name.length + gap.length + 1
          = (front ++ Found.head ⟨front, name, gap, '[', inside, ']', [], behind⟩).length := by
        rw [List.length_append, length_head]
        dsimp only
        omega
      rw [← hbracket] at hkeeps
      refine Iff.trans ?_ (hkeeps.trans ⟨fun hline _ => hline, fun hline => hline rfl⟩)
      unfold heapDiagnostic
      dsimp only
      cases hblank : (Trim.trim isTrimmed inside).isEmpty with
      | true =>
          -- nothing is written around an empty index
          rw [if_pos rfl]
          refine iff_of_true nofun (hkeeps.mpr ?_)
          rw [List.isEmpty_iff.mp hblank]
          nofun
      | false =>
          rw [if_neg nofun]
          constructor
          · intro hall
            exact hall _ List.mem_cons_self _ List.mem_cons_self
          · intro hkeep fix hfix e he
            obtain rfl := List.mem_singleton.mp hfix
            obtain rfl := List.mem_singleton.mp he
            exact hkeep

/-! ## §10. The law. -/

/-- What is found of one sort. -/
theorem law_of_reported {source : SourceId} {f : Found} {d : Diagnostic} (h : Reported source f d) :
    CodeOnly f.text d ↔ f.Harmless := by
  obtain ⟨hshape, hspan⟩ := shape_of_reported h
  -- the brackets of the code, of both sorts
  have hbalanced : Balanced (sort '(' ')') (code (marks .code f.inside))
        ∧ Balanced (sort '[' ']') (code (marks .code f.inside))
      ↔ Cancel (sort f.o f.c) (marks .code f.inside) ∧ Balanced f.other (code (marks .code f.inside)) := by
    have hall : Balanced (sort f.o f.c) ((marks .code f.inside).map Prod.fst) := by
      rw [Comments.map_fst_marks]
      exact hshape.balanced
    rw [← balanced_code_iff hall, Found.other]
    obtain ⟨ho, hc⟩ | ⟨ho, hc⟩ := hshape.brackets
    · rw [ho, hc, if_pos rfl]
    · rw [ho, hc, if_neg (by decide)]
      exact and_comm
  have hcomplete : ∀ (hfront : (after .code f.front).inside = false) (hinside : (after .code f.inside).inside = false),
      Complete (code (((marks .code f.text).drop d.primarySpan.bytes.lo).take
        (d.primarySpan.bytes.hi - d.primarySpan.bytes.lo)))
      ↔ Cancel (sort f.o f.c) (marks .code f.inside) ∧ Balanced f.other (code (marks .code f.inside)) := by
    intro hfront hinside
    rw [hspan, code_span hshape hfront hinside,
      complete_iff hshape.name_word hshape.gap_blank hshape.brackets hshape.tail, hbalanced]
  constructor
  · intro hlaw
    have hfront := (starts_iff hshape).mp (hspan ▸ hlaw.starts)
    have hinside := (ends_iff hshape hfront).mp (hspan ▸ hlaw.ends)
    obtain ⟨hcancel, hother⟩ := (hcomplete hfront hinside).mp hlaw.complete
    exact ⟨hfront, hinside, hcancel, hother, (keeps_iff h hfront hinside).mp hlaw.fixes⟩
  · rintro ⟨hfront, hinside, hcancel, hother, hindex⟩
    exact ⟨hspan ▸ (starts_iff hshape).mpr hfront, hspan ▸ (ends_iff hshape hfront).mpr hinside,
      (hcomplete hfront hinside).mpr ⟨hcancel, hother⟩, (keeps_iff h hfront hinside).mpr hindex⟩

/-- **A diagnostic covers code only, exactly if the comments do no harm.** -/
theorem codeOnly_iff {source : SourceId} {bytes : Text} {d : Diagnostic} (h : d ∈ textDiagnostics source bytes) :
    (∃ f, f.text = bytes ∧ Reported source f d)
      ∧ ∀ f, f.text = bytes → Reported source f d → (CodeOnly bytes d ↔ f.Harmless) := by
  refine ⟨reported h, ?_⟩
  rintro f rfl hreported
  exact law_of_reported hreported

/-- Two lines, with a comment between the arguments of a call. -/
def twoLines : Text := "// red\nt.Gather(s, /* (u) */ u).r".toList

/-- The call in it. -/
def called : Found :=
  ⟨"// red\nt.".toList, kGather, [], '(', "s, /* (u) */ u".toList, ')', ".r".toList, []⟩

theorem codeOnly_iff_twoLines : ∃ d ∈ textDiagnostics ⟨1⟩ twoLines, CodeOnly twoLines d := by
  have hround : Balanced (sort '(' ')') called.inside :=
    (@Brackets.balanced_iff_afterClose _ _ _ ')' rfl).mpr (by decide)
  have hreported : Reported ⟨1⟩ called (gatherDiagnostic ⟨1⟩ 9 "(s, /* (u) */ u)".toList 'r' "GatherRed".toList) :=
    @Reported.gather _ "// red\nt".toList _ _ _ _ rfl hround
  have hd : gatherDiagnostic ⟨1⟩ 9 "(s, /* (u) */ u)".toList 'r' "GatherRed".toList ∈ textDiagnostics ⟨1⟩ twoLines := by
    decide +kernel
  refine ⟨_, hd, ((codeOnly_iff hd).2 called rfl hreported).mpr ?_⟩
  have hmarks : (marks .code called.inside).map Prod.fst = called.inside := Comments.map_fst_marks _ _
  refine ⟨rfl, rfl, (balanced_code_iff (hmarks ▸ hround)).mp ?_, ?_, nofun⟩
  · exact (@Brackets.balanced_iff_afterClose _ _ _ ')' rfl).mpr (by decide)
  · exact (@Brackets.balanced_iff_afterClose _ _ _ ']' rfl).mpr (by decide)

/-- **The code is wrong**: a call in a comment is reported, and the fix that is applied
by itself edits the comment. -/
theorem comment_reported :
    ∃ d ∈ textDiagnostics ⟨1⟩ "// t.Gather(s, u).r".toList, (∃ fix ∈ d.fixes, fix.machineApplicable = true)
      ∧ ¬ CodeOnly "// t.Gather(s, u).r".toList d := by
  refine ⟨gatherDiagnostic ⟨1⟩ 5 "(s, u)".toList 'r' "GatherRed".toList, List.mem_append_left _ ?_,
    ⟨_, List.mem_cons_self, rfl⟩, fun hcode => ?_⟩
  · exact List.mem_cons_self
  · obtain ⟨x, hx⟩ := hcode.starts
    cases hx

end ShaderClippy.Rules.TextScan
