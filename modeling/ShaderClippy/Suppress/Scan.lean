/-
  ShaderClippy.Suppress.Scan

  **THE INLINE-SUPPRESSION SCANNER** (`suppress.{hpp,cpp}`).

  The program walks the raw bytes with indices. Here a position is the text
  from it on, so a skipper maps a text to what is left of it; `offset` turns a
  position back into the index. Ranges are kept in 32 bits (`u32`).

  The two functions that look for the next code line are one loop
  (`nextCodeLine`), read at its two ends.
-/
import ShaderClippy.SourceFile

namespace ShaderClippy.Suppress

open SourceFile (u32)

/-! ## §1. Skippers. -/

def kMarker : Text := "shader-clippy:".toList
def kAllow : Text := "allow".toList
def kWildcardRule : Text := ['*']

def isSpaceOrTab (c : Char) : Bool := c == ' ' || c == '\t'

/-- The colon is part of the names `clippy::…`. -/
def isIdentChar (c : Char) : Bool :=
  c == '-' || c == '_' || c == '*' || c == ':' || c.isAlphanum

/-- `skip_inline_ws`. -/
def skipInlineWs (src : Text) : Text := src.dropWhile isSpaceOrTab

/-- `skip_ident`. -/
def skipIdent (src : Text) : Text := src.dropWhile isIdentChar

/-- `starts_with`. -/
def startsWith (src needle : Text) : Bool := needle.isPrefixOf src

/-- `end_of_line`: the line break, or the end. -/
def endOfLine (src : Text) : Text := src.dropWhile fun c => c != '\n'

/-- `end_of_block`. -/
def endOfBlock : Text → Text
  | '*' :: '/' :: rest => rest
  | _ :: rest => endOfBlock rest
  | [] => []

/-- `skip_string_literal`, past the opening quote. -/
def skipStringLiteral (quote : Char) : Text → Text
  | [] => []
  | c :: cs =>
      if c = quote then cs
      else if c = '\\' then
        match cs with
        | _ :: rest => skipStringLiteral quote rest
        | [] => []
      else skipStringLiteral quote cs

def isQuote (c : Char) : Bool := c == '"' || c == '\''

theorem length_skipInlineWs_le (s : Text) : (skipInlineWs s).length ≤ s.length :=
  (List.dropWhile_sublist isSpaceOrTab).length_le

theorem length_skipIdent_le (s : Text) : (skipIdent s).length ≤ s.length :=
  (List.dropWhile_sublist isIdentChar).length_le

theorem length_endOfLine_le (s : Text) : (endOfLine s).length ≤ s.length :=
  (List.dropWhile_sublist _).length_le

theorem length_endOfBlock_le (s : Text) : (endOfBlock s).length ≤ s.length := by
  fun_induction endOfBlock s with
  | case1 rest => simp only [List.length_cons]; omega
  | case2 c rest h ih => simp only [List.length_cons]; omega
  | case3 => exact Nat.le_refl _

theorem length_skipStringLiteral_le (quote : Char) (s : Text) :
    (skipStringLiteral quote s).length ≤ s.length := by
  fun_induction skipStringLiteral quote s with
  | case1 => exact Nat.le_refl _
  | case2 => exact Nat.le_succ _
  | case3 _ _ _ ih => simp only [List.length_cons]; omega
  | case4 => exact Nat.zero_le _
  | case5 _ _ _ _ ih => exact Nat.le_succ_of_le ih

/-- `skip_ws_and_comments`. -/
def skipWsAndComments : Text → Text
  | [] => []
  | c :: cs =>
      if c = ' ' ∨ c = '\t' ∨ c = '\r' ∨ c = '\n' then skipWsAndComments cs
      else
        match c, cs with
        | '/', '/' :: body => skipWsAndComments (endOfLine body)
        | '/', '*' :: body => skipWsAndComments (endOfBlock body)
        | c, cs => c :: cs
  termination_by s => s.length
  decreasing_by
    · exact Nat.lt_succ_self _
    · have := length_endOfLine_le body
      simp only [List.length_cons]
      omega
    · have := length_endOfBlock_le body
      simp only [List.length_cons]
      omega

/-- `skip_token`. -/
def skipToken : Text → Text
  | '/' :: '/' :: body => endOfLine body
  | '/' :: '*' :: body => endOfBlock body
  | c :: cs => if isQuote c then skipStringLiteral c cs else c :: cs
  | [] => []

/-- The loop of `end_of_block_brace`. -/
def braceLoop (depth : Nat) : Text → Text
  | [] => []
  | c :: cs =>
      if (skipToken (c :: cs)).length < (c :: cs).length then braceLoop depth (skipToken (c :: cs))
      else if c = '{' then braceLoop (depth + 1) cs
      else if c = '}' then if depth = 1 then cs else braceLoop (depth - 1) cs
      else braceLoop depth cs
  termination_by s => s.length
  decreasing_by
    · assumption
    all_goals exact Nat.lt_succ_self _

/-- `end_of_block_brace`. -/
def endOfBlockBrace : Text → Text
  | '{' :: rest => braceLoop 1 rest
  | _ => []

/-- A line break is stepped over. -/
def skipNewline : Text → Text
  | '\n' :: rest => rest
  | s => s

theorem length_skipNewline_le (s : Text) : (skipNewline s).length ≤ s.length := by
  fun_cases skipNewline s with
  | case1 => exact Nat.le_succ _
  | case2 => exact Nat.le_refl _

/-- One round of the loop of `next_code_line_start` and `next_code_line_end`:
where the next one begins, if there is no code here. -/
def codeLineRound (s : Text) : Option Text :=
  match skipInlineWs s with
  | '\n' :: rest => some rest
  | '/' :: '/' :: body => some (skipNewline (endOfLine body))
  | '/' :: '*' :: body => some (endOfBlock body)
  | _ => none

/-- A round of the search leaves a shorter text. -/
theorem length_codeLineRound_lt {s rest : Text} (h : codeLineRound s = some rest) :
    rest.length < s.length := by
  have hle := length_skipInlineWs_le s
  rw [codeLineRound] at h
  split at h
  case h_1 t heq =>
    cases h
    rw [heq, List.length_cons] at hle
    omega
  case h_2 body heq =>
    cases h
    have h1 := length_skipNewline_le (endOfLine body)
    have h2 := length_endOfLine_le body
    rw [heq, List.length_cons, List.length_cons] at hle
    omega
  case h_3 body heq =>
    cases h
    have := length_endOfBlock_le body
    rw [heq, List.length_cons, List.length_cons] at hle
    omega
  case h_4 => cases h

/-- The loop: where its last round began, and the code found there. -/
def nextCodeLine (s : Text) : Option (Text × Text) :=
  if s = [] then none
  else
    match _h : codeLineRound s with
    | some rest => nextCodeLine rest
    | none => some (s, skipInlineWs s)
  termination_by s.length
  decreasing_by exact length_codeLineRound_lt _h

/-! ## §2. Markers. -/

structure ParsedMarker where
  rules : List Text
  wellFormed : Bool
  deriving DecidableEq

/-- What one round of the loop over the names comes to. -/
inductive Round where
  | done (marker : ParsedMarker)
  | next (rules : List Text) (rest : Text)

/-- One round of the loop of `parse_marker` over the names; `stop` is how much
text there is from the end of the comment on. -/
def parseRound (stop : Nat) (rules : List Text) (s : Text) : Round :=
  if s.length ≤ stop then .done ⟨rules, false⟩
  else
    let i := skipInlineWs s
    if stop < i.length ∧ i.head? = some ')' then .done ⟨rules, true⟩
    else if i.takeWhile isIdentChar = [] then .done ⟨rules, false⟩
    else
      let rules := rules ++ [i.takeWhile isIdentChar]
      match skipInlineWs (skipIdent i) with
      | ',' :: rest =>
          if stop < (',' :: rest).length then .next rules rest else .done ⟨rules, false⟩
      | ')' :: rest => .done ⟨rules, decide (stop < (')' :: rest).length)⟩
      | _ => .done ⟨rules, false⟩

/-- A round of the list of rules leaves a shorter text. -/
theorem parseRound_lt {stop : Nat} {rules rules' : List Text} {s rest : Text}
    (h : parseRound stop rules s = .next rules' rest) : rest.length < s.length := by
  have h1 := length_skipInlineWs_le s
  have h2 := length_skipIdent_le (skipInlineWs s)
  have h3 := length_skipInlineWs_le (skipIdent (skipInlineWs s))
  simp only [parseRound] at h
  split at h
  · cases h
  · split at h
    · cases h
    · split at h
      · cases h
      · split at h
        case h_1 rest' heq =>
          rw [heq, List.length_cons] at h3
          split at h
          · cases h
            omega
          · cases h
        all_goals cases h

/-- The loop of `parse_marker` over the names. -/
def parseRules (stop : Nat) (rules : List Text) (s : Text) : ParsedMarker :=
  match _h : parseRound stop rules s with
  | .done marker => marker
  | .next rules rest => parseRules stop rules rest
  termination_by s.length
  decreasing_by exact parseRound_lt _h

/-- `parse_marker` on the text after `//`. -/
def parseMarker (body : Text) (stop : Nat) : ParsedMarker :=
  let i := skipInlineWs body
  if !startsWith i kMarker then ⟨[], false⟩
  else
    let i := skipInlineWs (i.drop kMarker.length)
    if !startsWith i kAllow then ⟨[], false⟩
    else
      match skipInlineWs (i.drop kAllow.length) with
      | '(' :: rest => if stop < ('(' :: rest).length then parseRules stop [] rest else ⟨[], false⟩
      | _ => ⟨[], false⟩

/-! ## §3. Scopes. -/

/-- The index of a position. -/
def offset (source position : Text) : Nat := source.length - position.length

/-- `next_code_line_start`. -/
def nextCodeLineStart (source lineEnd : Text) : Nat :=
  match nextCodeLine (skipNewline lineEnd) with
  | some (start, _) => u32 (offset source start)
  | none => u32 source.length

/-- `next_code_line_end`. -/
def nextCodeLineEnd (source lineEnd : Text) : Nat :=
  match nextCodeLine (skipNewline lineEnd) with
  | some (_, code) => u32 (offset source (endOfLine code))
  | none => u32 source.length

structure ResolvedScope where
  byteLo : Nat
  byteHi : Nat
  wildcardAtTop : Bool

/-- `contains_wildcard`. -/
def containsWildcard (rules : List Text) : Bool := rules.any fun r => decide (r = kWildcardRule)

/-- What precedes a comment on its line. -/
def lineBefore (source body : Text) : Text :=
  Lines.lastLine '\n' (source.take (offset source body - 2))

/-- `any_non_ws` over what precedes a comment on its line. -/
def sameLineCode (source body : Text) : Bool :=
  (lineBefore source body).any fun c => !isSpaceOrTab c

/-- `resolve_scope` for the comment with this body. -/
def resolveScope (source body : Text) (seenRealCode : Bool) (rules : List Text) : ResolvedScope :=
  let commentHi := endOfLine body
  let lineStart := offset source body - 2 - (lineBefore source body).length
  if sameLineCode source body then ⟨u32 lineStart, u32 (offset source commentHi), false⟩
  else
    let wildcardAtTop := !seenRealCode && containsWildcard rules
    match skipWsAndComments commentHi with
    | [] => ⟨u32 (offset source commentHi), u32 (offset source commentHi), wildcardAtTop⟩
    | '{' :: rest =>
        ⟨u32 (offset source ('{' :: rest)), u32 (offset source (endOfBlockBrace ('{' :: rest))),
          wildcardAtTop⟩
    | _ :: _ => ⟨nextCodeLineStart source commentHi, nextCodeLineEnd source commentHi, wildcardAtTop⟩

/-! ## §4. The scan. -/

structure Suppression where
  ruleId : Text
  byteLo : Nat
  byteHi : Nat

structure ScanDiagnostic where
  message : Text
  byteLo : Nat
  byteHi : Nat

def kMalformed : Text :=
  "malformed `// shader-clippy:` annotation; expected `allow(rule-name, ...)`".toList

/-- `build_entries`. -/
def buildEntries (rs : ResolvedScope) (source : Text) (rules : List Text) : List Suppression :=
  if rs.wildcardAtTop then [⟨kWildcardRule, 0, u32 source.length⟩]
  else rules.map fun r => ⟨r, rs.byteLo, rs.byteHi⟩

/-- `build_malformed`. -/
def buildMalformed (source body : Text) : Option ScanDiagnostic :=
  if !startsWith (skipInlineWs body) kMarker then none
  else some ⟨kMalformed, u32 (offset source body - 2), u32 (offset source (endOfLine body))⟩

/-- What the scan has collected. -/
structure ScanState where
  entries : List Suppression
  scanDiagnostics : List ScanDiagnostic
  seenRealCode : Bool

/-- `finalize_line_comment`. -/
def finalizeLineComment (source body : Text) (st : ScanState) : ScanState :=
  let marker := parseMarker body (endOfLine body).length
  if marker.wellFormed && !marker.rules.isEmpty then
    let rs := resolveScope source body st.seenRealCode marker.rules
    { st with entries := st.entries ++ buildEntries rs source marker.rules }
  else
    match buildMalformed source body with
    | some d => { st with scanDiagnostics := st.scanDiagnostics ++ [d] }
    | none => st

def isBlank (c : Char) : Bool := c == ' ' || c == '\t' || c == '\r' || c == '\n'

/-- The loop of `scan`, at a position. -/
def scanFrom (source : Text) (st : ScanState) : Text → ScanState
  | [] => st
  | c :: cs =>
      match c, cs with
      | '/', '/' :: body =>
          scanFrom source (finalizeLineComment source body st) (endOfLine body)
      | '/', '*' :: body => scanFrom source st (endOfBlock body)
      | c, cs =>
          if isQuote c then scanFrom source { st with seenRealCode := true } (skipStringLiteral c cs)
          else scanFrom source { st with seenRealCode := st.seenRealCode || !isBlank c } cs
  termination_by s => s.length
  decreasing_by
    · have := length_endOfLine_le body
      simp only [List.length_cons]
      omega
    · have := length_endOfBlock_le body
      simp only [List.length_cons]
      omega
    · have := length_skipStringLiteral_le c cs
      simp only [List.length_cons]
      omega
    · exact Nat.lt_succ_self _

/-! ## §5. Look-up. -/

structure SuppressionSet where
  entries : List Suppression
  scanDiagnostics : List ScanDiagnostic
  byRule : Text → List (Nat × Nat)
  wildcard : List (Nat × Nat)

/-- The non-empty ranges of a rule's entries, sorted by their start. -/
def intervals (entries : List Suppression) (ruleId : Text) : List (Nat × Nat) :=
  ((entries.filter fun e => decide (e.byteLo < e.byteHi ∧ e.ruleId = ruleId)).map
    fun e => (e.byteLo, e.byteHi)).mergeSort fun a b => decide (a.1 ≤ b.1)

/-- `index`: wildcard entries are kept apart from the rules' lists. -/
def index (st : ScanState) : SuppressionSet where
  entries := st.entries
  scanDiagnostics := st.scanDiagnostics
  byRule r := if r = kWildcardRule then [] else intervals st.entries r
  wildcard := intervals st.entries kWildcardRule

/-- `SuppressionSet::scan`. -/
def scan (source : Text) : SuppressionSet := index (scanFrom source ⟨[], [], false⟩ source)

/-- `covers`. -/
def covers (byteLo byteHi : Nat) (list : List (Nat × Nat)) : Bool :=
  list.any fun iv =>
    if iv.1 ≤ byteLo ∧ byteLo < iv.2 then true
    else decide (byteLo = byteHi ∧ iv.1 ≤ byteLo ∧ byteLo ≤ iv.2)

/-- `SuppressionSet::suppresses`. -/
def SuppressionSet.suppresses (set : SuppressionSet) (ruleId : Text) (byteLo byteHi : Nat) : Bool :=
  if covers byteLo byteHi set.wildcard then true else covers byteLo byteHi (set.byRule ruleId)

end ShaderClippy.Suppress
