/-
  ShaderClippy.Rules.RayPayload

  **IS A RAY PAYLOAD UNDERCOUNTED?** (`oversized_ray_payload.cpp`)

  The rule adds up the bytes of a struct by a scan over its body, in 32 bits.
  The scan cuts the body behind every semicolon, also behind one in a comment
  (`sumStructSize_eq`), and sees of a piece its first word and its first pair
  of brackets. So of a field it sees one declarator (`Field.seenBytes`), and
  nothing of it behind a comment (`Member.seenBytes`).

  A struct above the limit is above it for the scan exactly where what it sees
  is, modulo 2³² (`payloadLaw_iff`).
-/
import Mathlib
import ShaderClippy.Lib.Lines
import ShaderClippy.Rules.GroupsharedBudget

namespace ShaderClippy.Rules.RayPayload

open GroupsharedBudget (isIdChar isLineBlank isGapChar componentCount matrixDims ElementType Gap Space
  Dimension Declarator MoreDeclarator dimsText)

/-! ## §1. The scan. -/

/-- `k_threshold_bytes`. -/
def kThresholdBytes : Nat := 32

/-- `scalar_size`. -/
def scalarSize (t : Text) : Nat :=
  let startsWith := fun s : String => s.toList.isPrefixOf t
  let times := fun bytes v : Nat => if v = 0 then 0 else bytes * v
  if startsWith "float" then
    let m := matrixDims t 5
    if m ≠ 0 then 4 * m else times 4 (componentCount t 5)
  else if startsWith "uint" && !startsWith "uint64" then times 4 (componentCount t 4)
  else if startsWith "int" && !startsWith "int64" then times 4 (componentCount t 3)
  else if startsWith "bool" then times 4 (componentCount t 4)
  else if startsWith "half" || startsWith "min16" then
    times 2 (componentCount t (if startsWith "half" then 4 else 10))
  else if startsWith "double" then times 8 (componentCount t 6)
  else 0

/-- The loop of `parse_uint`: a character that is no digit makes it 0. -/
def parseUintFrom (v : Nat) : Text → Nat
  | [] => v
  | c :: cs => if c.isDigit then parseUintFrom ((v * 10 + digitValue c) % 2 ^ 32) cs else 0

/-- `parse_uint`. -/
def parseUint (s : Text) : Nat := parseUintFrom 0 s

/-- What the scan skips in front of a statement. -/
def isSkipped (c : Char) : Bool := isGapChar c || c == '{' || c == '}'

/-- The array suffix of a statement: the number in its first brackets, 1 if
there is none. -/
def suffixCount (stmt : Text) : Nat :=
  match stmt.dropWhile (· != '[') with
  | [] => 1
  | _ :: inside =>
      match inside.dropWhile (· != ']') with
      | [] => 1
      | _ =>
          let n := parseUint (Trim.trim isLineBlank (inside.takeWhile (· != ']')))
          if n ≠ 0 then n else 1

/-- What a statement adds to the total. -/
def statementBytes (stmt : Text) : Nat :=
  let per := scalarSize (stmt.takeWhile isIdChar)
  if per = 0 then 0 else per * suffixCount stmt % 2 ^ 32

/-- The loop of `sum_struct_size`, from `pos` on. -/
def sumFrom : Nat → Nat → Text → Nat
  | 0, total, _ => total
  | fuel + 1, total, text =>
      let text := text.dropWhile isSkipped
      match text.dropWhile (· != ';') with
      -- no semicolon
      | [] => total
      | _ :: behind =>
          sumFrom fuel ((total + statementBytes (text.takeWhile (· != ';'))) % 2 ^ 32) behind

/-- `sum_struct_size`. -/
def sumStructSize (bodyText : Text) : Nat := sumFrom (bodyText.length + 1) 0 bodyText

/-- The text between the first `{` and the last `}`. -/
def bodyOf (structText : Text) : Option Text :=
  match structText.dropWhile (· != '{') with
  | [] => none
  | _ :: inside =>
      match inside.reverse.dropWhile (· != '}') with
      | [] => none
      | _ :: body => some body.reverse

/-- The message of `walk`. -/
def payloadMessage (total : Nat) : Text :=
  "struct used as a DXR ray payload is ".toList ++ Nat.toDigits 10 total
    ++ " bytes (> 32-byte register-only ceiling) -- payload spills to the ".toList
    ++ "on-chip ray stack on every `TraceRay`, costing latency on every ".toList
    ++ "leaf-traversal step".toList

/-- `walk` at a `struct_specifier`. -/
def checkStruct (structText : Text) : Option Text :=
  (bodyOf structText).bind fun body =>
    if kThresholdBytes < sumStructSize body then some (payloadMessage (sumStructSize body)) else none

/-! ## §2. Struct bodies. -/

/-- A comment. -/
inductive Comment where
  | line (text : Text) (inLine : '\n' ∉ text)
  | block (text : Text) (inBlock : ¬ ['*', '/'] <:+: text)

def Comment.text : Comment → Text
  | .line text _ => '/' :: '/' :: (text ++ ['\n'])
  | .block text _ => '/' :: '*' :: (text ++ ['*', '/'])

/-- What stands between two fields: blanks, and comments with blanks behind
them. -/
structure Between where
  gap : Gap
  comments : List (Comment × Gap)

def Between.text (b : Between) : Text :=
  b.gap.text ++ b.comments.flatMap fun part => part.1.text ++ part.2.text

/-- `type declarator, …, declarator;`. -/
structure Field where
  type : ElementType
  gap : Space
  first : Declarator
  others : List MoreDeclarator
  close : Gap

/-- The field up to its semicolon. -/
def Field.text (f : Field) : Text :=
  f.type.spelling ++ (f.gap.text ++ (f.first.text
    ++ (f.others.flatMap MoreDeclarator.text ++ f.close.text)))

/-- The bytes of all declarators. -/
def Field.bytes (f : Field) : Nat :=
  f.type.bytes * (f.first.elements + (f.others.map fun m => m.declarator.elements).sum)

/-- A field with what stands in front of it. -/
structure Member where
  before : Between
  field : Field

/-- The member up to its semicolon. -/
def Member.text (m : Member) : Text := m.before.text ++ m.field.text

/-- The body of a struct. -/
structure Body where
  members : List Member
  rest : Between

def membersText (members : List Member) : Text := members.flatMap fun m => m.text ++ [';']

def Body.text (b : Body) : Text := membersText b.members ++ b.rest.text

/-- The exact sum of the field sizes. -/
def Body.bytes (b : Body) : Nat := (b.members.map fun m => m.field.bytes).sum

/-! ## §3. What the scan sees. -/

/-- The dimensions of a field in the order they are written. -/
def Field.dims (f : Field) : List Dimension :=
  f.first.dims ++ f.others.flatMap fun m => m.declarator.dims

/-- The number in the first brackets: not if a line ends beside it, and not 0. -/
def seenCount : List Dimension → Nat
  | [] => 1
  | d :: _ =>
      if d.left.OnLine ∧ d.right.OnLine ∧ decimal d.number.digits % 2 ^ 32 ≠ 0 then
        decimal d.number.digits % 2 ^ 32
      else 1

/-- One declarator, and one dimension of it. -/
def Field.seenBytes (f : Field) : Nat := f.type.seenBytes * seenCount f.dims

/-- Comments without a semicolon. -/
def Between.Unbroken (b : Between) : Prop := ∀ part ∈ b.comments, ';' ∉ part.1.text

instance (b : Between) : Decidable b.Unbroken := List.decidableBAll _ _

/-- A piece of a text, as the statement it is read for. -/
def pieceBytes (piece : Text) : Nat := statementBytes (piece.dropWhile isSkipped)

/-- Behind a comment nothing is seen of a field; but if the comment has a
semicolon, what stands behind that is read for a statement. -/
def Member.seenBytes (m : Member) : Nat :=
  if m.before.comments = [] then m.field.seenBytes
  else if m.before.Unbroken then 0
  else ((Lines.split ';' m.text).map pieceBytes).sum

/-- The same of the comments behind the last field. -/
def Between.seenBytes (b : Between) : Nat :=
  if b.Unbroken then 0 else ((Lines.split ';' b.text).dropLast.map pieceBytes).sum

/-- All the scan sees. -/
def Body.seenBytes (b : Body) : Nat := (b.members.map Member.seenBytes).sum + b.rest.seenBytes

/-! ## §4. The scan goes from semicolon to semicolon. -/

/-- The pieces of a text that a semicolon ends. -/
def pieces (text : Text) : List Text := (Lines.split ';' text).dropLast

theorem pieces_unbroken {text : Text} (h : ';' ∉ text) : pieces text = [] := by
  unfold pieces
  rw [Lines.split_of_unbroken ';' h]
  rfl

theorem pieces_append (s t : Text) : pieces (s ++ ';' :: t) = Lines.split ';' s ++ pieces t := by
  unfold pieces
  rw [Lines.split_append_break, List.dropLast_append_of_ne_nil (Lines.split_ne_nil ';' t)]

theorem skipped_ne {c : Char} (h : isSkipped c = true) : c ≠ ';' := by
  intro hc
  rw [hc] at h
  exact absurd h (by decide)

/-- **The sum of the pieces.** -/
theorem sumFrom_eq : ∀ {fuel total : Nat} {text : Text}, text.length < fuel →
    sumFrom fuel (total % 2 ^ 32) text
      = (total + ((pieces text).map pieceBytes).sum) % 2 ^ 32 := by
  intro fuel
  induction fuel with
  | zero => exact fun h => absurd h (Nat.not_lt_zero _)
  | succ fuel ih =>
      intro total text hfuel
      have hsplit := List.takeWhile_append_dropWhile (p := isSkipped) (l := text)
      have hblank : ∀ c ∈ text.takeWhile isSkipped, isSkipped c = true :=
        fun c hc => List.mem_takeWhile_imp hc
      have hskipped : ';' ∉ text.takeWhile isSkipped := fun h => skipped_ne (hblank _ h) rfl
      have hhead := List.head?_dropWhile_not isSkipped text
      rw [sumFrom]
      generalize text.takeWhile isSkipped = blanks at hsplit hblank hskipped
      generalize text.dropWhile isSkipped = t at hsplit hhead ⊢
      have hseg := List.takeWhile_append_dropWhile (p := (· != ';')) (l := t)
      have hno : ';' ∉ t.takeWhile (· != ';') := fun h => by
        have hne := List.mem_takeWhile_imp h
        exact absurd hne (by decide)
      cases hbehind : t.dropWhile (· != ';') with
      | nil =>
          rw [hbehind, List.append_nil] at hseg
          have hwhole : ';' ∉ text := by
            rw [← hsplit, ← hseg, List.mem_append]
            exact fun h => h.elim hskipped hno
          show total % 2 ^ 32 = _
          rw [pieces_unbroken hwhole]
          rfl
      | cons c behind =>
          have hc : c = ';' := by
            have hstop := List.head?_dropWhile_not (· != ';') t
            rw [hbehind] at hstop
            simpa using hstop
          rw [hbehind, hc] at hseg
          have htext : text = (blanks ++ t.takeWhile (· != ';')) ++ ';' :: behind := by
            rw [List.append_assoc, hseg, hsplit]
          have hpiece : pieceBytes (blanks ++ t.takeWhile (· != ';'))
              = statementBytes (t.takeWhile (· != ';')) := by
            unfold pieceBytes
            rw [List.dropWhile_append_of_pos hblank, Trim.dropWhile_head]
            intro d hd
            have hfirst : t.head? = some d := by
              have happend := congrArg List.head? hseg
              rw [List.head?_append, hd] at happend
              exact happend.symm
            rw [hfirst] at hhead
            simpa using hhead
          have hunbroken : ';' ∉ blanks ++ t.takeWhile (· != ';') := by
            rw [List.mem_append]
            exact fun h => h.elim hskipped hno
          have hlen : behind.length < fuel := by
            rw [htext, List.length_append, List.length_cons] at hfuel
            omega
          show sumFrom fuel ((total % 2 ^ 32 + statementBytes (t.takeWhile (· != ';'))) % 2 ^ 32) behind
            = _
          rw [ih hlen, htext, pieces_append, Lines.split_of_unbroken ';' hunbroken,
            List.map_append, List.sum_append, List.map_singleton, List.sum_singleton, hpiece,
            ← Nat.add_assoc, Nat.add_assoc (total % 2 ^ 32), Nat.mod_add_mod, Nat.add_assoc]

theorem sumStructSize_eq (bodyText : Text) :
    sumStructSize bodyText = ((pieces bodyText).map pieceBytes).sum % 2 ^ 32 := by
  have h := @sumFrom_eq (bodyText.length + 1) 0 bodyText (by omega)
  rw [Nat.zero_add] at h
  exact h

/-! ## §5. The characters of a field. -/

/-- The characters that fields are written with. -/
def isFieldChar (c : Char) : Bool :=
  isIdChar c || isGapChar c || c == '[' || c == ']' || c == ','

theorem gap_fieldChar (g : Gap) : ∀ c ∈ g.text, isFieldChar c = true := by
  intro c hc
  unfold isFieldChar
  rw [g.blank c hc]
  simp

theorem word_fieldChar {w : Text} (h : ∀ c ∈ w, isIdChar c = true) :
    ∀ c ∈ w, isFieldChar c = true := by
  intro c hc
  unfold isFieldChar
  rw [h c hc]
  rfl

theorem dims_fieldChar (dims : List Dimension) : ∀ c ∈ dimsText dims, isFieldChar c = true := by
  intro c hc
  obtain ⟨d, _, hc⟩ := List.mem_flatMap.mp hc
  have hnumber : ∀ c ∈ d.number.digits, isFieldChar c = true :=
    word_fieldChar fun c hc => GroupsharedBudget.digit_word (d.number.decimal c hc)
  simp only [Dimension.text, List.mem_append, List.mem_cons, List.not_mem_nil, or_false] at hc
  obtain hc | rfl | ((hc | hc) | hc) | rfl := hc
  · exact gap_fieldChar d.gap c hc
  · rfl
  · exact gap_fieldChar d.left c hc
  · exact hnumber c hc
  · exact gap_fieldChar d.right c hc
  · rfl

theorem declarator_fieldChar (d : Declarator) : ∀ c ∈ d.text, isFieldChar c = true := by
  intro c hc
  obtain hc | hc := List.mem_append.mp hc
  · exact word_fieldChar d.name.word c hc
  · exact dims_fieldChar d.dims c hc

theorem others_fieldChar (others : List MoreDeclarator) :
    ∀ c ∈ others.flatMap MoreDeclarator.text, isFieldChar c = true := by
  intro c hc
  obtain ⟨m, _, hc⟩ := List.mem_flatMap.mp hc
  simp only [MoreDeclarator.text, List.mem_append, List.mem_cons] at hc
  obtain hc | rfl | hc | hc := hc
  · exact gap_fieldChar m.before c hc
  · rfl
  · exact gap_fieldChar m.behind c hc
  · exact declarator_fieldChar m.declarator c hc

theorem field_fieldChar (f : Field) : ∀ c ∈ f.text, isFieldChar c = true := by
  intro c hc
  unfold Field.text at hc
  simp only [List.mem_append] at hc
  obtain hc | hc | hc | hc | hc := hc
  · exact word_fieldChar (GroupsharedBudget.spelling_word f.type).1 c hc
  · exact gap_fieldChar f.gap.toGap c hc
  · exact declarator_fieldChar f.first c hc
  · exact others_fieldChar f.others c hc
  · exact gap_fieldChar f.close c hc

theorem not_mem_of_fieldChar {t : Text} (h : ∀ c ∈ t, isFieldChar c = true) : ';' ∉ t :=
  fun hc => absurd (h _ hc) (by decide)

/-! ## §6. The first brackets. -/

/-- What stands between the brackets. -/
def innerText (d : Dimension) : Text := d.left.text ++ d.number.digits ++ d.right.text

/-- The first brackets of the text are those of the first dimension. -/
def Opens (t : Text) : List Dimension → Prop
  | [] => '[' ∉ t
  | d :: _ => ∃ front more, t = front ++ '[' :: (innerText d ++ ']' :: more) ∧ '[' ∉ front

theorem Opens.prepend {s t : Text} {ds : List Dimension} (hs : '[' ∉ s) (ht : Opens t ds) :
    Opens (s ++ t) ds := by
  cases ds with
  | nil =>
      show '[' ∉ s ++ t
      rw [List.mem_append]
      exact fun h => h.elim hs ht
  | cons d ds =>
      obtain ⟨front, more, rfl, hfront⟩ := ht
      refine ⟨s ++ front, more, (List.append_assoc ..).symm, ?_⟩
      rw [List.mem_append]
      exact fun h => h.elim hs hfront

theorem Opens.append {s t : Text} {ds es : List Dimension} (hs : Opens s ds) (ht : Opens t es) :
    Opens (s ++ t) (ds ++ es) := by
  cases ds with
  | nil => exact ht.prepend hs
  | cons d ds =>
      obtain ⟨front, more, rfl, hfront⟩ := hs
      refine ⟨front, more ++ t, ?_, hfront⟩
      simp only [List.append_assoc, List.cons_append]

theorem word_bracket {w : Text} (h : ∀ c ∈ w, isIdChar c = true) : '[' ∉ w :=
  fun hc => absurd (h _ hc) (by decide)

theorem gap_bracket (g : Gap) : '[' ∉ g.text := fun hc => absurd (g.blank _ hc) (by decide)

theorem opens_dims (dims : List Dimension) : Opens (dimsText dims) dims := by
  cases dims with
  | nil => exact List.not_mem_nil
  | cons d ds =>
      -- only blanks stand in front of the first bracket
      refine ⟨d.gap.text, dimsText ds, ?_, gap_bracket d.gap⟩
      unfold dimsText
      rw [List.flatMap_cons, Dimension.text]
      simp [innerText]

theorem opens_declarator (d : Declarator) : Opens d.text d.dims :=
  (opens_dims d.dims).prepend (word_bracket d.name.word)

theorem opens_others (others : List MoreDeclarator) :
    Opens (others.flatMap MoreDeclarator.text) (others.flatMap fun m => m.declarator.dims) := by
  induction others with
  | nil => exact List.not_mem_nil
  | cons m ms ih =>
      -- a comma, blanks and a name hold no bracket
      have hcomma : '[' ∉ [','] := by decide
      have hone : Opens m.text m.declarator.dims :=
        (((opens_declarator m.declarator).prepend (gap_bracket m.behind)).prepend hcomma).prepend
          (gap_bracket m.before)
      rw [List.flatMap_cons, List.flatMap_cons]
      exact hone.append ih

theorem opens_field (f : Field) : Opens f.text f.dims := by
  have hclose : Opens f.close.text [] := gap_bracket f.close
  have hall := ((opens_declarator f.first).append ((opens_others f.others).append hclose)).prepend
    (gap_bracket f.gap.toGap)
  rw [List.append_nil] at hall
  exact hall.prepend (word_bracket (GroupsharedBudget.spelling_word f.type).1)

theorem parseUintFrom_digits {ds : Text} (h : ∀ c ∈ ds, c.isDigit = true) :
    ∀ v, parseUintFrom v ds = (ds.map digitValue).foldl (fun v d => (v * 10 + d) % 2 ^ 32) v := by
  induction ds with
  | nil => exact fun _ => rfl
  | cons c cs ih =>
      intro v
      rw [parseUintFrom, if_pos (h c List.mem_cons_self),
        ih fun d hd => h d (List.mem_cons_of_mem c hd)]
      rfl

/-- A number is read modulo 2³². -/
theorem parseUint_digits {ds : Text} (h : ∀ c ∈ ds, c.isDigit = true) :
    parseUint ds = decimal ds % 2 ^ 32 := by
  unfold parseUint
  rw [parseUintFrom_digits h, DigitRegister.foldl_wrap, decimal_eq_value]

/-- Anything else counts 0. -/
theorem parseUint_other {s : Text} {c : Char} (hc : c ∈ s) (hdigit : c.isDigit = false) :
    parseUint s = 0 := by
  have hfrom : ∀ v, parseUintFrom v s = 0 := by
    induction s with
    | nil => exact absurd hc List.not_mem_nil
    | cons d ds ih =>
        intro v
        rw [parseUintFrom]
        by_cases hd : d.isDigit = true
        · obtain rfl | htail := List.mem_cons.mp hc
          · rw [hd] at hdigit
            exact absurd hdigit nofun
          · rw [if_pos hd]
            exact ih htail _
        · rw [if_neg hd]
  exact hfrom 0

/-- What is left between the brackets: the number if no line ends there. -/
theorem parseUint_inner (d : Dimension) :
    parseUint (Trim.trim isLineBlank (innerText d))
      = if d.left.OnLine ∧ d.right.OnLine then decimal d.number.digits % 2 ^ 32 else 0 := by
  by_cases hline : d.left.OnLine ∧ d.right.OnLine
  · have hdigit : ∀ c ∈ d.number.digits, isLineBlank c = false := by
      intro c hc
      have hd := d.number.decimal c hc
      by_contra hblank
      obtain rfl | rfl := GroupsharedBudget.isLineBlank_iff.mp (Bool.eq_true_of_not_eq_false hblank)
      · exact absurd hd (by decide)
      · exact absurd hd (by decide)
    -- both gaps are trimmed
    have hpadded : Trim.Padded isLineBlank (innerText d) d.number.digits :=
      ⟨⟨fun c hc => hdigit c (List.mem_of_head? hc), fun c hc => hdigit c (List.mem_of_getLast? hc)⟩,
        _, _, hline.1, hline.2, rfl⟩
    rw [if_pos hline, Trim.trim_padded hpadded, parseUint_digits d.number.decimal]
  · -- the blank that ends the line is not trimmed
    obtain ⟨c, hc, hblank, hdigit⟩ : ∃ c ∈ innerText d, isLineBlank c = false ∧ c.isDigit = false := by
      -- one of the gaps ends the line
      have hgap : ∀ g : Gap, ¬ g.OnLine → ∃ c ∈ g.text, isLineBlank c = false ∧ c.isDigit = false := by
        intro g hg
        unfold Gap.OnLine at hg
        push Not at hg
        obtain ⟨c, hc, hno⟩ := hg
        refine ⟨c, hc, Bool.eq_false_iff.mpr hno, ?_⟩
        obtain (rfl | rfl) | (rfl | rfl) := GroupsharedBudget.isGapChar_iff.mp (g.blank c hc)
        all_goals rfl
      obtain h | h := not_and_or.mp hline
      · obtain ⟨c, hc, hno⟩ := hgap _ h
        exact ⟨c, List.mem_append_left _ (List.mem_append_left _ hc), hno⟩
      · obtain ⟨c, hc, hno⟩ := hgap _ h
        exact ⟨c, List.mem_append_right _ hc, hno⟩
    obtain ⟨a, b, ha, hb, hsplit⟩ := (Trim.padded_trim (p := isLineBlank) (innerText d)).around
    -- and so it is still there after the trim
    have hkept : c ∈ Trim.trim isLineBlank (innerText d) := by
      rw [hsplit, List.mem_append, List.mem_append] at hc
      obtain (hc | hc) | hc := hc
      · rw [ha c hc] at hblank
        exact absurd hblank nofun
      · exact hc
      · rw [hb c hc] at hblank
        exact absurd hblank nofun
    rw [if_neg hline, parseUint_other hkept hdigit]

/-- **The array suffix is the first dimension**, if it is read at all. -/
theorem suffixCount_opens {t : Text} {ds : List Dimension} (h : Opens t ds) :
    suffixCount t = seenCount ds := by
  have hbefore : ∀ {c : Char} {s : Text}, c ∉ s → ∀ x ∈ s, (x != c) = true :=
    fun hno x hx => bne_iff_ne.mpr fun heq => hno (heq ▸ hx)
  unfold suffixCount
  cases ds with
  | nil =>
      have hnone : t.dropWhile (· != '[') = [] := List.dropWhile_eq_nil_iff.mpr (hbefore h)
      rw [hnone]
      rfl
  | cons d ds =>
      obtain ⟨front, more, rfl, hfront⟩ := h
      have hinner : ∀ x ∈ innerText d, (x != ']') = true :=
        hbefore (GroupsharedBudget.inner_bracket d)
      -- the search stops at the first bracket, and then at the one that closes it
      have hopen : (front ++ '[' :: (innerText d ++ ']' :: more)).dropWhile (· != '[')
          = '[' :: (innerText d ++ ']' :: more) := by
        rw [List.dropWhile_append_of_pos (hbefore hfront)]
        rfl
      have hclose : (innerText d ++ ']' :: more).dropWhile (· != ']') = ']' :: more := by
        rw [List.dropWhile_append_of_pos hinner]
        rfl
      have htake : (innerText d ++ ']' :: more).takeWhile (· != ']') = innerText d := by
        rw [List.takeWhile_append_of_pos hinner]
        exact List.append_nil _
      rw [hopen]
      show (match (innerText d ++ ']' :: more).dropWhile (· != ']') with
        | [] => 1
        | _ => _) = _
      rw [hclose, htake]
      show (if parseUint (Trim.trim isLineBlank (innerText d)) ≠ 0
          then parseUint (Trim.trim isLineBlank (innerText d)) else 1)
        = if d.left.OnLine ∧ d.right.OnLine ∧ decimal d.number.digits % 2 ^ 32 ≠ 0
          then decimal d.number.digits % 2 ^ 32 else 1
      rw [parseUint_inner]
      -- what is read counts unless it is 0
      by_cases hline : d.left.OnLine ∧ d.right.OnLine
      · rw [if_pos hline]
        by_cases hzero : decimal d.number.digits % 2 ^ 32 = 0
        · rw [if_neg (not_not.mpr hzero), if_neg fun h => h.2.2 hzero]
        · rw [if_pos hzero, if_pos ⟨hline.1, hline.2, hzero⟩]
      · rw [if_neg hline, if_neg (not_not.mpr rfl), if_neg fun h => hline ⟨h.1, h.2.1⟩]

/-! ## §7. What a member is seen for. -/

/-- **What `scalar_size` takes an element for.** -/
theorem scalarSize_spelling (type : ElementType) : scalarSize type.spelling = type.seenBytes := by
  obtain ⟨kind, shape⟩ := type
  cases shape with
  | scalar => cases kind <;> decide
  | vector n =>
      revert n
      cases kind <;> decide
  | matrix rows columns =>
      revert rows columns
      cases kind <;> decide

theorem statementBytes_field (f : Field) : statementBytes f.text = f.seenBytes % 2 ^ 32 := by
  have hbreaks : Words.Breaks isIdChar (f.gap.text ++ (f.first.text
      ++ (f.others.flatMap MoreDeclarator.text ++ f.close.text))) := by
    obtain ⟨c, cs, hcons⟩ := List.exists_cons_of_ne_nil f.gap.nonempty
    refine ⟨c, _, by rw [hcons]; rfl, f.gap.separators c ?_⟩
    rw [hcons]
    exact List.mem_cons_self
  have hword : f.text.takeWhile isIdChar = f.type.spelling :=
    Words.takeWhile_word (GroupsharedBudget.spelling_word f.type).1 hbreaks
  unfold statementBytes
  rw [hword, scalarSize_spelling, suffixCount_opens (opens_field f)]
  show (if f.type.seenBytes = 0 then 0 else f.seenBytes % 2 ^ 32) = _
  split
  case isTrue hzero =>
    have hseen : f.seenBytes = 0 := by
      unfold Field.seenBytes
      rw [hzero, Nat.zero_mul]
    omega
  case isFalse => rfl

theorem gap_skipped (g : Gap) : ∀ c ∈ g.text, isSkipped c = true := by
  intro c hc
  unfold isSkipped
  rw [g.blank c hc]
  rfl

/-- A field behind blanks. -/
theorem pieceBytes_gap (g : Gap) (f : Field) : pieceBytes (g.text ++ f.text) = f.seenBytes % 2 ^ 32 := by
  obtain ⟨c, cs, hcons, hc, _⟩ := (GroupsharedBudget.spelling_word f.type).2.2
  -- a type name starts with no character that is skipped
  have hkeep : f.text.dropWhile isSkipped = f.text := by
    refine Trim.dropWhile_head fun d hd => ?_
    have hfirst : c = d := by
      unfold Field.text at hd
      rw [hcons] at hd
      exact Option.some.inj hd
    rw [← hfirst]
    by_contra hskip
    have hcase : c = '{' ∨ c = '}' ∨ isGapChar c = true := by
      have hor := Bool.eq_true_of_not_eq_false hskip
      simp only [isSkipped, Bool.or_eq_true, beq_iff_eq] at hor
      tauto
    obtain rfl | rfl | hgap := hcase
    · exact absurd hc (by decide)
    · exact absurd hc (by decide)
    · rw [GroupsharedBudget.gapChar_separator hgap] at hc
      exact absurd hc nofun
  unfold pieceBytes
  rw [List.dropWhile_append_of_pos (gap_skipped g), hkeep, statementBytes_field]

/-- What begins with a slash is no statement. -/
theorem pieceBytes_slash (g : Gap) (t : Text) : pieceBytes (g.text ++ '/' :: t) = 0 := by
  unfold pieceBytes
  rw [List.dropWhile_append_of_pos (gap_skipped g)]
  rfl

theorem Comment.text_slash (c : Comment) : ∃ t, c.text = '/' :: t := by
  cases c with
  | line text _ => exact ⟨_, rfl⟩
  | block text _ => exact ⟨_, rfl⟩

/-- Blanks, or a slash behind them. -/
theorem Between.text_cases (b : Between) :
    (b.comments = [] ∧ b.text = b.gap.text)
      ∨ (b.comments ≠ [] ∧ ∃ t, b.text = b.gap.text ++ '/' :: t) := by
  unfold Between.text
  cases hcomments : b.comments with
  | nil => exact Or.inl ⟨rfl, List.append_nil _⟩
  | cons part parts =>
      obtain ⟨t, ht⟩ := part.1.text_slash
      refine Or.inr ⟨nofun, t ++ (part.2.text
        ++ parts.flatMap fun part => part.1.text ++ part.2.text), ?_⟩
      rw [List.flatMap_cons, ht]
      simp only [List.append_assoc, List.cons_append]

theorem Between.unbroken_text {b : Between} (h : b.Unbroken) : ';' ∉ b.text := by
  unfold Between.text
  rw [List.mem_append, List.mem_flatMap]
  have hgap : ∀ g : Gap, ';' ∉ g.text := fun g => not_mem_of_fieldChar (gap_fieldChar g)
  intro hmem
  obtain hmem | ⟨part, hpart, hmem⟩ := hmem
  · exact hgap b.gap hmem
  · obtain hmem | hmem := List.mem_append.mp hmem
    · exact h part hpart hmem
    · exact hgap part.2 hmem

/-- **What the scan takes a member for.** -/
theorem member_seen (m : Member) :
    ((Lines.split ';' m.text).map pieceBytes).sum % 2 ^ 32 = m.seenBytes % 2 ^ 32 := by
  -- without a semicolon in front the member is one piece
  have hone : ';' ∉ m.before.text →
      ((Lines.split ';' m.text).map pieceBytes).sum = pieceBytes m.text := by
    intro hno
    have hwhole : ';' ∉ m.text := by
      unfold Member.text
      rw [List.mem_append]
      exact fun h => h.elim hno (not_mem_of_fieldChar (field_fieldChar m.field))
    rw [Lines.split_of_unbroken ';' hwhole]
    exact List.sum_singleton
  unfold Member.seenBytes
  obtain ⟨hnone, htext⟩ | ⟨hsome, t, htext⟩ := m.before.text_cases
  · have hunbroken : m.before.Unbroken := by
      intro part hpart
      rw [hnone] at hpart
      exact absurd hpart List.not_mem_nil
    rw [if_pos hnone, hone (Between.unbroken_text hunbroken)]
    unfold Member.text
    rw [htext, pieceBytes_gap, Nat.mod_mod]
  · -- a comment makes the piece count 0
    rw [if_neg hsome]
    split
    case isFalse => rfl
    case isTrue hunbroken =>
      rw [hone (Between.unbroken_text hunbroken)]
      unfold Member.text
      rw [htext, List.append_assoc]
      exact congrArg (· % 2 ^ 32) (pieceBytes_slash m.before.gap (t ++ m.field.text))

/-! ## §8. The body. -/

theorem pieces_members (members : List Member) (rest : Text) :
    pieces (membersText members ++ rest)
      = members.flatMap (fun m => Lines.split ';' m.text) ++ pieces rest := by
  induction members with
  | nil => rfl
  | cons m ms ih =>
      have hsplit : membersText (m :: ms) ++ rest = m.text ++ ';' :: (membersText ms ++ rest) := by
        simp [membersText]
      rw [hsplit, pieces_append, ih, List.flatMap_cons, List.append_assoc]

theorem members_seen (members : List Member) :
    ((members.flatMap fun m => Lines.split ';' m.text).map pieceBytes).sum % 2 ^ 32
      = (members.map Member.seenBytes).sum % 2 ^ 32 := by
  induction members with
  | nil => rfl
  | cons m ms ih =>
      rw [List.flatMap_cons, List.map_append, List.sum_append, List.map_cons, List.sum_cons,
        Nat.add_mod, ih, member_seen, ← Nat.add_mod]

theorem rest_seen (b : Between) : ((pieces b.text).map pieceBytes).sum = b.seenBytes := by
  unfold Between.seenBytes
  split
  case isFalse => rfl
  case isTrue hunbroken =>
    rw [pieces_unbroken (Between.unbroken_text hunbroken)]
    rfl

/-- **The sum is what is seen, in 32 bits.** -/
theorem sumStructSize_body (b : Body) : sumStructSize b.text = b.seenBytes % 2 ^ 32 := by
  unfold Body.text Body.seenBytes
  rw [sumStructSize_eq, pieces_members, List.map_append, List.sum_append, rest_seen, Nat.add_mod,
    members_seen, ← Nat.add_mod]

/-- If the fields exceed the limit, so does the computed sum. -/
def PayloadLaw (b : Body) : Prop :=
  kThresholdBytes < b.bytes → kThresholdBytes < sumStructSize b.text

/-- **A payload is not undercounted IF AND ONLY IF its fields keep to the limit,
or what is seen of them exceeds it modulo 2³².** -/
theorem payloadLaw_iff (b : Body) :
    PayloadLaw b ↔ b.bytes ≤ kThresholdBytes ∨ kThresholdBytes < b.seenBytes % 2 ^ 32 := by
  unfold PayloadLaw
  rw [sumStructSize_body]
  omega

/-! ## §9. Bodies that are counted as they are. -/

/-- One declarator of at most one dimension, with no line end in its brackets
and not zero; a matrix only of `float`; no comment in front. -/
structure Member.Plain (m : Member) : Prop where
  uncommented : m.before.comments = []
  single : m.field.others = []
  type : m.field.type.kind = .float ∨ ∀ rows columns, m.field.type.shape ≠ .matrix rows columns
  dims : m.field.first.dims = [] ∨ ∃ d, m.field.first.dims = [d] ∧ d.left.OnLine ∧ d.right.OnLine
    ∧ 0 < decimal d.number.digits ∧ decimal d.number.digits < 2 ^ 32

/-- A plain member is seen as a whole. -/
theorem seenBytes_plain {m : Member} (h : m.Plain) : m.seenBytes = m.field.bytes := by
  -- its dimension is the one that is read
  have hcount : seenCount m.field.dims = m.field.first.elements := by
    unfold Field.dims Declarator.elements
    rw [h.single]
    obtain hnone | ⟨d, hone, hleft, hright, hpos, hsmall⟩ := h.dims
    · rw [hnone]
      rfl
    · rw [hone]
      show (if _ ∧ _ ∧ _ then decimal d.number.digits % 2 ^ 32 else 1) = _
      have hmod := Nat.mod_eq_of_lt hsmall
      rw [if_pos ⟨hleft, hright, by omega⟩, hmod]
      exact (Nat.mul_one _).symm
  unfold Member.seenBytes Field.bytes
  rw [if_pos h.uncommented, Field.seenBytes, hcount, GroupsharedBudget.seenBytes_type h.type, h.single]
  rfl

/-- **Of plain members nothing is lost but what 32 bits cannot hold.** -/
theorem payloadLaw_plain {b : Body} (hplain : ∀ m ∈ b.members, m.Plain) (hrest : b.rest.Unbroken)
    (hsmall : b.bytes < 2 ^ 32) : sumStructSize b.text = b.bytes ∧ PayloadLaw b := by
  -- nothing of the members is unseen, and the rest counts 0
  have hseen : b.seenBytes = b.bytes := by
    unfold Body.seenBytes Body.bytes Between.seenBytes
    rw [if_pos hrest, Nat.add_zero]
    congr 1
    exact List.map_congr_left fun m hm => seenBytes_plain (hplain m hm)
  have hsum : sumStructSize b.text = b.bytes := by
    rw [sumStructSize_body, hseen, Nat.mod_eq_of_lt hsmall]
  refine ⟨hsum, fun hlimit => ?_⟩
  rw [hsum]
  exact hlimit

/-- A name of one letter. -/
def letter (c : Char) (h : isIdChar c = true) : GroupsharedBudget.Name :=
  ⟨[c], nofun, fun _ hx => List.mem_singleton.mp hx ▸ h, fun h => nomatch h⟩

/-- `float4 a, b, c;`. -/
def threeVectors : Body where
  members :=
    [{ before := ⟨GroupsharedBudget.noGap, []⟩
       field :=
        { type := ⟨.float, .vector 3⟩
          gap := GroupsharedBudget.oneSpace
          first := ⟨letter 'a' rfl, []⟩
          others :=
            [⟨GroupsharedBudget.noGap, GroupsharedBudget.oneSpace.toGap, ⟨letter 'b' rfl, []⟩⟩,
              ⟨GroupsharedBudget.noGap, GroupsharedBudget.oneSpace.toGap, ⟨letter 'c' rfl, []⟩⟩]
          close := GroupsharedBudget.noGap } }]
  rest := ⟨GroupsharedBudget.noGap, []⟩

/-- **One vector is counted for three**: 16 bytes for 48. -/
theorem threeVectors_undercounted :
    threeVectors.text = "float4 a, b, c;".toList
      ∧ threeVectors.bytes = 48 ∧ sumStructSize threeVectors.text = 16 ∧ ¬ PayloadLaw threeVectors := by
  have hbytes : threeVectors.bytes = 48 := by decide
  have hsum : sumStructSize threeVectors.text = 16 := by
    rw [sumStructSize_body]
    decide
  refine ⟨by decide, hbytes, hsum, fun hlaw => ?_⟩
  have hover := hlaw (by rw [hbytes]; decide)
  rw [hsum] at hover
  exact absurd hover (by decide)

end ShaderClippy.Rules.RayPayload
