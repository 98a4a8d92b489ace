/-
  ShaderClippy.Rules.GroupsharedBudget

  **IS GROUP-SHARED MEMORY UNDERCOUNTED?**
  (`groupshared_over_32k_without_attribute.cpp`)

  The rule adds up the bytes of the `groupshared` declarations of a source by a
  scan over its text, in 32 bits. Declarations are modelled as they are
  written, with any blanks between their parts; what the scan sees of one is
  `seenBytes`: the first declarator, as far as it stands on the line of the
  keyword. The total is the sum of these modulo 2³²
  (`totalGroupsharedBytes_source`), so the budget is not undercounted exactly
  where that sum is above the limit or the declarations are not
  (`budgetLaw_iff`).
-/
import Mathlib
import ShaderClippy.Lib.Trim
import ShaderClippy.Lib.Words
import ShaderClippy.Rules.DigitLoop

namespace ShaderClippy.Rules.GroupsharedBudget

open Words (Breaks Quiet Closing)

/-! ## §1. The scan. -/

def kDefaultLimit : Nat := 32 * 1024

def kKw : Text := "groupshared".toList

/-- `is_id_char`. -/
def isIdChar (c : Char) : Bool :=
  ('a' ≤ c && c ≤ 'z') || ('A' ≤ c && c ≤ 'Z') || ('0' ≤ c && c ≤ '9') || c == '_'

/-- What `trim` takes off. -/
def isTrimmed (c : Char) : Bool := c == ' ' || c == '\t' || c == '\n'

/-- What the scan skips between the parts of a declaration. -/
def isLineBlank (c : Char) : Bool := c == ' ' || c == '\t'

/-- A digit of a vector or matrix type. -/
def isComponentDigit (c : Char) : Bool := '1' ≤ c && c ≤ '4'

/-- `component_count`. -/
def componentCount (t : Text) (prefixLen : Nat) : Nat :=
  match t.drop prefixLen with
  | [] => 1
  | c :: _ => if isComponentDigit c then digitValue c else 0

/-- `matrix_dims`. -/
def matrixDims (t : Text) (prefixLen : Nat) : Nat :=
  match t.drop prefixLen with
  | r :: x :: c :: _ =>
      if isComponentDigit r && x == 'x' && isComponentDigit c then digitValue r * digitValue c else 0
  | _ => 0

/-- `sizeof_scalar`. -/
def sizeofScalar (t : Text) : Nat :=
  let startsWith := fun s : String => s.toList.isPrefixOf t
  let times := fun bytes v : Nat => if v = 0 then 0 else bytes * v
  if startsWith "float" then
    let m := matrixDims t 5
    if m ≠ 0 then 4 * m else times 4 (componentCount t 5)
  else if startsWith "uint" && !startsWith "uint64" then times 4 (componentCount t 4)
  else if startsWith "int" && !startsWith "int64" then times 4 (componentCount t 3)
  else if startsWith "bool" then times 4 (componentCount t 4)
  else if startsWith "half" then times 2 (componentCount t 4)
  else if startsWith "double" then times 8 (componentCount t 6)
  else 0

/-- A place in the source: the character in front of it, and what is behind. -/
structure Cursor where
  prev : Option Char
  rest : Text

/-- The cursor behind the characters that `p` holds of. -/
def skipFrom (p : Char → Bool) : Option Char → Text → Cursor
  | prev, [] => ⟨prev, []⟩
  | prev, c :: cs => if p c then skipFrom p (some c) cs else ⟨prev, c :: cs⟩

def Cursor.skipWhile (k : Cursor) (p : Char → Bool) : Cursor := skipFrom p k.prev k.rest

/-- The search for the keyword: the cursor behind it. -/
def Cursor.find (k : Cursor) : Option Cursor :=
  (Words.find isIdChar kKw (k.prev.any isIdChar) k.rest).map fun rest => ⟨kKw.getLast?, rest⟩

def kVolatile : Text := "volatile".toList

/-- `volatile`, and the blanks behind it. -/
def skipVolatile (k : Cursor) : Cursor :=
  if kVolatile.isPrefixOf k.rest then
    (⟨some 'e', k.rest.drop 8⟩ : Cursor).skipWhile isLineBlank
  else k

/-- The digits of a dimension, in 32 bits. -/
def dimensionValue (digits : Text) : Nat :=
  (digits.map digitValue).foldl (fun v d => (v * 10 + d) % 2 ^ 32) 0

/-- The loop over the dimensions: the number of elements, in 32 bits. -/
def scanDims : Nat → Nat → Cursor → Nat × Cursor
  | 0, count, k => (count, k)
  | fuel + 1, count, k =>
      match k.rest with
      | '[' :: inside =>
          match inside.dropWhile (· != ']') with
          -- no closing bracket
          | [] => (count, ⟨some '[', []⟩)
          | close :: behind =>
              let digits := Trim.trim isTrimmed (inside.takeWhile (· != ']'))
              if digits.isEmpty || !digits.all Char.isDigit then (0, ⟨some '[', close :: behind⟩)
              else scanDims fuel (count * dimensionValue digits % 2 ^ 32) ⟨some close, behind⟩
      | _ => (count, k)

/-- The turn of the loop for one declaration, behind the keyword: its bytes, and
where the search goes on. -/
def scanDeclaration (k : Cursor) : Nat × Cursor :=
  let k := skipVolatile (k.skipWhile isLineBlank)
  let typeText := k.rest.takeWhile isIdChar
  let k := ((k.skipWhile isIdChar).skipWhile isLineBlank).skipWhile isIdChar
  let (elementCount, k) := scanDims (k.rest.length + 1) 1 k
  let perElem := sizeofScalar typeText
  (if perElem ≠ 0 ∧ elementCount ≠ 0 then perElem * elementCount % 2 ^ 32 else 0, k)

/-- The loop of `total_groupshared_bytes`. -/
def totalFrom : Nat → Nat → Cursor → Nat
  | 0, total, _ => total
  | fuel + 1, total, k =>
      match k.find with
      | none => total
      | some k =>
          let (bytes, k) := scanDeclaration k
          totalFrom fuel ((total + bytes) % 2 ^ 32) k

/-- `total_groupshared_bytes`. -/
def totalGroupsharedBytes (bytes : Text) : Nat := totalFrom (bytes.length + 1) 0 ⟨none, bytes⟩

/-! ## §2. Declarations. -/

/-- A blank in a source. -/
def isGapChar (c : Char) : Bool := c == ' ' || c == '\t' || c == '\n' || c == '\r'

structure Gap where
  text : Text
  blank : ∀ c ∈ text, isGapChar c = true

/-- A gap that keeps two words apart. -/
structure Space extends Gap where
  nonempty : text ≠ []

/-- A name: another word than the keyword. -/
structure Name where
  text : Text
  nonempty : text ≠ []
  word : ∀ c ∈ text, isIdChar c = true
  other : text ≠ kKw

/-- A decimal number. -/
structure Number where
  digits : Text
  nonempty : digits ≠ []
  decimal : ∀ c ∈ digits, c.isDigit = true

inductive Kind where
  | float
  | uint
  | int
  | bool
  | half
  | double
  deriving DecidableEq

def Kind.spelling : Kind → Text
  | .float => "float".toList
  | .uint => "uint".toList
  | .int => "int".toList
  | .bool => "bool".toList
  | .half => "half".toList
  | .double => "double".toList

def Kind.bytes : Kind → Nat
  | .float | .uint | .int | .bool => 4
  | .half => 2
  | .double => 8

/-- One, a vector of one to four, or a matrix of one to four rows and columns. -/
inductive Shape where
  | scalar
  | vector (n : Fin 4)
  | matrix (rows columns : Fin 4)

structure ElementType where
  kind : Kind
  shape : Shape

def digitOfSize (n : Fin 4) : Char := Char.ofNat ('1'.toNat + n.val)

def ElementType.spelling (type : ElementType) : Text :=
  type.kind.spelling ++
    match type.shape with
    | .scalar => []
    | .vector n => [digitOfSize n]
    | .matrix rows columns => [digitOfSize rows, 'x', digitOfSize columns]

/-- The bytes of an element. -/
def ElementType.bytes (type : ElementType) : Nat :=
  match type.shape with
  | .scalar => type.kind.bytes
  | .vector n => type.kind.bytes * (n.val + 1)
  | .matrix rows columns => type.kind.bytes * ((rows.val + 1) * (columns.val + 1))

/-- The bytes the rule takes an element for: of a matrix of another kind than
`float` one column. -/
def ElementType.seenBytes (type : ElementType) : Nat :=
  match type.kind, type.shape with
  | .float, .matrix rows columns => 4 * ((rows.val + 1) * (columns.val + 1))
  | kind, .matrix rows _ => kind.bytes * (rows.val + 1)
  | kind, .vector n => kind.bytes * (n.val + 1)
  | kind, .scalar => kind.bytes

/-- `[n]`, with blanks in front of the bracket and around the number. -/
structure Dimension where
  gap : Gap
  left : Gap
  number : Number
  right : Gap

def Dimension.text (d : Dimension) : Text :=
  d.gap.text ++ '[' :: (d.left.text ++ d.number.digits ++ d.right.text ++ [']'])

structure Declarator where
  name : Name
  dims : List Dimension

def dimsText (dims : List Dimension) : Text := dims.flatMap Dimension.text

def Declarator.text (d : Declarator) : Text := d.name.text ++ dimsText d.dims

/-- The number of elements. -/
def Declarator.elements (d : Declarator) : Nat := (d.dims.map fun n => decimal n.number.digits).prod

/-- A declarator behind a comma, with blanks on both sides of it. -/
structure MoreDeclarator where
  before : Gap
  behind : Gap
  declarator : Declarator

def MoreDeclarator.text (m : MoreDeclarator) : Text :=
  m.before.text ++ ',' :: (m.behind.text ++ m.declarator.text)

/-- `groupshared [volatile] type declarator, …, declarator;`, in any layout. -/
structure Declaration where
  gap : Space
  volatileGap : Option Space
  type : ElementType
  nameGap : Space
  first : Declarator
  others : List MoreDeclarator
  close : Gap

/-- What is behind the name of the first declarator. -/
def Declaration.afterName (d : Declaration) : Text :=
  dimsText d.first.dims ++ (d.others.flatMap MoreDeclarator.text ++ (d.close.text ++ [';']))

/-- What is behind the blanks that follow the keyword. -/
def Declaration.afterGap (d : Declaration) : Text :=
  (match d.volatileGap with
    | none => []
    | some gap => kVolatile ++ gap.text)
    ++ (d.type.spelling ++ (d.nameGap.text ++ (d.first.name.text ++ d.afterName)))

def Declaration.text (d : Declaration) : Text := kKw ++ (d.gap.text ++ d.afterGap)

/-- The bytes of all declarators. -/
def Declaration.bytes (d : Declaration) : Nat :=
  d.type.bytes * (d.first.elements + (d.others.map fun m => m.declarator.elements).sum)

/-- A source: declarations with other text in between, in which the keyword
does not stand alone. -/
structure Source where
  parts : List ({t : Text // Quiet isIdChar kKw t} × Declaration)
  rest : {t : Text // Words.find isIdChar kKw false t = none}

def partsText (parts : List ({t : Text // Quiet isIdChar kKw t} × Declaration)) : Text :=
  parts.flatMap fun part => part.1.val ++ part.2.text

def Source.text (s : Source) : Text := partsText s.parts ++ s.rest.val

/-- The exact number of bytes. -/
def Source.bytes (s : Source) : Nat := (s.parts.map fun part => part.2.bytes).sum

/-! ## §3. What the scan sees. -/

/-- Blanks that do not leave the line. -/
def Gap.OnLine (g : Gap) : Prop := ∀ c ∈ g.text, isLineBlank c = true

instance (g : Gap) : Decidable g.OnLine :=
  decidable_of_iff (g.text.all isLineBlank = true) List.all_eq_true

/-- The product of the dimensions up to the first that stands apart from what is
before it; none counts if one of these has a CR beside its number. -/
def seenElements : List Dimension → Nat
  | [] => 1
  | d :: ds =>
      if d.gap.text ≠ [] then 1
      else if '\r' ∈ d.left.text ∨ '\r' ∈ d.right.text then 0
      else decimal d.number.digits * seenElements ds

/-- The first declarator, as far as it stands on the keyword's line. -/
def Declaration.seenBytes (d : Declaration) : Nat :=
  if d.gap.OnLine ∧ ∀ gap ∈ d.volatileGap, gap.OnLine then
    d.type.seenBytes * if d.nameGap.OnLine then seenElements d.first.dims else 1
  else 0

def Source.seenBytes (s : Source) : Nat := (s.parts.map fun part => part.2.seenBytes).sum

/-! ## §4. Words and separators. -/

theorem kKw_ne : kKw ≠ [] := by decide

theorem kKw_word : ∀ c ∈ kKw, isIdChar c = true := List.all_eq_true.mp (by decide)

theorem isLineBlank_iff {c : Char} : isLineBlank c = true ↔ c = ' ' ∨ c = '\t' := by
  simp [isLineBlank]

theorem isGapChar_iff {c : Char} :
    isGapChar c = true ↔ (c = ' ' ∨ c = '\t') ∨ (c = '\n' ∨ c = '\r') := by
  simp [isGapChar, or_assoc]

theorem gapChar_separator {c : Char} (h : isGapChar c = true) : isIdChar c = false := by
  rcases isGapChar_iff.mp h with (rfl | rfl) | (rfl | rfl) <;> decide

theorem Gap.separators (g : Gap) : ∀ c ∈ g.text, isIdChar c = false :=
  fun c hc => gapChar_separator (g.blank c hc)

theorem digit_word {c : Char} (h : c.isDigit = true) : isIdChar c = true := by
  have hrange : ('0' ≤ c && c ≤ '9') = true := h
  rw [isIdChar, hrange]
  simp

/-- A number is another word than one with a letter. -/
theorem Number.other (n : Number) {word : Text} (hword : word.all Char.isDigit = false) :
    n.digits ≠ word := by
  intro h
  rw [← h, List.all_eq_true.mpr n.decimal] at hword
  exact absurd hword nofun

/-- Blanks in front of a word end what is in front of them. -/
theorem Space.closing (g : Space) {word t : Text} (ht : Quiet isIdChar word t) :
    Closing isIdChar word (g.text ++ t) := by
  have hgap := g.separators
  obtain ⟨c, cs, hcons⟩ := List.exists_cons_of_ne_nil g.nonempty
  rw [hcons] at hgap ⊢
  exact Words.closing_cons (hgap c List.mem_cons_self)
    (ht.separators fun x hx => hgap x (List.mem_cons_of_mem c hx))

theorem closing_dims {word : Text} (hword : word.all Char.isDigit = false) {t : Text}
    (ht : Closing isIdChar word t) (dims : List Dimension) :
    Closing isIdChar word (dimsText dims ++ t) := by
  induction dims with
  | nil => exact ht
  | cons d ds ih =>
      have hbracket : Closing isIdChar word (']' :: (dimsText ds ++ t)) :=
        Words.closing_cons (by decide) ih.quiet
      have hright := hbracket.separators d.right.separators
      have hnumber : Quiet isIdChar word
          (d.number.digits ++ (d.right.text ++ ']' :: (dimsText ds ++ t))) :=
        .other (fun c hc => digit_word (d.number.decimal c hc)) (d.number.other hword) hright.breaks
          hright.quiet
      have hopen : Closing isIdChar word
          ('[' :: (d.left.text ++ (d.number.digits ++ (d.right.text ++ ']' :: (dimsText ds ++ t))))) :=
        Words.closing_cons (by decide) (hnumber.separators d.left.separators)
      have hall := hopen.separators d.gap.separators
      simpa [dimsText, Dimension.text] using hall

theorem kKw_letters : kKw.all Char.isDigit = false := by decide

theorem quiet_declarator {t : Text} (ht : Closing isIdChar kKw t) (d : Declarator) :
    Quiet isIdChar kKw (d.text ++ t) := by
  have hdims := closing_dims kKw_letters ht d.dims
  rw [Declarator.text, List.append_assoc]
  exact .other d.name.word d.name.other hdims.breaks hdims.quiet

theorem closing_others {t : Text} (ht : Closing isIdChar kKw t) (others : List MoreDeclarator) :
    Closing isIdChar kKw (others.flatMap MoreDeclarator.text ++ t) := by
  induction others with
  | nil => exact ht
  | cons m ms ih =>
      have hcomma : Closing isIdChar kKw
          (',' :: (m.behind.text ++ (m.declarator.text ++ (ms.flatMap MoreDeclarator.text ++ t)))) :=
        Words.closing_cons (by decide) ((quiet_declarator ih m.declarator).separators m.behind.separators)
      have hall := hcomma.separators m.before.separators
      simpa [MoreDeclarator.text] using hall

theorem closing_afterName (d : Declaration) : Closing isIdChar kKw d.afterName := by
  have hend : Closing isIdChar kKw [';'] := Words.closing_cons (by decide) .nil
  exact closing_dims kKw_letters (closing_others (hend.separators d.close.separators) d.others)
    d.first.dims

theorem closing_nameGap (d : Declaration) :
    Closing isIdChar kKw (d.nameGap.text ++ (d.first.name.text ++ d.afterName)) := by
  have hafter := closing_afterName d
  have hname : Quiet isIdChar kKw (d.first.name.text ++ d.afterName) :=
    .other d.first.name.word d.first.name.other hafter.breaks hafter.quiet
  exact d.nameGap.closing hname

/-- How a type is spelled: a word that begins neither like the keyword nor like
`volatile`. -/
theorem spelling_word (type : ElementType) :
    (∀ c ∈ type.spelling, isIdChar c = true) ∧ type.spelling ≠ kKw
      ∧ ∃ c cs, type.spelling = c :: cs ∧ isIdChar c = true ∧ c ≠ 'v' := by
  have hsize : ∀ n : Fin 4, isIdChar (digitOfSize n) = true := by decide
  obtain ⟨kind, shape⟩ := type
  -- the six names; none begins with `v` or `g`
  have hkind : (∀ c ∈ kind.spelling, isIdChar c = true)
      ∧ ∃ c cs, kind.spelling = c :: cs ∧ c ≠ 'v' ∧ c ≠ 'g' := by
    cases kind with
    | float => exact ⟨List.all_eq_true.mp (by decide), 'f', "loat".toList, by decide⟩
    | uint => exact ⟨List.all_eq_true.mp (by decide), 'u', "int".toList, by decide⟩
    | int => exact ⟨List.all_eq_true.mp (by decide), 'i', "nt".toList, by decide⟩
    | bool => exact ⟨List.all_eq_true.mp (by decide), 'b', "ool".toList, by decide⟩
    | half => exact ⟨List.all_eq_true.mp (by decide), 'h', "alf".toList, by decide⟩
    | double => exact ⟨List.all_eq_true.mp (by decide), 'd', "ouble".toList, by decide⟩
  obtain ⟨hword, c, cs, hcons, hv, hg⟩ := hkind
  have hall : ∀ c ∈ (ElementType.mk kind shape).spelling, isIdChar c = true := by
    intro d hd
    rcases List.mem_append.mp hd with hd | hd
    · exact hword d hd
    · cases shape with
      | scalar => exact absurd hd List.not_mem_nil
      | vector n =>
          rw [List.mem_singleton.mp hd]
          exact hsize n
      | matrix rows columns =>
          simp only [List.mem_cons, List.not_mem_nil, or_false] at hd
          rcases hd with rfl | rfl | rfl
          · exact hsize rows
          · decide
          · exact hsize columns
  have hspelling : ∃ ds, (ElementType.mk kind shape).spelling = c :: ds := by
    unfold ElementType.spelling
    rw [hcons]
    exact ⟨_, List.cons_append⟩
  obtain ⟨ds, hds⟩ := hspelling
  refine ⟨hall, fun hkw => ?_, c, ds, hds, hall c (by rw [hds]; exact List.mem_cons_self), hv⟩
  rw [hds] at hkw
  exact hg (List.cons.inj hkw).1

/-- **What `sizeof_scalar` takes an element for.** -/
theorem sizeofScalar_spelling (type : ElementType) :
    sizeofScalar type.spelling = type.seenBytes := by
  obtain ⟨kind, shape⟩ := type
  cases shape with
  | scalar => cases kind <;> decide
  | vector n =>
      revert n
      cases kind <;> decide
  | matrix rows columns =>
      revert rows columns
      cases kind <;> decide

theorem quiet_type (d : Declaration) :
    Quiet isIdChar kKw
      (d.type.spelling ++ (d.nameGap.text ++ (d.first.name.text ++ d.afterName))) := by
  have hclosing := closing_nameGap d
  exact .other (spelling_word d.type).1 (spelling_word d.type).2.1 hclosing.breaks hclosing.quiet

theorem quiet_afterGap (d : Declaration) : Quiet isIdChar kKw d.afterGap := by
  unfold Declaration.afterGap
  cases d.volatileGap with
  | none => exact quiet_type d
  | some gap =>
      have hclosing := gap.closing (quiet_type d)
      rw [List.append_assoc]
      exact .other (List.all_eq_true.mp (by decide)) (by decide) hclosing.breaks hclosing.quiet

/-! ## §5. One declaration. -/

theorem skipFrom_rest (p : Char → Bool) (t : Text) :
    ∀ prev, (skipFrom p prev t).rest = t.dropWhile p := by
  induction t with
  | nil => exact fun _ => rfl
  | cons c cs ih =>
      intro prev
      rw [skipFrom]
      by_cases hc : p c = true
      · rw [if_pos hc, ih, List.dropWhile_cons_of_pos hc]
      · rw [if_neg hc, List.dropWhile_cons_of_neg hc]

theorem skipWhile_rest (k : Cursor) (p : Char → Bool) : (k.skipWhile p).rest = k.rest.dropWhile p :=
  skipFrom_rest p k.rest k.prev

theorem dropWhile_breaks {p : Char → Bool} {c : Char} {t : Text} (h : p c = false) :
    (c :: t).dropWhile p = c :: t := List.dropWhile_cons_of_neg (by rw [h]; nofun)

/-- Blanks up to the next word. -/
theorem Gap.dropWhile_onLine {g : Gap} (h : g.OnLine) {c : Char} (hc : isIdChar c = true) (t : Text) :
    (g.text ++ c :: t).dropWhile isLineBlank = c :: t := by
  -- a word begins with no blank
  have hnot : isLineBlank c = false := by
    by_contra hblank
    rcases isLineBlank_iff.mp (Bool.not_eq_false _ ▸ hblank) with rfl | rfl
    · exact absurd hc (by decide)
    · exact absurd hc (by decide)
  rw [List.dropWhile_append_of_pos h, dropWhile_breaks hnot]

/-- Blanks that leave the line stop the scan at the line break. -/
theorem Gap.dropWhile_offLine {g : Gap} (h : ¬ g.OnLine) (t : Text) :
    ∃ c g', (g.text ++ t).dropWhile isLineBlank = c :: (g' ++ t) ∧ (c = '\n' ∨ c = '\r')
      ∧ ∀ x ∈ g', isIdChar x = false := by
  have hsplit := List.takeWhile_append_dropWhile (p := isLineBlank) (l := g.text)
  cases hrest : g.text.dropWhile isLineBlank with
  | nil =>
      rw [hrest, List.append_nil] at hsplit
      exact absurd (fun c hc => List.mem_takeWhile_imp (by rw [hsplit]; exact hc)) h
  | cons c g' =>
      rw [hrest] at hsplit
      have hhead := List.head?_dropWhile_not isLineBlank g.text
      rw [hrest] at hhead
      have hc : isLineBlank c = false := by simpa using hhead
      have hmem : ∀ x ∈ c :: g', x ∈ g.text := by
        intro x hx
        rw [← hsplit]
        exact List.mem_append_right _ hx
      refine ⟨c, g', ?_, ?_, ?_⟩
      · rw [← hsplit, List.append_assoc,
          List.dropWhile_append_of_pos fun x hx => List.mem_takeWhile_imp hx, List.cons_append,
          dropWhile_breaks hc]
      · rcases isGapChar_iff.mp (g.blank c (hmem c List.mem_cons_self)) with hline | hbreak
        · rw [isLineBlank_iff.mpr hline] at hc
          exact absurd hc nofun
        · exact hbreak
      · exact fun x hx => g.separators x (hmem x (List.mem_cons_of_mem c hx))

theorem scanDims_breaks {fuel count : Nat} {k : Cursor} (h : ∀ t, k.rest ≠ '[' :: t) :
    scanDims (fuel + 1) count k = (count, k) := by
  rw [scanDims]
  split
  next inside heq => exact absurd heq (h inside)
  · rfl

/-- `trim` leaves the number alone if no CR is beside it. -/
theorem trim_number (d : Dimension) (h : ¬ ('\r' ∈ d.left.text ∨ '\r' ∈ d.right.text)) :
    Trim.trim isTrimmed (d.left.text ++ d.number.digits ++ d.right.text) = d.number.digits := by
  -- a gap without a CR is trimmed as a whole
  have hgap : ∀ g : Gap, '\r' ∉ g.text → Trim.Blank isTrimmed g.text := by
    intro g hcr c hc
    rcases isGapChar_iff.mp (g.blank c hc) with (rfl | rfl) | (rfl | rfl)
    · rfl
    · rfl
    · rfl
    · exact absurd hc hcr
  have hdigit : ∀ c ∈ d.number.digits, isTrimmed c = false := by
    intro c hc
    have hd := d.number.decimal c hc
    by_contra htrim
    rw [Bool.not_eq_false, isTrimmed, Bool.or_eq_true, Bool.or_eq_true, beq_iff_eq, beq_iff_eq,
      beq_iff_eq] at htrim
    rcases htrim with (rfl | rfl) | rfl <;> exact absurd hd (by decide)
  refine Trim.trim_padded ⟨⟨fun c hc => hdigit c (List.mem_of_head? hc),
    fun c hc => hdigit c (List.mem_of_getLast? hc)⟩, _, _, hgap d.left fun hin => h (Or.inl hin),
    hgap d.right fun hin => h (Or.inr hin), rfl⟩

/-- With a CR beside the number something else is left. -/
theorem trim_cr (d : Dimension) (h : '\r' ∈ d.left.text ∨ '\r' ∈ d.right.text) :
    (Trim.trim isTrimmed (d.left.text ++ d.number.digits ++ d.right.text)).all Char.isDigit
      = false := by
  obtain ⟨a, b, ha, hb, hsplit⟩ :=
    (Trim.padded_trim (p := isTrimmed) (d.left.text ++ d.number.digits ++ d.right.text)).around
  have hin : '\r' ∈ d.left.text ++ d.number.digits ++ d.right.text := by
    rcases h with h | h
    · exact List.mem_append_left _ (List.mem_append_left _ h)
    · exact List.mem_append_right _ h
  rw [hsplit, List.mem_append, List.mem_append] at hin
  rw [← Bool.not_eq_true, List.all_eq_true]
  intro hall
  -- the CR is none of what is trimmed, so it is kept, and it is no digit
  rcases hin with (hin | hin) | hin
  · exact absurd (ha _ hin) (by decide)
  · exact absurd (hall _ hin) (by decide)
  · exact absurd (hb _ hin) (by decide)

theorem dimensionValue_eq (digits : Text) : dimensionValue digits = decimal digits % 2 ^ 32 := by
  rw [dimensionValue, DigitRegister.foldl_wrap, decimal_eq_value]

/-- One turn of the loop over the dimensions. -/
theorem scanDims_bracket {fuel count : Nat} {k : Cursor} {inner more : Text} (hinner : ']' ∉ inner)
    (hk : k.rest = '[' :: (inner ++ ']' :: more)) :
    scanDims (fuel + 1) count k
      = if (Trim.trim isTrimmed inner).isEmpty || !(Trim.trim isTrimmed inner).all Char.isDigit then
          (0, ⟨some '[', ']' :: more⟩)
        else
          scanDims fuel (count * dimensionValue (Trim.trim isTrimmed inner) % 2 ^ 32)
            ⟨some ']', more⟩ := by
  have hnot : ∀ c ∈ inner, (c != ']') = true := by
    intro c hc
    rw [bne_iff_ne]
    exact fun heq => hinner (heq ▸ hc)
  have hstop : (']' != ']') = false := by decide
  have htake : (inner ++ ']' :: more).takeWhile (· != ']') = inner := by
    rw [List.takeWhile_append_of_pos hnot, List.takeWhile_cons_of_neg (by rw [hstop]; nofun),
      List.append_nil]
  have hdrop : (inner ++ ']' :: more).dropWhile (· != ']') = ']' :: more := by
    rw [List.dropWhile_append_of_pos hnot, List.dropWhile_cons_of_neg (by rw [hstop]; nofun)]
  rw [scanDims, hk]
  simp only [htake, hdrop]

/-- No part of a dimension holds a bracket. -/
theorem inner_bracket (d : Dimension) :
    ']' ∉ d.left.text ++ d.number.digits ++ d.right.text := by
  have hgap : ∀ g : Gap, ']' ∉ g.text := fun g hin => absurd (g.blank _ hin) (by decide)
  intro hin
  rcases List.mem_append.mp hin with hin | hin
  · rcases List.mem_append.mp hin with hin | hin
    · exact hgap d.left hin
    · exact absurd (d.number.decimal _ hin) (by decide)
  · exact hgap d.right hin

/-- **What the loop over the dimensions counts**: the ones it sees, in 32 bits. -/
theorem scanDims_spec {t s : Text} (ht : Closing isIdChar kKw t) (hbracket : t.head? ≠ some '[')
    (dims : List Dimension) :
    ∀ {fuel count : Nat} {k : Cursor}, dims.length < fuel → k.rest = dimsText dims ++ t ++ s →
      (scanDims fuel (count % 2 ^ 32) k).1 = count * seenElements dims % 2 ^ 32
        ∧ ∃ u, Closing isIdChar kKw u ∧ (scanDims fuel (count % 2 ^ 32) k).2.rest = u ++ s := by
  induction dims with
  | nil =>
      intro fuel count k hfuel hk
      obtain ⟨fuel, rfl⟩ : ∃ n, fuel = n + 1 := ⟨fuel - 1, by omega⟩
      -- behind the dimensions no bracket opens
      have hstop : ∀ u, k.rest ≠ '[' :: u := by
        intro u hu
        obtain ⟨c, cs, rfl, hc⟩ := ht.breaks
        rw [hk] at hu
        exact hbracket (congrArg some (List.cons.inj hu).1)
      rw [scanDims_breaks hstop, seenElements, Nat.mul_one]
      exact ⟨rfl, t, ht, hk⟩
  | cons d ds ih =>
      intro fuel count k hfuel hk
      obtain ⟨fuel, rfl⟩ : ∃ n, fuel = n + 1 := ⟨fuel - 1, by omega⟩
      by_cases hgap : d.gap.text = []
      · have hrest : k.rest = '[' :: (d.left.text ++ d.number.digits ++ d.right.text
            ++ ']' :: (dimsText ds ++ t ++ s)) := by
          rw [hk]
          simp [dimsText, Dimension.text, hgap]
        rw [scanDims_bracket (inner_bracket d) hrest, seenElements, if_neg (not_not.mpr hgap)]
        by_cases hcr : '\r' ∈ d.left.text ∨ '\r' ∈ d.right.text
        · -- not a number: the count is given up
          rw [trim_cr d hcr, Bool.not_false, Bool.or_true, if_pos rfl, if_pos hcr]
          refine ⟨rfl, ']' :: (dimsText ds ++ t), ?_, rfl⟩
          exact Words.closing_cons (by decide) (closing_dims kKw_letters ht ds).quiet
        · -- a number: it is multiplied, and the loop goes on behind the bracket
          have hnumber : ((d.number.digits).isEmpty || !d.number.digits.all Char.isDigit) = false := by
            rw [List.isEmpty_eq_false_iff.mpr d.number.nonempty, List.all_eq_true.mpr d.number.decimal]
            rfl
          have hcount : count % 2 ^ 32 * dimensionValue d.number.digits % 2 ^ 32
              = count * decimal d.number.digits % 2 ^ 32 := by
            rw [dimensionValue_eq, ← Nat.mul_mod]
          rw [trim_number d hcr, hnumber, if_neg Bool.false_ne_true, if_neg hcr, hcount,
            ← Nat.mul_assoc]
          exact ih (by rw [List.length_cons] at hfuel; omega) rfl
      · -- a gap in front of the bracket: the loop ends
        obtain ⟨c, cs, hcons⟩ := List.exists_cons_of_ne_nil hgap
        have hc : isGapChar c = true := d.gap.blank c (by rw [hcons]; exact List.mem_cons_self)
        have hstop : ∀ u, k.rest ≠ '[' :: u := by
          intro u hu
          have hhead : c = '[' := by
            rw [hk] at hu
            simp only [dimsText, List.flatMap_cons, Dimension.text, hcons, List.cons_append] at hu
            exact (List.cons.inj hu).1
          rw [hhead] at hc
          exact absurd hc (by decide)
        rw [scanDims_breaks hstop, seenElements, if_pos hgap, Nat.mul_one]
        exact ⟨rfl, _, closing_dims kKw_letters ht (d :: ds), hk⟩

/-! ## §6. The declarations one after another. -/

/-- The end of a turn: bytes from the size of an element and the count. -/
def finish (perElem : Nat) (dims : Nat × Cursor) : Nat × Cursor :=
  (if perElem ≠ 0 ∧ dims.1 ≠ 0 then perElem * dims.1 % 2 ^ 32 else 0, dims.2)

theorem finish_fst (perElem : Nat) (dims : Nat × Cursor) :
    (finish perElem dims).1 = perElem * dims.1 % 2 ^ 32 := by
  unfold finish
  split
  · rfl
  next hzero =>
      have hcases : perElem = 0 ∨ dims.1 = 0 := by
        by_contra hne
        exact hzero (not_or.mp hne)
      rcases hcases with h | h
      · rw [h, Nat.zero_mul, Nat.zero_mod]
      · rw [h, Nat.mul_zero, Nat.zero_mod]

/-- A turn, told by the text behind `volatile`. -/
theorem scanDeclaration_eq (k : Cursor) {r : Text}
    (hr : (skipVolatile (k.skipWhile isLineBlank)).rest = r) :
    ∃ prev, scanDeclaration k = finish (sizeofScalar (r.takeWhile isIdChar))
      (scanDims ((((r.dropWhile isIdChar).dropWhile isLineBlank).dropWhile isIdChar).length + 1) 1
        ⟨prev, ((r.dropWhile isIdChar).dropWhile isLineBlank).dropWhile isIdChar⟩) := by
  unfold scanDeclaration
  generalize skipVolatile (k.skipWhile isLineBlank) = k₁ at hr
  have hrest : (((k₁.skipWhile isIdChar).skipWhile isLineBlank).skipWhile isIdChar).rest
      = ((r.dropWhile isIdChar).dropWhile isLineBlank).dropWhile isIdChar := by
    rw [skipWhile_rest, skipWhile_rest, skipWhile_rest, hr]
  refine ⟨(((k₁.skipWhile isIdChar).skipWhile isLineBlank).skipWhile isIdChar).prev, ?_⟩
  rw [← hrest, ← hr]
  rfl

theorem breaks_of_newline {c : Char} (h : c = '\n' ∨ c = '\r') :
    isIdChar c = false ∧ isLineBlank c = false ∧ c ≠ '[' ∧ c ≠ 'v' := by
  rcases h with rfl | rfl <;> decide

/-- At a line break the scan stands still: only the element before it counts. -/
theorem skips_newline {c : Char} (h : c = '\n' ∨ c = '\r') (w : Text) :
    (c :: w).dropWhile isIdChar = c :: w ∧ (c :: w).dropWhile isLineBlank = c :: w
      ∧ ∀ fuel count prev, scanDims (fuel + 1) count ⟨prev, c :: w⟩ = (count, ⟨prev, c :: w⟩) := by
  obtain ⟨hid, hblank, hbracket, _⟩ := breaks_of_newline h
  refine ⟨dropWhile_breaks hid, dropWhile_breaks hblank, fun fuel count prev => ?_⟩
  exact scanDims_breaks fun t ht => hbracket (List.cons.inj ht).1

/-- A declaration whose type is on another line is not seen. -/
theorem scanDeclaration_newline {k : Cursor} {c : Char} (h : c = '\n' ∨ c = '\r') {w : Text}
    (hr : (skipVolatile (k.skipWhile isLineBlank)).rest = c :: w) :
    (scanDeclaration k).1 = 0 ∧ (scanDeclaration k).2.rest = c :: w := by
  obtain ⟨prev, hscan⟩ := scanDeclaration_eq k hr
  obtain ⟨hid, hblank, hdims⟩ := skips_newline h w
  have htype : (c :: w).takeWhile isIdChar = [] :=
    List.takeWhile_cons_of_neg (by rw [(breaks_of_newline h).1]; nofun)
  rw [hid, hblank, hid, hdims, htype] at hscan
  have hnone : sizeofScalar [] = 0 := by decide
  rw [hscan, finish_fst, hnone, Nat.zero_mul]
  exact ⟨rfl, rfl⟩

theorem length_dimsText (dims : List Dimension) : dims.length ≤ (dimsText dims).length := by
  induction dims with
  | nil => exact Nat.le_refl 0
  | cons d ds ih =>
      have hcons : dimsText (d :: ds) = d.text ++ dimsText ds := rfl
      have hpos : 0 < d.text.length := by
        simp only [Dimension.text, List.length_append, List.length_cons]
        omega
      rw [hcons, List.length_append, List.length_cons]
      omega

theorem Gap.bracket (g : Gap) {t : Text} (ht : t.head? ≠ some '[') :
    (g.text ++ t).head? ≠ some '[' := by
  cases hg : g.text with
  | nil => exact ht
  | cons c cs =>
      intro hhead
      have hc := g.blank c (by rw [hg]; exact List.mem_cons_self)
      rw [Option.some.inj hhead] at hc
      exact absurd hc (by decide)

/-- Behind the dimensions comes a blank, a comma or the semicolon. -/
theorem afterDims_bracket (d : Declaration) :
    (d.others.flatMap MoreDeclarator.text ++ (d.close.text ++ [';'])).head? ≠ some '[' := by
  cases d.others with
  | nil => exact d.close.bracket (by decide)
  | cons m ms =>
      rw [List.flatMap_cons, MoreDeclarator.text, List.append_assoc, List.append_assoc]
      exact m.before.bracket (by rw [List.cons_append]; exact nofun)

/-- What does not begin with a `v` is not `volatile`. -/
theorem skipVolatile_other {k : Cursor} {c : Char} {t : Text} (hk : k.rest = c :: t) (hc : c ≠ 'v') :
    skipVolatile k = k := by
  have hv : kVolatile = 'v' :: "olatile".toList := by decide
  have hno : kVolatile.isPrefixOf k.rest = false := by
    rw [hk, hv, List.isPrefixOf_cons_cons, beq_eq_false_iff_ne.mpr (Ne.symm hc), Bool.false_and]
  rw [skipVolatile, hno, if_neg Bool.false_ne_true]

theorem skipVolatile_rest {k : Cursor} {t : Text} (hk : k.rest = kVolatile ++ t) :
    (skipVolatile k).rest = t.dropWhile isLineBlank := by
  have hyes : kVolatile.isPrefixOf k.rest = true := by
    rw [hk, List.isPrefixOf_iff_prefix]
    exact List.prefix_append _ _
  have hlen : kVolatile.length = 8 := by decide
  rw [skipVolatile, if_pos hyes, skipWhile_rest, hk, ← hlen, List.drop_left]

/-- From the type on. -/
theorem scanDeclaration_type (d : Declaration) (s : Text) {k : Cursor}
    (hr : (skipVolatile (k.skipWhile isLineBlank)).rest
      = d.type.spelling ++ (d.nameGap.text ++ (d.first.name.text ++ d.afterName)) ++ s) :
    (scanDeclaration k).1
        = (d.type.seenBytes * if d.nameGap.OnLine then seenElements d.first.dims else 1) % 2 ^ 32
      ∧ ∃ u, Closing isIdChar kKw u ∧ (scanDeclaration k).2.rest = u ++ s := by
  obtain ⟨prev, hscan⟩ := scanDeclaration_eq k hr
  have hgap := (closing_nameGap d).breaks.append s
  have hafter := (closing_afterName d).breaks.append s
  have hword := (spelling_word d.type).1
  rw [List.append_assoc, Words.takeWhile_word hword hgap, Words.dropWhile_word hword hgap,
    sizeofScalar_spelling] at hscan
  by_cases hline : d.nameGap.OnLine
  · -- the name stands on the line, and the dimensions behind it are read
    obtain ⟨c, cs, hname⟩ := List.exists_cons_of_ne_nil d.first.name.nonempty
    have hc := d.first.name.word c (by rw [hname]; exact List.mem_cons_self)
    have hskip : (d.nameGap.text ++ (d.first.name.text ++ d.afterName) ++ s).dropWhile isLineBlank
        = d.first.name.text ++ (d.afterName ++ s) := by
      rw [List.append_assoc, List.append_assoc, hname, List.cons_append]
      exact Gap.dropWhile_onLine hline hc _
    rw [hskip, Words.dropWhile_word d.first.name.word hafter] at hscan
    -- behind the dimensions comes a blank, a comma or the semicolon
    have hend : Closing isIdChar kKw [';'] := Words.closing_cons (by decide) .nil
    have hothers := closing_others (hend.separators d.close.separators) d.others
    have hfuel : d.first.dims.length < (d.afterName ++ s).length + 1 := by
      have hlen := length_dimsText d.first.dims
      simp only [Declaration.afterName, List.length_append]
      omega
    have hdims := @scanDims_spec _ s hothers (afterDims_bracket d) d.first.dims _ 1
      ⟨prev, d.afterName ++ s⟩ hfuel rfl
    rw [hscan, finish_fst, if_pos hline]
    refine ⟨?_, hdims.2⟩
    have hcount := hdims.1
    rw [Nat.one_mul, Nat.mod_eq_of_lt (by decide)] at hcount
    rw [hcount, Nat.mul_mod_mod]
  · -- the name is on another line: nothing is read behind the type
    obtain ⟨c, g', hskip, hnewline, hblank⟩ :=
      Gap.dropWhile_offLine hline (d.first.name.text ++ d.afterName ++ s)
    obtain ⟨hid, _, hdims⟩ := skips_newline hnewline (g' ++ (d.first.name.text ++ d.afterName ++ s))
    rw [List.append_assoc, hskip, hid, hdims] at hscan
    rw [hscan, finish_fst, if_neg hline]
    refine ⟨rfl, c :: (g' ++ (d.first.name.text ++ d.afterName)), ?_, ?_⟩
    · have hafterName := closing_afterName d
      exact Words.closing_cons (breaks_of_newline hnewline).1
        ((Quiet.other d.first.name.word d.first.name.other hafterName.breaks
          hafterName.quiet).separators hblank)
    · show c :: _ = _
      simp only [List.cons_append, List.append_assoc]

/-- What the turn at a declaration must come to. -/
def TurnEnds (d : Declaration) (s : Text) (k : Cursor) : Prop :=
  (scanDeclaration k).1 = d.seenBytes % 2 ^ 32
    ∧ ∃ u, Closing isIdChar kKw u ∧ (scanDeclaration k).2.rest = u ++ s

theorem seenBytes_onLine {d : Declaration} (hgap : d.gap.OnLine) (hall : ∀ g ∈ d.volatileGap, g.OnLine) :
    d.seenBytes = d.type.seenBytes * if d.nameGap.OnLine then seenElements d.first.dims else 1 := by
  rw [Declaration.seenBytes, if_pos ⟨hgap, hall⟩]

theorem seenBytes_offLine {d : Declaration} (h : ¬ (d.gap.OnLine ∧ ∀ g ∈ d.volatileGap, g.OnLine)) :
    d.seenBytes = 0 := by
  rw [Declaration.seenBytes, if_neg h]

/-- Keyword and type on one line, and nothing between. -/
theorem turnEnds_unqualified {d : Declaration} {s : Text} {k : Cursor}
    (hrest : (k.skipWhile isLineBlank).rest = (d.gap.text ++ (d.afterGap ++ s)).dropWhile isLineBlank)
    (hgap : d.gap.OnLine) (hvolatile : d.volatileGap = none) : TurnEnds d s k := by
  obtain ⟨t, ts, htype, ht, hv⟩ := (spelling_word d.type).2.2
  have hafter : d.afterGap
      = d.type.spelling ++ (d.nameGap.text ++ (d.first.name.text ++ d.afterName)) := by
    rw [Declaration.afterGap, hvolatile]
    rfl
  have htypeRest : (k.skipWhile isLineBlank).rest
      = d.type.spelling ++ (d.nameGap.text ++ (d.first.name.text ++ d.afterName)) ++ s := by
    rw [hrest, hafter, htype, List.cons_append, List.cons_append]
    exact Gap.dropWhile_onLine hgap ht _
  -- the type does not begin like `volatile`
  have hstay : skipVolatile (k.skipWhile isLineBlank) = k.skipWhile isLineBlank := by
    have hhead := htypeRest
    rw [htype, List.cons_append, List.cons_append] at hhead
    exact skipVolatile_other hhead hv
  rw [TurnEnds, seenBytes_onLine hgap (by rw [hvolatile]; exact nofun)]
  exact scanDeclaration_type d s (by rw [hstay]; exact htypeRest)

/-- Keyword and `volatile` on one line. -/
theorem turnEnds_volatile {d : Declaration} {s : Text} {k : Cursor}
    (hrest : (k.skipWhile isLineBlank).rest = (d.gap.text ++ (d.afterGap ++ s)).dropWhile isLineBlank)
    (hgap : d.gap.OnLine) {gap : Space} (hvolatile : d.volatileGap = some gap) : TurnEnds d s k := by
  obtain ⟨t, ts, htype, ht, _⟩ := (spelling_word d.type).2.2
  have hafter : d.afterGap = kVolatile ++ (gap.text
      ++ (d.type.spelling ++ (d.nameGap.text ++ (d.first.name.text ++ d.afterName)))) := by
    rw [Declaration.afterGap, hvolatile]
    exact List.append_assoc ..
  obtain ⟨vs, hvs⟩ : ∃ vs, kVolatile = 'v' :: vs := ⟨_, rfl⟩
  have hvolatileRest : (k.skipWhile isLineBlank).rest = kVolatile ++ (gap.text
      ++ (d.type.spelling ++ (d.nameGap.text ++ (d.first.name.text ++ d.afterName))) ++ s) := by
    rw [hrest, hafter, List.append_assoc, hvs, List.cons_append]
    exact Gap.dropWhile_onLine hgap (by decide) _
  have hscan := skipVolatile_rest hvolatileRest
  by_cases hline : gap.OnLine
  · have hall : ∀ g ∈ d.volatileGap, g.OnLine := by
      intro g hg
      have hsame : gap = g := Option.some.inj (hvolatile.symm.trans hg)
      rw [← hsame]
      exact hline
    rw [TurnEnds, seenBytes_onLine hgap hall]
    refine scanDeclaration_type d s ?_
    rw [hscan, List.append_assoc, htype, List.cons_append, List.cons_append]
    exact Gap.dropWhile_onLine hline ht _
  · -- the type is on another line, and the turn reads nothing
    have hseen := @seenBytes_offLine d fun h => hline (h.2 gap (by rw [hvolatile]; rfl))
    obtain ⟨c, g', hskip, hnewline, hblank⟩ := Gap.dropWhile_offLine hline
      (d.type.spelling ++ (d.nameGap.text ++ (d.first.name.text ++ d.afterName)) ++ s)
    rw [List.append_assoc, hskip] at hscan
    obtain ⟨hbytes, hbehind⟩ := scanDeclaration_newline hnewline hscan
    rw [TurnEnds, hseen, hbytes, hbehind]
    refine ⟨rfl, c :: (g' ++ _),
      Words.closing_cons (breaks_of_newline hnewline).1 ((quiet_type d).separators hblank), ?_⟩
    exact congrArg (c :: ·) (List.append_assoc ..).symm

/-- The keyword at the end of its line. -/
theorem turnEnds_offLine {d : Declaration} {s : Text} {k : Cursor}
    (hrest : (k.skipWhile isLineBlank).rest = (d.gap.text ++ (d.afterGap ++ s)).dropWhile isLineBlank)
    (hgap : ¬ d.gap.OnLine) : TurnEnds d s k := by
  obtain ⟨c, g', hskip, hnewline, hblank⟩ := Gap.dropWhile_offLine hgap (d.afterGap ++ s)
  rw [hskip] at hrest
  have hscan : (skipVolatile (k.skipWhile isLineBlank)).rest = c :: (g' ++ (d.afterGap ++ s)) := by
    rw [skipVolatile_other hrest (breaks_of_newline hnewline).2.2.2]
    exact hrest
  obtain ⟨hbytes, hbehind⟩ := scanDeclaration_newline hnewline hscan
  rw [TurnEnds, seenBytes_offLine fun h => hgap h.1, hbytes, hbehind]
  refine ⟨rfl, c :: (g' ++ d.afterGap),
    Words.closing_cons (breaks_of_newline hnewline).1 ((quiet_afterGap d).separators hblank), ?_⟩
  rw [List.cons_append, List.append_assoc]

/-- **What one turn adds**, and that the search goes on in front of a separator
of the same declaration. -/
theorem scanDeclaration_spec (d : Declaration) (s : Text) {k : Cursor}
    (hk : k.rest = d.gap.text ++ d.afterGap ++ s) : TurnEnds d s k := by
  have hrest : (k.skipWhile isLineBlank).rest
      = (d.gap.text ++ (d.afterGap ++ s)).dropWhile isLineBlank := by
    rw [skipWhile_rest, hk, List.append_assoc]
  by_cases hgap : d.gap.OnLine
  · cases hvolatile : d.volatileGap with
    | none => exact turnEnds_unqualified hrest hgap hvolatile
    | some gap => exact turnEnds_volatile hrest hgap hvolatile
  · exact turnEnds_offLine hrest hgap

/-! ## §7. The budget. -/

theorem find_eq (k : Cursor) :
    k.find = (Words.find isIdChar kKw (k.prev.any isIdChar) k.rest).map fun rest =>
      ⟨kKw.getLast?, rest⟩ := rfl

/-- **The loop adds up what it sees**, declaration after declaration. -/
theorem totalFrom_spec (rest : {t : Text // Words.find isIdChar kKw false t = none})
    (parts : List ({t : Text // Quiet isIdChar kKw t} × Declaration)) :
    ∀ {fuel total : Nat} {k : Cursor}, parts.length < fuel →
      Words.find isIdChar kKw (k.prev.any isIdChar) k.rest
        = Words.find isIdChar kKw false (partsText parts ++ rest.val) →
      totalFrom fuel (total % 2 ^ 32) k
        = (total + (parts.map fun part => part.2.seenBytes).sum) % 2 ^ 32 := by
  induction parts with
  | nil =>
      intro fuel total k hfuel hfind
      obtain ⟨fuel, rfl⟩ : ∃ n, fuel = n + 1 := ⟨fuel - 1, by omega⟩
      -- no keyword is left
      have hnone : k.find = none := by
        rw [find_eq, hfind]
        exact congrArg _ rest.property
      rw [totalFrom, hnone]
      rfl
  | cons part parts ih =>
      intro fuel total k hfuel hfind
      obtain ⟨fuel, rfl⟩ : ∃ n, fuel = n + 1 := ⟨fuel - 1, by omega⟩
      obtain ⟨other, d⟩ := part
      have hbreaks : Breaks isIdChar (d.gap.text ++ d.afterGap ++ (partsText parts ++ rest.val)) := by
        obtain ⟨c, cs, hcons⟩ := List.exists_cons_of_ne_nil d.gap.nonempty
        refine ⟨c, _, by rw [hcons]; rfl, d.gap.separators c ?_⟩
        rw [hcons]
        exact List.mem_cons_self
      have hsplit : partsText (⟨other, d⟩ :: parts) ++ rest.val
          = other.val ++ (kKw ++ (d.gap.text ++ d.afterGap ++ (partsText parts ++ rest.val))) := by
        simp [partsText, Declaration.text]
      -- the text in front holds no keyword, so the next one is that of `d`
      have hfound : k.find
          = some ⟨kKw.getLast?, d.gap.text ++ d.afterGap ++ (partsText parts ++ rest.val)⟩ := by
        rw [find_eq, hfind, hsplit, Words.find_quiet kKw_ne kKw_word other.property,
          Words.find_word kKw_ne hbreaks]
        rfl
      obtain ⟨hbytes, u, hu, hrest⟩ := @scanDeclaration_spec d (partsText parts ++ rest.val)
        ⟨kKw.getLast?, d.gap.text ++ d.afterGap ++ (partsText parts ++ rest.val)⟩ rfl
      rw [totalFrom, hfound]
      dsimp only
      rw [hbytes, ← Nat.add_mod, List.map_cons, List.sum_cons, ← Nat.add_assoc]
      refine ih (by rw [List.length_cons] at hfuel; omega) ?_
      -- nor is there one in what the turn has left of `d`
      rw [hrest, Words.find_closing kKw_ne kKw_word hu]

theorem length_partsText (parts : List ({t : Text // Quiet isIdChar kKw t} × Declaration)) :
    parts.length ≤ (partsText parts).length := by
  induction parts with
  | nil => exact Nat.le_refl 0
  | cons part parts ih =>
      have hcons : partsText (part :: parts) = part.1.val ++ part.2.text ++ partsText parts := rfl
      have hpos : 0 < part.2.text.length := by
        have hkw : 0 < kKw.length := by decide
        rw [Declaration.text, List.length_append]
        omega
      rw [hcons, List.length_append, List.length_append, List.length_cons]
      omega

/-- **The total is what is seen, in 32 bits.** -/
theorem totalGroupsharedBytes_source (s : Source) :
    totalGroupsharedBytes s.text = s.seenBytes % 2 ^ 32 := by
  have hfuel : s.parts.length < s.text.length + 1 := by
    have hlen := length_partsText s.parts
    rw [Source.text, List.length_append]
    omega
  have htotal := @totalFrom_spec s.rest s.parts _ 0 ⟨none, s.text⟩ hfuel rfl
  rw [Nat.zero_add] at htotal
  exact htotal

/-- If the declarations exceed the limit, so does the computed total. -/
def BudgetLaw (s : Source) : Prop :=
  kDefaultLimit < s.bytes → kDefaultLimit < totalGroupsharedBytes s.text

/-- **The budget is not undercounted IF AND ONLY IF the declarations keep to it,
or what is seen of them exceeds it modulo 2³².** -/
theorem budgetLaw_iff (s : Source) :
    BudgetLaw s ↔ s.bytes ≤ kDefaultLimit ∨ kDefaultLimit < s.seenBytes % 2 ^ 32 := by
  unfold BudgetLaw
  rw [totalGroupsharedBytes_source]
  omega

/-! ## §8. Declarations that are counted as they are. -/

/-- One declarator, all of it on the keyword's line, its dimensions one right
behind the other; a matrix only of `float`. -/
structure Declaration.Plain (d : Declaration) : Prop where
  gap : d.gap.OnLine
  volatileGap : ∀ gap ∈ d.volatileGap, gap.OnLine
  nameGap : d.nameGap.OnLine
  single : d.others = []
  type : d.type.kind = .float ∨ ∀ rows columns, d.type.shape ≠ .matrix rows columns
  dims : ∀ n ∈ d.first.dims, n.gap.text = [] ∧ ¬ ('\r' ∈ n.left.text ∨ '\r' ∈ n.right.text)

theorem seenElements_plain {dims : List Dimension}
    (h : ∀ n ∈ dims, n.gap.text = [] ∧ ¬ ('\r' ∈ n.left.text ∨ '\r' ∈ n.right.text)) :
    seenElements dims = (dims.map fun n => decimal n.number.digits).prod := by
  induction dims with
  | nil => rfl
  | cons n ns ih =>
      obtain ⟨hgap, hcr⟩ := h n List.mem_cons_self
      rw [seenElements, if_neg (not_not.mpr hgap), if_neg hcr,
        ih fun m hm => h m (List.mem_cons_of_mem n hm), List.map_cons, List.prod_cons]

theorem seenBytes_type {type : ElementType}
    (h : type.kind = .float ∨ ∀ rows columns, type.shape ≠ .matrix rows columns) :
    type.seenBytes = type.bytes := by
  obtain ⟨kind, shape⟩ := type
  cases shape with
  | scalar => cases kind <;> rfl
  | vector n => cases kind <;> rfl
  | matrix rows columns =>
      rcases h with rfl | h
      · rfl
      · exact absurd rfl (h rows columns)

/-- A plain declaration is seen as a whole. -/
theorem seenBytes_plain {d : Declaration} (h : d.Plain) : d.seenBytes = d.bytes := by
  rw [Declaration.seenBytes, if_pos ⟨h.gap, h.volatileGap⟩, if_pos h.nameGap,
    seenBytes_type h.type, seenElements_plain h.dims, Declaration.bytes, h.single,
    Declarator.elements]
  rfl

/-- **Of plain declarations nothing is lost but what 32 bits cannot hold.** -/
theorem budgetLaw_plain {s : Source} (hplain : ∀ part ∈ s.parts, part.2.Plain)
    (hsmall : s.bytes < 2 ^ 32) :
    totalGroupsharedBytes s.text = s.bytes ∧ BudgetLaw s := by
  have hseen : s.seenBytes = s.bytes := by
    unfold Source.seenBytes Source.bytes
    congr 1
    exact List.map_congr_left fun part hpart => seenBytes_plain (hplain part hpart)
  have htotal : totalGroupsharedBytes s.text = s.bytes := by
    rw [totalGroupsharedBytes_source, hseen, Nat.mod_eq_of_lt hsmall]
  refine ⟨htotal, fun hlimit => ?_⟩
  rw [htotal]
  exact hlimit

/-- A blank. -/
def oneSpace : Space := ⟨⟨[' '], List.all_eq_true.mp (by decide)⟩, by decide⟩

def noGap : Gap := ⟨[], List.all_eq_true.mp (by decide)⟩

/-- `groupshared float a[4], b[9000];`. -/
def twoDeclarators : Source where
  parts :=
    [(⟨[], .nil⟩,
      { gap := oneSpace
        volatileGap := none
        type := ⟨.float, .scalar⟩
        nameGap := oneSpace
        first := ⟨⟨['a'], by decide, List.all_eq_true.mp (by decide), by decide⟩,
          [⟨noGap, noGap, ⟨['4'], by decide, List.all_eq_true.mp (by decide)⟩, noGap⟩]⟩
        others := [⟨noGap, oneSpace.toGap, ⟨⟨['b'], by decide, List.all_eq_true.mp (by decide), by decide⟩,
          [⟨noGap, noGap, ⟨"9000".toList, by decide, List.all_eq_true.mp (by decide)⟩, noGap⟩]⟩⟩]
        close := noGap })]
  rest := ⟨[], rfl⟩

/-- **The second declarator is not counted**: 16 bytes for 36016. -/
theorem twoDeclarators_undercounted :
    twoDeclarators.text = "groupshared float a[4], b[9000];".toList
      ∧ twoDeclarators.bytes = 36016 ∧ totalGroupsharedBytes twoDeclarators.text = 16
      ∧ ¬ BudgetLaw twoDeclarators := by
  have hbytes : twoDeclarators.bytes = 36016 := by decide +kernel
  have htotal : totalGroupsharedBytes twoDeclarators.text = 16 := by decide +kernel
  refine ⟨by decide +kernel, hbytes, htotal, fun hlaw => ?_⟩
  have hover := hlaw (by rw [hbytes]; decide)
  rw [htotal] at hover
  exact absurd hover (by decide)

end ShaderClippy.Rules.GroupsharedBudget
