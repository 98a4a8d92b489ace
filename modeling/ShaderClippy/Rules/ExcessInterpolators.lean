/-
  ShaderClippy.Rules.ExcessInterpolators

  **IS AN INTERPOLATOR BUDGET UNDERCOUNTED?** (`excess_interpolators.cpp`)

  The rule goes from one `struct` to the next and adds up the components of the
  fields that have an interpolator semantic, by a scan over the text. Of a field
  it sees the first word, if a space is somewhere in front of the colon: a
  modifier counts one component, so does a type with a CR in front; of a matrix
  one column counts; array dimensions and further declarators do not
  (`fieldComponents_field`). A keyword with a CR or a brace behind it is no
  struct.

  A struct above the budget is reported exactly where its keyword is seen and
  what is seen of its fields is above the budget, modulo 2³²
  (`interpolatorLaw_iff`).
-/
import Mathlib
import ShaderClippy.Rules.RayPayload

namespace ShaderClippy.Rules.ExcessInterpolators

open GroupsharedBudget (isIdChar isTrimmed isGapChar isComponentDigit digitOfSize Gap Space Shape
  Dimension dimsText closing_dims)
open RayPayload (pieces)
open Words (Breaks Quiet Closing findBefore)

/-! ## §1. The scan. -/

def kKw : Text := "struct".toList

def kSlotCount : Nat := 16

def kComponentsPerSlot : Nat := 4

/-- `k_threshold_components`. -/
def kThresholdComponents : Nat := kSlotCount * kComponentsPerSlot

/-- `trim`. -/
def trim (s : Text) : Text := Trim.trim isTrimmed s

/-- `suffix_count`. -/
def suffixCount (t : Text) (prefixLen : Nat) : Nat :=
  match t.drop prefixLen with
  | [] => 1
  | c :: _ => if isComponentDigit c then digitValue c else 1

/-- `component_count_of`. -/
def componentCountOf (t : Text) : Nat :=
  let startsWith := fun s : String => s.toList.isPrefixOf t
  if startsWith "float" then suffixCount t 5
  else if startsWith "uint" && !startsWith "uint64" then suffixCount t 4
  else if startsWith "int" && !startsWith "int64" then suffixCount t 3
  else if startsWith "half" then suffixCount t 4
  else if startsWith "bool" then suffixCount t 4
  else if startsWith "min16float" then suffixCount t 10
  else 1

/-- The semantics that the scan knows. -/
def kSemantics : List Text :=
  ["TEXCOORD".toList, "COLOR".toList, "BLENDINDICES".toList, "BLENDWEIGHT".toList, "NORMAL".toList,
    "TANGENT".toList, "BINORMAL".toList]

/-- `is_interpolator_semantic`. -/
def isInterpolatorSemantic (sem : Text) : Bool := kSemantics.any fun s => s.isPrefixOf (trim sem)

/-- The turn of the loop for one field: its components, or nothing if the loop
goes on without it. -/
def fieldComponents (piece : Text) : Option Nat :=
  let field := trim piece
  if field.isEmpty then none
  else
    match field.dropWhile (· != ':') with
    -- no colon
    | [] => none
    | _ :: right =>
        if isInterpolatorSemantic (trim right) then
          let lhs := trim (field.takeWhile (· != ':'))
          if lhs.contains ' ' then some (componentCountOf (trim (lhs.takeWhile (· != ' ')))) else none
        else none

/-- The total in 32 bits, and `any_interp`. -/
def addField (count : Nat × Bool) (piece : Text) : Nat × Bool :=
  match fieldComponents piece with
  | none => count
  | some n => ((count.1 + n) % 2 ^ 32, true)

/-- The loop over the fields; what no semicolon ends is none. -/
def countFields (body : Text) : Nat × Bool := (pieces body).foldl addField (0, false)

def componentsMessage (total : Nat) : Text :=
  "struct interpolator components total ".toList ++ Nat.toDigits 10 total ++ " (> ".toList
    ++ Nat.toDigits 10 kThresholdComponents
    ++ " hardware budget) -- the driver spills excess interpolators to ".toList
    ++ "per-vertex memory and pays the bandwidth on every primitive ".toList
    ++ "reassembly".toList

/-- What is reported of the text between the braces. -/
def checkBody (body : Text) : Option Text :=
  let (total, anyInterp) := countFields body
  if anyInterp && decide (kThresholdComponents < total) then some (componentsMessage total) else none

/-- A diagnostic: its span and its message. -/
structure Finding where
  lo : Nat
  hi : Nat
  message : Text

/-- The loop of `on_tree`, from `pos` on; `inWord`: a word character is in front. -/
def walkFrom : Nat → Bool → Nat → Text → List Finding
  | 0, _, _, _ => []
  | fuel + 1, inWord, pos, text =>
      match findBefore isIdChar isTrimmed kKw inWord pos text with
      | none => []
      | some (found, behindKw) =>
          let after := found + kKw.length
          match behindKw.dropWhile (· != '{') with
          | [] => walkFrom fuel true after behindKw
          | _ :: inside =>
              match inside.dropWhile (· != '}') with
              | [] => walkFrom fuel true after behindKw
              | _ :: behind =>
                  let body := inside.takeWhile (· != '}')
                  if body.isEmpty then walkFrom fuel true after behindKw
                  else
                    let hi := after + (behindKw.length - behind.length)
                    ((checkBody body).map fun message => ⟨found, hi, message⟩).toList
                      ++ walkFrom fuel false hi behind

/-- `on_tree`. -/
def onTree (bytes : Text) : List Finding := walkFrom (bytes.length + 1) false 0 bytes

/-! ## §2. Structs. -/

/-- A name: another word than the keyword. -/
structure Name where
  text : Text
  nonempty : text ≠ []
  word : ∀ c ∈ text, isIdChar c = true
  other : text ≠ kKw

inductive Kind where
  | float
  | half
  | int
  | uint
  | bool
  | min16float

def Kind.spelling : Kind → Text
  | .float => "float".toList
  | .half => "half".toList
  | .int => "int".toList
  | .uint => "uint".toList
  | .bool => "bool".toList
  | .min16float => "min16float".toList

/-- `float4`, `float4x4`, `vector<float, 4>` or `matrix<float, 4, 4>`. -/
inductive ElementType where
  | named (kind : Kind) (shape : Shape)
  | vector (before left : Gap) (kind : Kind) (close behind : Gap) (n : Fin 4) (right : Gap)
  | matrix (before left : Gap) (kind : Kind) (close behind : Gap) (rows : Fin 4)
      (close' behind' : Gap) (columns : Fin 4) (right : Gap)

def shapeSuffix : Shape → Text
  | .scalar => []
  | .vector n => [digitOfSize n]
  | .matrix rows columns => [digitOfSize rows, 'x', digitOfSize columns]

def ElementType.text : ElementType → Text
  | .named kind shape => kind.spelling ++ shapeSuffix shape
  | .vector before left kind close behind n right =>
      "vector".toList ++ (before.text ++ '<' :: (left.text ++ (kind.spelling ++ (close.text ++ ','
        :: (behind.text ++ ([digitOfSize n] ++ (right.text ++ ['>'])))))))
  | .matrix before left kind close behind rows close' behind' columns right =>
      "matrix".toList ++ (before.text ++ '<' :: (left.text ++ (kind.spelling ++ (close.text ++ ','
        :: (behind.text ++ ([digitOfSize rows] ++ (close'.text ++ ','
          :: (behind'.text ++ ([digitOfSize columns] ++ (right.text ++ ['>']))))))))))

theorem ElementType.text_vector (before left : Gap) (kind : Kind) (close behind : Gap) (n : Fin 4)
    (right : Gap) :
    (ElementType.vector before left kind close behind n right).text =
      "vector".toList ++ (before.text ++ '<' :: (left.text ++ (kind.spelling ++ (close.text ++ ','
        :: (behind.text ++ ([digitOfSize n] ++ (right.text ++ ['>']))))))) := rfl

theorem ElementType.text_matrix (before left : Gap) (kind : Kind) (close behind : Gap)
    (rows : Fin 4) (close' behind' : Gap) (columns : Fin 4) (right : Gap) :
    (ElementType.matrix before left kind close behind rows close' behind' columns right).text =
      "matrix".toList ++ (before.text ++ '<' :: (left.text ++ (kind.spelling ++ (close.text ++ ','
        :: (behind.text ++ ([digitOfSize rows] ++ (close'.text ++ ','
          :: (behind'.text ++ ([digitOfSize columns] ++ (right.text ++ ['>'])))))))))) := rfl

/-- The components of a value. -/
def ElementType.components : ElementType → Nat
  | .named _ .scalar => 1
  | .named _ (.vector n) => n.val + 1
  | .named _ (.matrix rows columns) => (rows.val + 1) * (columns.val + 1)
  | .vector _ _ _ _ _ n _ => n.val + 1
  | .matrix _ _ _ _ _ rows _ _ columns _ => (rows.val + 1) * (columns.val + 1)

inductive Modifier where
  | linear
  | centroid
  | nointerpolation
  | noperspective
  | sample

def Modifier.spelling : Modifier → Text
  | .linear => "linear".toList
  | .centroid => "centroid".toList
  | .nointerpolation => "nointerpolation".toList
  | .noperspective => "noperspective".toList
  | .sample => "sample".toList

/-- `: NAME`, with blanks on both sides of the colon. -/
structure Semantic where
  before : Gap
  behind : Gap
  name : Name

def Semantic.text (s : Semantic) : Text := s.before.text ++ ':' :: (s.behind.text ++ s.name.text)

/-- One of the interpolator semantics, in capitals or not, with an index or without. -/
def Semantic.isInterpolator (s : Semantic) : Bool :=
  kSemantics.contains ((s.name.text.map Char.toUpper).rdropWhile Char.isDigit)

/-- `name[n]… : SEMANTIC`. -/
structure Item where
  name : Name
  dims : List Dimension
  semantic : Option Semantic

def Item.text (i : Item) : Text :=
  i.name.text ++ (dimsText i.dims ++
    match i.semantic with
    | none => []
    | some s => s.text)

/-- The number of elements, if the semantic is an interpolator semantic. -/
def Item.elements (i : Item) : Nat :=
  if i.semantic.any Semantic.isInterpolator then (i.dims.map fun d => decimal d.number.digits).prod
  else 0

/-- An item behind a comma. -/
structure MoreItem where
  before : Gap
  behind : Gap
  item : Item

def MoreItem.text (m : MoreItem) : Text := m.before.text ++ ',' :: (m.behind.text ++ m.item.text)

/-- `modifiers type item, …, item`, with the blanks in front of it. -/
structure Field where
  front : Gap
  modifiers : List (Modifier × Space)
  type : ElementType
  gap : Space
  first : Item
  others : List MoreItem
  close : Gap

def modifiersText (modifiers : List (Modifier × Space)) : Text :=
  modifiers.flatMap fun m => m.1.spelling ++ m.2.text

/-- The field up to its semicolon. -/
def Field.text (f : Field) : Text :=
  f.front.text ++ (modifiersText f.modifiers ++ (f.type.text ++ (f.gap.text
    ++ (f.first.text ++ (f.others.flatMap MoreItem.text ++ f.close.text)))))

/-- The components of all that have an interpolator semantic. -/
def Field.components (f : Field) : Nat :=
  f.type.components * (f.first.elements + (f.others.map fun m => m.item.elements).sum)

/-- `struct … { fields }`. In front of the brace is a name, or none, or a base too. -/
structure Struct where
  head : Text
  noBrace : '{' ∉ head
  closing : Closing isIdChar kKw (head ++ ['{'])
  fields : List Field
  rest : Gap

def fieldsText (fields : List Field) : Text := fields.flatMap fun f => f.text ++ [';']

/-- What is between the braces. -/
def Struct.body (s : Struct) : Text := fieldsText s.fields ++ s.rest.text

def Struct.text (s : Struct) : Text := kKw ++ (s.head ++ '{' :: (s.body ++ ['}']))

/-- The exact number of components. -/
def Struct.components (s : Struct) : Nat := (s.fields.map Field.components).sum

/-- Text in which the keyword does not stand alone, and a struct. -/
abbrev Part := {t : Text // Quiet isIdChar kKw t} × Struct

def partsText (parts : List Part) : Text := parts.flatMap fun part => part.1.val ++ part.2.text

/-- A struct in a source: others are in front of it, and anything behind it. -/
structure Place where
  earlier : List Part
  between : {t : Text // Quiet isIdChar kKw t}
  struct : Struct
  behind : Text

def Place.lo (p : Place) : Nat := (partsText p.earlier).length + p.between.val.length

def Place.hi (p : Place) : Nat := p.lo + p.struct.text.length

def Place.source (p : Place) : Text :=
  partsText p.earlier ++ (p.between.val ++ (p.struct.text ++ p.behind))

/-! ## §3. What the scan sees. -/

/-- Of a matrix one column, nothing of a template. -/
def ElementType.seenComponents : ElementType → Nat
  | .named _ .scalar => 1
  | .named _ (.vector n) => n.val + 1
  | .named _ (.matrix rows _) => rows.val + 1
  | .vector .. | .matrix .. => 1

/-- The first word counts, and a CR in front of it is one. -/
def Field.wordComponents (f : Field) : Nat :=
  if '\r' ∈ f.front.text ∨ f.modifiers ≠ [] then 1 else f.type.seenComponents

/-- The first semantic of a field. -/
def Field.semantic (f : Field) : Option Semantic :=
  (f.first :: f.others.map MoreItem.item).findSome? Item.semantic

/-- No CR is in front of the name, and it begins with one of the known names, in
capitals. -/
def Semantic.Seen (s : Semantic) : Prop :=
  '\r' ∉ s.behind.text ∧ kSemantics.any (fun k => k.isPrefixOf s.name.text) = true

instance (s : Semantic) : Decidable s.Seen := inferInstanceAs (Decidable (_ ∧ _))

/-- There is a space in front of the first colon, not only at the ends. -/
def Field.Spaced (f : Field) : Prop := ' ' ∈ trim (f.text.takeWhile (· != ':'))

instance (f : Field) : Decidable f.Spaced := inferInstanceAs (Decidable (_ ∈ _))

def Field.seenComponents (f : Field) : Nat :=
  match f.semantic with
  | none => 0
  | some s => if s.Seen ∧ f.Spaced then f.wordComponents else 0

/-- All the scan sees. -/
def Struct.seenComponents (s : Struct) : Nat := (s.fields.map Field.seenComponents).sum

/-- A space, a tab or a line feed is behind the keyword. -/
def Struct.KeywordSeen (s : Struct) : Prop := (s.head ++ ['{']).head?.any isTrimmed = true

instance (s : Struct) : Decidable s.KeywordSeen := inferInstanceAs (Decidable (_ = true))

/-! ## §4. The walk. -/

theorem kKw_ne : kKw ≠ [] := by decide

theorem kKw_word : ∀ c ∈ kKw, isIdChar c = true := List.all_eq_true.mp (by decide)

theorem kKw_letters : kKw.all Char.isDigit = false := by decide

theorem trimmed_separator (c : Char) (h : isTrimmed c = true) : isIdChar c = false := by
  simp only [isTrimmed, Bool.or_eq_true, beq_iff_eq] at h
  obtain (rfl | rfl) | rfl := h
  all_goals decide

/-- What the walk finds depends on where it finds the keyword next. -/
theorem walk_congr {inWord inWord' : Bool} {pos pos' : Nat} {t t' : Text}
    (h : findBefore isIdChar isTrimmed kKw inWord pos t
      = findBefore isIdChar isTrimmed kKw inWord' pos' t') (fuel : Nat) :
    walkFrom fuel inWord pos t = walkFrom fuel inWord' pos' t' := by
  cases fuel with
  | zero => rfl
  | succ fuel => rw [walkFrom, walkFrom, h]

theorem walk_quiet {t : Text} (ht : Quiet isIdChar kKw t) (s : Text) (fuel pos : Nat) :
    walkFrom fuel false pos (t ++ s) = walkFrom fuel false (pos + t.length) s :=
  walk_congr (Words.findBefore_quiet kKw_ne kKw_word trimmed_separator ht s pos) fuel

/-- Nothing in front of `pos` is found. -/
theorem walk_le {fuel : Nat} : ∀ {inWord : Bool} {pos : Nat} {t : Text},
    ∀ f ∈ walkFrom fuel inWord pos t, pos ≤ f.lo := by
  induction fuel with
  | zero => exact nofun
  | succ fuel ih =>
      intro inWord pos t f hf
      rw [walkFrom] at hf
      split at hf
      case h_1 => cases hf
      case h_2 found behindKw hfind =>
          have hle := Words.findBefore_le hfind
          -- wherever the walk goes on, it is behind the keyword
          have hon : ∀ {w : Bool} {n : Nat} {s : Text}, found ≤ n → f ∈ walkFrom fuel w n s →
              pos ≤ f.lo := fun hn hmem => hle.trans (hn.trans (ih f hmem))
          have hafter : found ≤ found + kKw.length := Nat.le_add_right ..
          dsimp only at hf
          split at hf
          · exact hon hafter hf
          · split at hf
            · exact hon hafter hf
            · split at hf
              · exact hon hafter hf
              · obtain hf | hf := List.mem_append.mp hf
                · obtain ⟨message, -, rfl⟩ := Option.map_eq_some_iff.mp (Option.mem_toList.mp hf)
                  exact hle
                · exact hon (by omega) hf

/-! ## §5. Texts without the keyword. -/

/-- The characters that fields are written with. -/
def isBodyChar (c : Char) : Bool := RayPayload.isFieldChar c || c == ':' || c == '<' || c == '>'

theorem word_bodyChar {w : Text} (h : ∀ c ∈ w, isIdChar c = true) : ∀ c ∈ w, isBodyChar c = true := by
  intro c hc
  unfold isBodyChar
  rw [RayPayload.word_fieldChar h c hc]
  rfl

theorem gap_bodyChar (g : Gap) : ∀ c ∈ g.text, isBodyChar c = true := by
  intro c hc
  unfold isBodyChar
  rw [RayPayload.gap_fieldChar g c hc]
  rfl

theorem dims_bodyChar (dims : List Dimension) : ∀ c ∈ dimsText dims, isBodyChar c = true := by
  intro c hc
  unfold isBodyChar
  rw [RayPayload.dims_fieldChar dims c hc]
  rfl

/-- A name of a type or of a modifier is another word than the keyword. -/
structure IsWord (w : Text) : Prop where
  nonempty : w ≠ []
  word : ∀ c ∈ w, isIdChar c = true
  other : w ≠ kKw

theorem digit_isWord (n : Fin 4) : IsWord [digitOfSize n] := by
  revert n
  have h : ∀ n : Fin 4, isIdChar (digitOfSize n) = true ∧ [digitOfSize n] ≠ kKw := by decide
  exact fun n => ⟨nofun, fun c hc => List.mem_singleton.mp hc ▸ (h n).1, (h n).2⟩

theorem kind_isWord (k : Kind) : IsWord k.spelling := by
  cases k <;> exact ⟨by decide, List.all_eq_true.mp (by decide), by decide⟩

theorem modifier_isWord (m : Modifier) : IsWord m.spelling := by
  cases m <;> exact ⟨by decide, List.all_eq_true.mp (by decide), by decide⟩

theorem named_isWord (k : Kind) (shape : Shape) : IsWord (k.spelling ++ shapeSuffix shape) := by
  refine ⟨fun h => (kind_isWord k).nonempty (List.append_eq_nil_iff.mp h).1, ?_, ?_⟩
  · intro c hc
    obtain hc | hc := List.mem_append.mp hc
    · exact (kind_isWord k).word c hc
    · cases shape with
      | scalar => cases hc
      | vector n => exact (digit_isWord n).word c hc
      | matrix rows columns =>
          simp only [shapeSuffix, List.mem_cons, List.not_mem_nil, or_false] at hc
          obtain rfl | rfl | rfl := hc
          · exact (digit_isWord rows).word _ List.mem_cons_self
          · decide
          · exact (digit_isWord columns).word _ List.mem_cons_self
  · -- no kind begins with the letter of the keyword
    intro h
    cases k <;> exact absurd (List.cons.inj h).1 (by decide)

theorem vector_isWord : IsWord "vector".toList :=
  ⟨by decide, List.all_eq_true.mp (by decide), by decide⟩

theorem matrix_isWord : IsWord "matrix".toList :=
  ⟨by decide, List.all_eq_true.mp (by decide), by decide⟩

section

variable {t : Text} (ht : Closing isIdChar kKw t)

include ht

theorem IsWord.quiet {w : Text} (hw : IsWord w) : Quiet isIdChar kKw (w ++ t) :=
  .other hw.word hw.other ht.breaks ht.quiet

theorem quiet_name (n : Name) : Quiet isIdChar kKw (n.text ++ t) :=
  .other n.word n.other ht.breaks ht.quiet

end

/-- A symbol, blanks and what is behind it. -/
theorem closing_symbol {c : Char} (hc : isIdChar c = false) (before behind : Gap) {t : Text}
    (ht : Quiet isIdChar kKw t) :
    Closing isIdChar kKw (before.text ++ c :: (behind.text ++ t)) :=
  (Words.closing_cons hc (ht.separators behind.separators)).separators before.separators

theorem quiet_type {t : Text} (ht : Closing isIdChar kKw t) (type : ElementType) :
    Quiet isIdChar kKw (type.text ++ t) := by
  have hend : ∀ right : Gap, Closing isIdChar kKw (right.text ++ '>' :: t) := fun right =>
    (Words.closing_cons (by decide) ht.quiet).separators right.separators
  cases type with
  | named kind shape => exact (named_isWord kind shape).quiet ht
  | vector before left kind close behind n right =>
      have hsize := (digit_isWord n).quiet (hend right)
      have hkind := (kind_isWord kind).quiet
        (closing_symbol (c := ',') (by decide) close behind hsize)
      have hall := vector_isWord.quiet (closing_symbol (c := '<') (by decide) before left hkind)
      simpa only [ElementType.text_vector, List.append_assoc, List.cons_append, List.nil_append] using hall
  | matrix before left kind close behind rows close' behind' columns right =>
      have hcolumns := (digit_isWord columns).quiet (hend right)
      have hrows := (digit_isWord rows).quiet
        (closing_symbol (c := ',') (by decide) close' behind' hcolumns)
      have hkind := (kind_isWord kind).quiet
        (closing_symbol (c := ',') (by decide) close behind hrows)
      have hall := matrix_isWord.quiet (closing_symbol (c := '<') (by decide) before left hkind)
      simpa only [ElementType.text_matrix, List.append_assoc, List.cons_append, List.nil_append] using hall

theorem quiet_item {t : Text} (ht : Closing isIdChar kKw t) (i : Item) :
    Quiet isIdChar kKw (i.text ++ t) := by
  have hsemantic : Closing isIdChar kKw
      ((match i.semantic with
        | none => []
        | some s => s.text) ++ t) := by
    cases i.semantic with
    | none => exact ht
    | some s =>
        have h := closing_symbol (c := ':') (by decide) s.before s.behind (quiet_name ht s.name)
        simpa only [Semantic.text, List.append_assoc, List.cons_append] using h
  have hall := quiet_name (closing_dims kKw_letters hsemantic i.dims) i.name
  simpa only [Item.text, List.append_assoc] using hall

theorem closing_others {t : Text} (ht : Closing isIdChar kKw t) (others : List MoreItem) :
    Closing isIdChar kKw (others.flatMap MoreItem.text ++ t) := by
  induction others with
  | nil => exact ht
  | cons m ms ih =>
      have h := closing_symbol (c := ',') (by decide) m.before m.behind (quiet_item ih m.item)
      simpa only [List.flatMap_cons, MoreItem.text, List.append_assoc, List.cons_append] using h

theorem quiet_modifiers {t : Text} (ht : Quiet isIdChar kKw t) (modifiers : List (Modifier × Space)) :
    Quiet isIdChar kKw (modifiersText modifiers ++ t) := by
  induction modifiers with
  | nil => exact ht
  | cons m ms ih =>
      have h := (modifier_isWord m.1).quiet (m.2.closing ih)
      simpa only [modifiersText, List.flatMap_cons, List.append_assoc] using h

theorem quiet_field {t : Text} (ht : Closing isIdChar kKw t) (f : Field) :
    Quiet isIdChar kKw (f.text ++ t) := by
  have hothers := closing_others (ht.separators f.close.separators) f.others
  have hfirst := f.gap.closing (quiet_item hothers f.first)
  have hall := (quiet_modifiers (quiet_type hfirst f.type) f.modifiers).separators f.front.separators
  simpa only [Field.text, List.append_assoc] using hall

theorem quiet_body (s : Struct) : Quiet isIdChar kKw (s.body ++ ['}']) := by
  have hend : Closing isIdChar kKw ['}'] := Words.closing_cons (by decide) .nil
  have hrest := (hend.separators s.rest.separators).quiet
  unfold Struct.body
  rw [List.append_assoc]
  induction s.fields with
  | nil => exact hrest
  | cons f fs ih =>
      have h := quiet_field (Words.closing_cons (c := ';') (by decide) ih) f
      simpa only [fieldsText, List.flatMap_cons, List.append_assoc, List.cons_append,
        List.nil_append] using h

/-- What is behind the keyword. -/
theorem closing_struct (s : Struct) :
    Closing isIdChar kKw (s.head ++ '{' :: (s.body ++ ['}'])) := by
  have hquiet := s.closing.quiet.append (quiet_body s)
  have hbreaks := s.closing.breaks.append (s.body ++ ['}'])
  rw [List.append_assoc] at hquiet hbreaks
  exact ⟨hbreaks, hquiet⟩

/-! ## §6. The characters of a field. -/

theorem type_bodyChar (type : ElementType) : ∀ c ∈ type.text, isBodyChar c = true := by
  have hkind : ∀ (k : Kind), ∀ c ∈ k.spelling, isBodyChar c = true :=
    fun k => word_bodyChar (kind_isWord k).word
  have hdigit : ∀ n : Fin 4, isBodyChar (digitOfSize n) = true :=
    fun n => word_bodyChar (digit_isWord n).word _ List.mem_cons_self
  intro c hc
  cases type with
  | named kind shape => exact word_bodyChar (named_isWord kind shape).word c hc
  | vector before left kind close behind n right =>
      simp only [ElementType.text_vector, List.mem_append, List.mem_cons, List.not_mem_nil, or_false] at hc
      obtain hc | hc | rfl | hc | hc | hc | rfl | hc | rfl | hc | rfl := hc
      · exact word_bodyChar vector_isWord.word c hc
      · exact gap_bodyChar before c hc
      · rfl
      · exact gap_bodyChar left c hc
      · exact hkind kind c hc
      · exact gap_bodyChar close c hc
      · rfl
      · exact gap_bodyChar behind c hc
      · exact hdigit n
      · exact gap_bodyChar right c hc
      · rfl
  | matrix before left kind close behind rows close' behind' columns right =>
      simp only [ElementType.text_matrix, List.mem_append, List.mem_cons, List.not_mem_nil, or_false] at hc
      obtain hc | hc | rfl | hc | hc | hc | rfl | hc | rfl | hc | rfl | hc | rfl | hc | rfl := hc
      · exact word_bodyChar matrix_isWord.word c hc
      · exact gap_bodyChar before c hc
      · rfl
      · exact gap_bodyChar left c hc
      · exact hkind kind c hc
      · exact gap_bodyChar close c hc
      · rfl
      · exact gap_bodyChar behind c hc
      · exact hdigit rows
      · exact gap_bodyChar close' c hc
      · rfl
      · exact gap_bodyChar behind' c hc
      · exact hdigit columns
      · exact gap_bodyChar right c hc
      · rfl

theorem item_bodyChar (i : Item) : ∀ c ∈ i.text, isBodyChar c = true := by
  intro c hc
  simp only [Item.text, List.mem_append] at hc
  obtain hc | hc | hc := hc
  · exact word_bodyChar i.name.word c hc
  · exact dims_bodyChar i.dims c hc
  · cases hs : i.semantic with
    | none =>
        rw [hs] at hc
        cases hc
    | some s =>
        rw [hs] at hc
        simp only [Semantic.text, List.mem_append, List.mem_cons] at hc
        obtain hc | rfl | hc | hc := hc
        · exact gap_bodyChar s.before c hc
        · rfl
        · exact gap_bodyChar s.behind c hc
        · exact word_bodyChar s.name.word c hc

theorem others_bodyChar (others : List MoreItem) :
    ∀ c ∈ others.flatMap MoreItem.text, isBodyChar c = true := by
  intro c hc
  obtain ⟨m, _, hc⟩ := List.mem_flatMap.mp hc
  simp only [MoreItem.text, List.mem_append, List.mem_cons] at hc
  obtain hc | rfl | hc | hc := hc
  · exact gap_bodyChar m.before c hc
  · rfl
  · exact gap_bodyChar m.behind c hc
  · exact item_bodyChar m.item c hc

/-- What is in front of the first item. -/
def Field.prelude (f : Field) : Text :=
  f.front.text ++ (modifiersText f.modifiers ++ (f.type.text ++ f.gap.text))

theorem Field.text_eq (f : Field) :
    f.text = f.prelude ++ (f.first.text ++ (f.others.flatMap MoreItem.text ++ f.close.text)) := by
  simp only [Field.text, Field.prelude, List.append_assoc]

theorem modifiers_bodyChar (modifiers : List (Modifier × Space)) :
    ∀ c ∈ modifiersText modifiers, isBodyChar c = true := by
  intro c hc
  obtain ⟨m, _, hc⟩ := List.mem_flatMap.mp hc
  obtain hc | hc := List.mem_append.mp hc
  · exact word_bodyChar (modifier_isWord m.1).word c hc
  · exact gap_bodyChar m.2.toGap c hc

theorem field_bodyChar (f : Field) : ∀ c ∈ f.text, isBodyChar c = true := by
  intro c hc
  simp only [Field.text, List.mem_append] at hc
  obtain hc | hc | hc | hc | hc | hc | hc := hc
  · exact gap_bodyChar f.front c hc
  · exact modifiers_bodyChar f.modifiers c hc
  · exact type_bodyChar f.type c hc
  · exact gap_bodyChar f.gap.toGap c hc
  · exact item_bodyChar f.first c hc
  · exact others_bodyChar f.others c hc
  · exact gap_bodyChar f.close c hc

theorem not_mem_of_bodyChar {t : Text} (ht : ∀ c ∈ t, isBodyChar c = true) {c : Char}
    (hc : isBodyChar c = false) : c ∉ t := by
  intro hmem
  rw [ht c hmem] at hc
  cases hc

theorem body_close (s : Struct) : '}' ∉ s.body := by
  intro hmem
  obtain hmem | hmem := List.mem_append.mp hmem
  · obtain ⟨f, _, hmem⟩ := List.mem_flatMap.mp hmem
    obtain hmem | hmem := List.mem_append.mp hmem
    · exact not_mem_of_bodyChar (field_bodyChar f) rfl hmem
    · exact absurd (List.mem_singleton.mp hmem) (by decide)
  · exact not_mem_of_bodyChar (gap_bodyChar s.rest) rfl hmem

/-- The pieces that the loop over the fields sees are the fields. -/
theorem pieces_body (s : Struct) : pieces s.body = s.fields.map Field.text := by
  unfold Struct.body
  induction s.fields with
  | nil => exact RayPayload.pieces_unbroken (not_mem_of_bodyChar (gap_bodyChar s.rest) rfl)
  | cons f fs ih =>
      have hsplit : fieldsText (f :: fs) ++ s.rest.text
          = f.text ++ ';' :: (fieldsText fs ++ s.rest.text) := by
        simp [fieldsText]
      have hf : ';' ∉ f.text := not_mem_of_bodyChar (field_bodyChar f) rfl
      rw [hsplit, RayPayload.pieces_append, Lines.split_of_unbroken ';' hf, ih]
      rfl

/-! ## §7. What a field is seen for. -/

/-- What is behind a word. -/
def Apart (r : Text) : Prop := r = [] ∨ Breaks isIdChar r

theorem Apart.head {r : Text} (h : Apart r) {c : Char} (hc : r.head? = some c) : isIdChar c = false := by
  obtain rfl | ⟨d, ds, rfl, hd⟩ := h
  · cases hc
  · cases hc
    exact hd

/-- A word is not longer for what is behind it. -/
theorem isPrefixOf_apart {k w r : Text} (hk : ∀ c ∈ k, isIdChar c = true) (hr : Apart r) :
    k.isPrefixOf (w ++ r) = k.isPrefixOf w := by
  induction k generalizing w with
  | nil => rfl
  | cons c k ih =>
      cases w with
      | nil =>
          rw [List.nil_append]
          cases r with
          | nil => rfl
          | cons d r =>
              have hd := hr.head rfl
              have hne : (c == d) = false := by
                rw [beq_eq_false_iff_ne]
                rintro rfl
                rw [hk c List.mem_cons_self] at hd
                cases hd
              show (c == d && k.isPrefixOf r) = false
              rw [hne, Bool.false_and]
      | cons d w =>
          rw [List.cons_append, List.isPrefixOf, List.isPrefixOf,
            ih fun x hx => hk x (List.mem_cons_of_mem c hx)]

theorem suffixCount_apart {w r : Text} {n : Nat} (hn : n ≤ w.length) (hr : Apart r) :
    suffixCount (w ++ r) n = suffixCount w n := by
  unfold suffixCount
  rw [List.drop_append_of_le_length hn]
  cases hdrop : w.drop n with
  | cons c cs => rfl
  | nil =>
      cases r with
      | nil => rfl
      | cons d r =>
          -- what breaks a word is no digit
          have hdigit : isComponentDigit d = false := by
            have hd := hr.head rfl
            rw [← Bool.not_eq_true]
            intro hcomponent
            simp only [isComponentDigit, Bool.and_eq_true, decide_eq_true_eq] at hcomponent
            have hword : isIdChar d = true := by
              have h0 : '0' ≤ d := Char.le_trans (show '0' ≤ '1' by decide) hcomponent.1
              have h9 : d ≤ '9' := Char.le_trans hcomponent.2 (show '4' ≤ '9' by decide)
              simp only [isIdChar, Bool.or_eq_true, Bool.and_eq_true, decide_eq_true_eq]
              exact Or.inl (Or.inr ⟨h0, h9⟩)
            rw [hd] at hword
            cases hword
          show (if isComponentDigit d = true then _ else 1) = 1
          rw [hdigit]
          rfl

/-- **Only the word counts**, not what is behind it. -/
theorem componentCountOf_apart {w r : Text} (hr : Apart r) :
    componentCountOf (w ++ r) = componentCountOf w := by
  have hbegins : ∀ s : String, (∀ c ∈ s.toList, isIdChar c = true) →
      s.toList.isPrefixOf (w ++ r) = s.toList.isPrefixOf w := fun s hs => isPrefixOf_apart hs hr
  have hsuffix : ∀ s : String, s.toList.isPrefixOf w = true →
      suffixCount (w ++ r) s.toList.length = suffixCount w s.toList.length := by
    intro s hs
    exact suffixCount_apart (List.isPrefixOf_iff_prefix.mp hs).length_le hr
  unfold componentCountOf
  simp only [hbegins "float" (List.all_eq_true.mp (by decide)),
    hbegins "uint" (List.all_eq_true.mp (by decide)), hbegins "uint64" (List.all_eq_true.mp (by decide)),
    hbegins "int" (List.all_eq_true.mp (by decide)), hbegins "int64" (List.all_eq_true.mp (by decide)),
    hbegins "half" (List.all_eq_true.mp (by decide)), hbegins "bool" (List.all_eq_true.mp (by decide)),
    hbegins "min16float" (List.all_eq_true.mp (by decide))]
  split
  case isTrue h => exact hsuffix "float" h
  case isFalse =>
    split
    case isTrue h => exact hsuffix "uint" (Bool.and_eq_true_iff.mp h).1
    case isFalse =>
      split
      case isTrue h => exact hsuffix "int" (Bool.and_eq_true_iff.mp h).1
      case isFalse =>
        split
        case isTrue h => exact hsuffix "half" h
        case isFalse =>
          split
          case isTrue h => exact hsuffix "bool" h
          case isFalse =>
            split
            case isTrue h => exact hsuffix "min16float" h
            case isFalse => rfl

theorem Apart.front {r r' : Text} (h : Apart r) (hbegins : r' <+: r) : Apart r' := by
  obtain ⟨u, hu⟩ := hbegins
  cases r' with
  | nil => exact Or.inl rfl
  | cons c cs => exact Or.inr ⟨c, cs, rfl, h.head (by rw [← hu]; rfl)⟩

theorem word_untrimmed {c : Char} (h : isIdChar c = true) : isTrimmed c = false := by
  rw [← Bool.not_eq_true]
  intro htrimmed
  rw [trimmed_separator c htrimmed] at h
  cases h

/-- A word in front stays. -/
theorem trim_word {w : Text} (hne : w ≠ []) (hw : ∀ c ∈ w, isIdChar c = true) (r : Text) :
    trim (w ++ r) = w ++ r.rdropWhile isTrimmed := by
  obtain ⟨a, d, rfl⟩ := (List.eq_nil_or_concat w).resolve_left hne
  rw [List.concat_eq_append] at hw ⊢
  have hd : isTrimmed d = false := word_untrimmed (hw d (by simp))
  have ha : a.dropWhile isTrimmed = a :=
    Trim.dropWhile_head fun c hc =>
      word_untrimmed (hw c (List.mem_append_left _ (List.mem_of_head? hc)))
  have hsplit : a ++ [d] ++ r = a ++ d :: r := by simp
  unfold trim
  rw [hsplit, Trim.trim_append_stop hd, ha, List.append_assoc]
  rfl

/-- A gap is trimmed away up to its first CR. -/
theorem trim_gap (g : Gap) (u : Text) :
    ('\r' ∉ g.text → trim (g.text ++ u) = trim u)
      ∧ ('\r' ∈ g.text → ∃ v, trim (g.text ++ u) = '\r' :: v) := by
  have hcases : ∀ c ∈ g.text, isTrimmed c = true ∨ c = '\r' := by
    intro c hc
    obtain (rfl | rfl) | (rfl | rfl) := GroupsharedBudget.isGapChar_iff.mp (g.blank c hc)
    · exact Or.inl rfl
    · exact Or.inl rfl
    · exact Or.inl rfl
    · exact Or.inr rfl
  constructor
  · intro hcr
    have hblank : Trim.Blank isTrimmed g.text := fun c hc =>
      (hcases c hc).resolve_right fun h => hcr (h ▸ hc)
    have h := Trim.trim_append_blank (s := u) (b := []) hblank nofun
    rw [List.append_nil] at h
    exact h
  · intro hcr
    have hsplit := List.takeWhile_append_dropWhile (p := isTrimmed) (l := g.text)
    have hstop := List.head?_dropWhile_not isTrimmed g.text
    cases hdrop : g.text.dropWhile isTrimmed with
    | nil => exact absurd (List.dropWhile_eq_nil_iff.mp hdrop '\r' hcr) (by decide)
    | cons d ds =>
        rw [hdrop] at hsplit hstop
        have hkept : isTrimmed d = false := hstop
        have hd : d = '\r' :=
          (hcases d (by rw [← hsplit]; simp)).resolve_left (by rw [hkept]; exact Bool.false_ne_true)
        rw [hd] at hsplit
        have hblank : Trim.Blank isTrimmed (g.text.takeWhile isTrimmed) :=
          fun c hc => List.mem_takeWhile_imp hc
        have h := Trim.trim_append_blank (s := '\r' :: (ds ++ u)) (b := []) hblank nofun
        have htext : g.text ++ u = g.text.takeWhile isTrimmed ++ '\r' :: (ds ++ u) ++ [] := by
          conv_lhs => rw [← hsplit]
          simp
        refine ⟨(ds ++ u).rdropWhile isTrimmed, ?_⟩
        unfold trim
        rw [htext, h, ← List.nil_append ('\r' :: (ds ++ u)), Trim.trim_append_stop (by decide)]
        rfl

/-- The first word of a field, without the blanks in front of it. -/
theorem prelude_word (f : Field) (u : Text) : ∃ w r,
    modifiersText f.modifiers ++ (f.type.text ++ (f.gap.text ++ u)) = w ++ r
      ∧ IsWord w ∧ Apart r
      ∧ componentCountOf w = if f.modifiers ≠ [] then 1 else f.type.seenComponents := by
  have hspace : ∀ (g : Space) (t : Text), Apart (g.text ++ t) := by
    intro g t
    obtain ⟨c, cs, hcons⟩ := List.exists_cons_of_ne_nil g.nonempty
    exact Or.inr ⟨c, cs ++ t, by rw [hcons]; rfl, g.separators c (by rw [hcons]; exact List.mem_cons_self)⟩
  have hsymbol : ∀ (g : Gap) {c : Char} (t : Text), isIdChar c = false → Apart (g.text ++ c :: t) := by
    intro g c t hc
    cases hg : g.text with
    | nil => exact Or.inr ⟨c, t, rfl, hc⟩
    | cons d ds => exact Or.inr ⟨d, _, rfl, g.separators d (by rw [hg]; exact List.mem_cons_self)⟩
  cases f.modifiers with
  | cons m ms =>
      refine ⟨m.1.spelling, m.2.text ++ (modifiersText ms ++ (f.type.text ++ (f.gap.text ++ u))), ?_,
        modifier_isWord m.1, hspace m.2 _, ?_⟩
      · simp [modifiersText]
      · rw [if_pos (List.cons_ne_nil m ms)]
        cases m.1 <;> decide
  | nil =>
      rw [if_neg (not_not.mpr rfl)]
      cases f.type with
      | named kind shape =>
          refine ⟨_, f.gap.text ++ u, rfl, named_isWord kind shape, hspace f.gap u, ?_⟩
          cases shape with
          | scalar => cases kind <;> decide
          | vector n =>
              revert n
              cases kind <;> decide
          | matrix rows columns =>
              revert rows columns
              cases kind <;> decide
      | vector before left kind close behind n right =>
          refine ⟨"vector".toList, before.text ++ '<' :: (left.text ++ (kind.spelling ++ (close.text ++ ','
            :: (behind.text ++ ([digitOfSize n] ++ (right.text ++ '>' :: (f.gap.text ++ u))))))), ?_,
            vector_isWord, hsymbol before _ (by decide),
            show componentCountOf "vector".toList = 1 by decide⟩
          simp [ElementType.text_vector, modifiersText]
      | matrix before left kind close behind rows close' behind' columns right =>
          refine ⟨"matrix".toList, before.text ++ '<' :: (left.text ++ (kind.spelling ++ (close.text ++ ','
            :: (behind.text ++ ([digitOfSize rows] ++ (close'.text ++ ',' :: (behind'.text
              ++ ([digitOfSize columns] ++ (right.text ++ '>' :: (f.gap.text ++ u)))))))))), ?_,
            matrix_isWord, hsymbol before _ (by decide),
            show componentCountOf "matrix".toList = 1 by decide⟩
          simp [ElementType.text_matrix, modifiersText]

/-- **The first word counts.** -/
theorem firstWord_components (f : Field) (u : Text) :
    componentCountOf (trim ((trim (f.prelude ++ u)).takeWhile (· != ' '))) = f.wordComponents := by
  obtain ⟨w, r, hsplit, hw, hr, hcount⟩ := prelude_word f u
  have hlead : f.prelude ++ u = f.front.text ++ (w ++ r) := by
    rw [← hsplit]
    simp [Field.prelude]
  have hword : ∀ c ∈ w, (c != ' ') = true := by
    intro c hc
    rw [bne_iff_ne]
    rintro rfl
    exact absurd (hw.word ' ' hc) (by decide)
  unfold Field.wordComponents
  rw [hlead]
  by_cases hcr : '\r' ∈ f.front.text
  · obtain ⟨v, hv⟩ := (trim_gap f.front (w ++ r)).2 hcr
    rw [if_pos (Or.inl hcr), hv]
    -- the CR is what the text begins with
    show componentCountOf (trim ('\r' :: v.takeWhile (· != ' '))) = 1
    unfold trim
    rw [← List.nil_append ('\r' :: _), Trim.trim_append_stop (by decide)]
    rfl
  · rw [(trim_gap f.front (w ++ r)).1 hcr, trim_word hw.nonempty hw.word,
      List.takeWhile_append_of_pos hword, trim_word hw.nonempty hw.word,
      componentCountOf_apart ((hr.front (List.rdropWhile_prefix _ _)).front
        ((List.rdropWhile_prefix _ _).trans (List.takeWhile_prefix _))), hcount]
    simp only [hcr, false_or]

/-- A text of items is cut at the colon of its first semantic. -/
def CutAt (semantic : Option Semantic) (text : Text) : Prop :=
  match semantic with
  | none => ':' ∉ text
  | some s => ∃ lead tail, text = lead ++ ':' :: (s.behind.text ++ (s.name.text ++ tail))
      ∧ ':' ∉ lead ∧ Apart tail

theorem CutAt.append {semantic : Option Semantic} {t : Text} (h : CutAt semantic t) {u : Text}
    (hu : ':' ∉ u) : CutAt semantic (u ++ t) := by
  cases semantic with
  | none => exact fun hmem => (List.mem_append.mp hmem).elim hu h
  | some s =>
      obtain ⟨lead, tail, rfl, hlead, htail⟩ := h
      refine ⟨u ++ lead, tail, by simp, ?_, htail⟩
      exact fun hmem => (List.mem_append.mp hmem).elim hu hlead

theorem gap_colon (g : Gap) : ':' ∉ g.text := by
  intro hmem
  exact absurd (g.blank ':' hmem) (by decide)

theorem named_colon (n : Name) (dims : List Dimension) : ':' ∉ n.text ++ dimsText dims := by
  intro hmem
  obtain hmem | hmem := List.mem_append.mp hmem
  · exact absurd (n.word ':' hmem) (by decide)
  · exact absurd (RayPayload.dims_fieldChar dims ':' hmem) (by decide)

theorem apart_gap (g : Gap) : Apart g.text := by
  cases hg : g.text with
  | nil => exact Or.inl rfl
  | cons c cs => exact Or.inr ⟨c, cs, rfl, g.separators c (by rw [hg]; exact List.mem_cons_self)⟩

theorem apart_others (others : List MoreItem) (close : Gap) :
    Apart (others.flatMap MoreItem.text ++ close.text) := by
  cases others with
  | nil => exact apart_gap close
  | cons m ms =>
      have hcomma : Apart (m.before.text ++ ',' :: (m.behind.text ++ m.item.text)) := by
        cases hg : m.before.text with
        | nil => exact Or.inr ⟨',', _, rfl, by decide⟩
        | cons c cs =>
            exact Or.inr ⟨c, _, rfl, m.before.separators c (by rw [hg]; exact List.mem_cons_self)⟩
      obtain hnil | hbreaks := hcomma
      · simp at hnil
      · refine Or.inr ?_
        rw [List.flatMap_cons, List.append_assoc]
        exact hbreaks.append _

theorem items_cut (close : Gap) (others : List MoreItem) : ∀ first : Item,
    CutAt ((first :: others.map MoreItem.item).findSome? Item.semantic)
      (first.text ++ (others.flatMap MoreItem.text ++ close.text)) := by
  induction others with
  | nil =>
      intro first
      cases hs : first.semantic with
      | none =>
          have hnone : [first].findSome? Item.semantic = none := by simp [hs]
          have htext : first.text = first.name.text ++ dimsText first.dims := by simp [Item.text, hs]
          rw [List.map_nil, hnone, htext]
          intro hmem
          exact (List.mem_append.mp hmem).elim (named_colon _ _) (gap_colon close)
      | some s =>
          have hsome : [first].findSome? Item.semantic = some s := by simp [hs]
          rw [List.map_nil, hsome]
          refine ⟨first.name.text ++ dimsText first.dims ++ s.before.text, close.text, ?_, ?_,
            apart_gap close⟩
          · simp [Item.text, hs, Semantic.text]
          · exact fun hmem => (List.mem_append.mp hmem).elim (named_colon _ _) (gap_colon s.before)
  | cons m ms ih =>
      intro first
      cases hs : first.semantic with
      | none =>
          -- the first semantic is one of the others
          have hnext : (first :: (m :: ms).map MoreItem.item).findSome? Item.semantic
              = (m.item :: ms.map MoreItem.item).findSome? Item.semantic := by
            rw [List.findSome?_cons, hs]
            rfl
          have htext : first.text ++ ((m :: ms).flatMap MoreItem.text ++ close.text)
              = (first.name.text ++ dimsText first.dims ++ (m.before.text ++ ',' :: m.behind.text))
                ++ (m.item.text ++ (ms.flatMap MoreItem.text ++ close.text)) := by
            simp [Item.text, hs, MoreItem.text]
          rw [hnext, htext]
          refine (ih m.item).append fun hmem => ?_
          obtain hmem | hmem := List.mem_append.mp hmem
          · exact named_colon _ _ hmem
          · obtain hmem | hmem := List.mem_append.mp hmem
            · exact gap_colon m.before hmem
            · exact (List.mem_cons.mp hmem).elim (by decide) (gap_colon m.behind)
      | some s =>
          have hsome : (first :: (m :: ms).map MoreItem.item).findSome? Item.semantic = some s := by
            rw [List.findSome?_cons, hs]
          rw [hsome]
          refine ⟨first.name.text ++ dimsText first.dims ++ s.before.text,
            (m :: ms).flatMap MoreItem.text ++ close.text, ?_, ?_, apart_others (m :: ms) close⟩
          · simp [Item.text, hs, Semantic.text]
          · exact fun hmem => (List.mem_append.mp hmem).elim (named_colon _ _) (gap_colon s.before)

theorem prelude_colon (f : Field) : ':' ∉ f.prelude := by
  intro hmem
  simp only [Field.prelude, List.mem_append] at hmem
  have htype : ':' ∉ f.type.text := by
    have hkind : ∀ k : Kind, ':' ∉ k.spelling := fun k h =>
      absurd ((kind_isWord k).word ':' h) (by decide)
    have hdigit : ∀ n : Fin 4, ':' ≠ digitOfSize n := by decide
    cases f.type with
    | named kind shape =>
        intro h
        exact absurd ((named_isWord kind shape).word ':' h) (by decide)
    | vector before left kind close behind n right =>
        simp [ElementType.text_vector, gap_colon, hkind, hdigit]
    | matrix before left kind close behind rows close' behind' columns right =>
        simp [ElementType.text_matrix, gap_colon, hkind, hdigit]
  obtain hmem | hmem | hmem | hmem := hmem
  · exact gap_colon f.front hmem
  · obtain ⟨m, _, hmem⟩ := List.mem_flatMap.mp hmem
    obtain hmem | hmem := List.mem_append.mp hmem
    · exact absurd ((modifier_isWord m.1).word ':' hmem) (by decide)
    · exact gap_colon m.2.toGap hmem
  · exact htype hmem
  · exact gap_colon f.gap.toGap hmem

/-- The semantic that is behind a colon is recognised exactly if it is seen. -/
theorem isInterpolatorSemantic_iff (s : Semantic) {tail : Text} (htail : Apart tail) :
    isInterpolatorSemantic (trim (s.behind.text ++ (s.name.text ++ tail))) = true ↔ s.Seen := by
  unfold isInterpolatorSemantic Semantic.Seen
  have htwice : trim (trim (s.behind.text ++ (s.name.text ++ tail)))
      = trim (s.behind.text ++ (s.name.text ++ tail)) := Trim.trim_trim _
  rw [htwice]
  by_cases hcr : '\r' ∈ s.behind.text
  · obtain ⟨v, hv⟩ := (trim_gap s.behind (s.name.text ++ tail)).2 hcr
    rw [hv]
    -- no known name begins with a CR
    exact ⟨nofun, fun h => absurd hcr h.1⟩
  · rw [(trim_gap s.behind (s.name.text ++ tail)).1 hcr, trim_word s.name.nonempty s.name.word,
      and_iff_right hcr, List.any_eq_true, List.any_eq_true]
    -- no known name is longer than the word
    have hall : (kSemantics.all fun k => k.all isIdChar) = true := by decide
    have hbegins : ∀ k ∈ kSemantics, k.isPrefixOf (s.name.text ++ tail.rdropWhile isTrimmed)
        = k.isPrefixOf s.name.text := fun k hk =>
      isPrefixOf_apart (List.all_eq_true.mp (List.all_eq_true.mp hall k hk))
        (htail.front (List.rdropWhile_prefix _ _))
    constructor
    · rintro ⟨k, hk, h⟩
      exact ⟨k, hk, by rw [← hbegins k hk]; exact h⟩
    · rintro ⟨k, hk, h⟩
      exact ⟨k, hk, by rw [hbegins k hk]; exact h⟩

theorem mem_trim {t : Text} {c : Char} (h : c ∈ trim t) : c ∈ t := by
  obtain ⟨-, a, b, -, -, hsplit⟩ := Trim.padded_trim (p := isTrimmed) t
  rw [hsplit]
  exact List.mem_append_left _ (List.mem_append_right _ h)

/-- **What the scan takes a field for.** -/
theorem fieldComponents_field (f : Field) :
    fieldComponents f.text
      = f.semantic.bind fun s => if s.Seen ∧ f.Spaced then some f.wordComponents else none := by
  have hcut : CutAt f.semantic f.text := by
    rw [f.text_eq]
    exact (items_cut f.close f.others f.first).append (prelude_colon f)
  have hpass : ∀ {t : Text}, ':' ∉ t → ∀ c ∈ t, (c != ':') = true :=
    fun hno c hc => bne_iff_ne.mpr fun heq => hno (heq ▸ hc)
  unfold fieldComponents
  cases hsemantic : f.semantic with
  | none =>
      rw [hsemantic] at hcut
      have hnone : (trim f.text).dropWhile (· != ':') = [] :=
        List.dropWhile_eq_nil_iff.mpr (hpass fun h => hcut (mem_trim h))
      dsimp only
      rw [hnone]
      split
      · rfl
      · rfl
  | some s =>
      rw [hsemantic] at hcut
      obtain ⟨lead, tail, htext, hlead, htail⟩ := hcut
      have hdrop : ':' ∉ lead.dropWhile isTrimmed := fun h => hlead (List.dropWhile_subset _ h)
      have htrim : trim f.text = lead.dropWhile isTrimmed
          ++ ':' :: (s.behind.text ++ (s.name.text ++ tail)).rdropWhile isTrimmed := by
        unfold trim
        rw [htext, Trim.trim_append_stop (by decide)]
      have hright : (trim f.text).dropWhile (· != ':')
          = ':' :: (s.behind.text ++ (s.name.text ++ tail)).rdropWhile isTrimmed := by
        rw [htrim, List.dropWhile_append_of_pos (hpass hdrop)]
        rfl
      have hleft : trim ((trim f.text).takeWhile (· != ':')) = trim lead := by
        have htake : (trim f.text).takeWhile (· != ':') = lead.dropWhile isTrimmed := by
          rw [htrim, List.takeWhile_append_of_pos (hpass hdrop)]
          exact List.append_nil _
        rw [htake]
        exact Trim.trim_dropWhile lead
      have hfront : f.text.takeWhile (· != ':') = lead := by
        rw [htext, List.takeWhile_append_of_pos (hpass hlead)]
        exact List.append_nil _
      -- what is in front of the colon begins with the prelude
      have hcount : componentCountOf (trim ((trim lead).takeWhile (· != ' '))) = f.wordComponents := by
        have hprelude : f.prelude <+: lead := by
          have hbegins : lead <+: f.text := ⟨_, htext.symm⟩
          have hwhole : f.prelude <+: f.text := ⟨_, f.text_eq.symm⟩
          refine List.prefix_of_prefix_length_le hwhole hbegins ?_
          by_contra hlong
          have hshort := List.prefix_of_prefix_length_le (⟨_, (by rw [htext, List.append_assoc]; rfl)⟩ :
            lead ++ [':'] <+: f.text) hwhole (by rw [List.length_append]; exact Nat.not_le.mp hlong)
          exact prelude_colon f (hshort.subset (by simp))
        obtain ⟨u, rfl⟩ := hprelude
        exact firstWord_components f u
      have hsem : isInterpolatorSemantic
          (trim ((s.behind.text ++ (s.name.text ++ tail)).rdropWhile isTrimmed)) = true ↔ s.Seen := by
        rw [← isInterpolatorSemantic_iff s htail]
        exact iff_of_eq (congrArg (isInterpolatorSemantic · = true) (Trim.trim_rdropWhile _))
      have hspaced : f.Spaced ↔ (trim lead).contains ' ' = true := by
        unfold Field.Spaced
        rw [hfront, List.contains_iff_mem]
      have hne : (trim f.text).isEmpty = false := by
        rw [htrim]
        cases lead.dropWhile isTrimmed <;> rfl
      dsimp only
      rw [hne, hright, hleft, Option.bind_some]
      show (if isInterpolatorSemantic (trim _) = true then
          if (trim lead).contains ' ' = true then
            some (componentCountOf (trim ((trim lead).takeWhile (· != ' ')))) else none
        else none) = _
      rw [hcount, ite_and]
      simp only [hsem, hspaced]

/-! ## §8. The budget. -/

/-- One field: it adds what is seen of it, and where it adds something it is an
interpolator. -/
theorem addField_field (count : Nat × Bool) (f : Field) (hsmall : count.1 < 2 ^ 32) :
    (addField count f.text).1 = (count.1 + f.seenComponents) % 2 ^ 32
      ∧ ((addField count f.text).2 = false → addField count f.text = count) := by
  unfold addField Field.seenComponents
  rw [fieldComponents_field]
  cases f.semantic with
  | none => exact ⟨(Nat.mod_eq_of_lt hsmall).symm, fun _ => rfl⟩
  | some s =>
      rw [Option.bind_some]
      by_cases hseen : s.Seen ∧ f.Spaced
      · simp only [if_pos hseen]
        exact ⟨trivial, nofun⟩
      · simp only [if_neg hseen]
        exact ⟨(Nat.mod_eq_of_lt hsmall).symm, fun _ => trivial⟩

/-- **The total is what is seen, in 32 bits**; and it is 0 unless a field is an
interpolator. -/
theorem countFields_from (fields : List Field) : ∀ count : Nat × Bool, count.1 < 2 ^ 32 →
    ((fields.map Field.text).foldl addField count).1
        = (count.1 + (fields.map Field.seenComponents).sum) % 2 ^ 32
      ∧ (((fields.map Field.text).foldl addField count).2 = false →
        (fields.map Field.text).foldl addField count = count) := by
  induction fields with
  | nil => exact fun count hsmall => ⟨(Nat.mod_eq_of_lt hsmall).symm, fun _ => rfl⟩
  | cons f fs ih =>
      intro count hsmall
      obtain ⟨htotal, hnone⟩ := addField_field count f hsmall
      have hnext : (addField count f.text).1 < 2 ^ 32 := by
        rw [htotal]
        exact Nat.mod_lt _ (by decide)
      obtain ⟨htotals, hnones⟩ := ih _ hnext
      rw [List.map_cons, List.foldl_cons, List.map_cons, List.sum_cons]
      constructor
      · rw [htotals, htotal, Nat.mod_add_mod, Nat.add_assoc]
      · intro hfalse
        have hsame := hnones hfalse
        rw [hsame] at hfalse ⊢
        exact hnone hfalse

/-- **What is reported of a body**: that it is seen above the budget. -/
theorem checkBody_iff (s : Struct) :
    (checkBody s.body).isSome = true ↔ kThresholdComponents < s.seenComponents % 2 ^ 32 := by
  obtain ⟨htotal, hnone⟩ := countFields_from s.fields (0, false) (by decide)
  unfold checkBody countFields Struct.seenComponents
  rw [pieces_body]
  rw [Nat.zero_add] at htotal
  rw [← htotal]
  generalize (s.fields.map Field.text).foldl addField (0, false) = count at hnone ⊢
  obtain ⟨total, anyInterp⟩ := count
  cases anyInterp with
  | true =>
      simp only [Bool.true_and, decide_eq_true_eq]
      split
      case isTrue h => exact iff_of_true rfl h
      case isFalse h => exact iff_of_false nofun h
  | false =>
      have hzero : total = 0 := congrArg Prod.fst (hnone rfl)
      rw [hzero]
      exact iff_of_false nofun (by decide)

/-- What is found at a struct. -/
def Struct.finding (s : Struct) (lo : Nat) : Option Finding :=
  if s.KeywordSeen then (checkBody s.body).map fun message => ⟨lo, lo + s.text.length, message⟩ else none

theorem length_struct (s : Struct) :
    s.text.length = kKw.length + s.head.length + s.body.length + 2 := by
  simp only [Struct.text, List.length_append, List.length_cons, List.length_nil]
  omega

/-- **One struct is found for what it is**, and the walk goes on behind it. -/
theorem walk_struct (s : Struct) (more : Text) (fuel lo : Nat) :
    ∃ rest, fuel ≤ rest ∧ walkFrom (fuel + 1) false lo (s.text ++ more)
      = (s.finding lo).toList ++ walkFrom rest false (lo + s.text.length) more := by
  have hclosing := closing_struct s
  have hbehind : s.text ++ more = kKw ++ (s.head ++ '{' :: (s.body ++ ['}']) ++ more) := by
    simp only [Struct.text, List.append_assoc]
  have hlength : (s.head ++ '{' :: (s.body ++ ['}'])).length + kKw.length = s.text.length := by
    rw [Nat.add_comm]
    exact List.length_append.symm
  have hhead : (s.head ++ '{' :: (s.body ++ ['}']) ++ more).head? = (s.head ++ ['{']).head? := by
    cases s.head <;> rfl
  -- from behind the keyword nothing is found before the end of the struct
  have hrest : ∀ {inWord : Bool}, findBefore isIdChar isTrimmed kKw inWord (lo + kKw.length)
      (s.head ++ '{' :: (s.body ++ ['}']) ++ more)
        = findBefore isIdChar isTrimmed kKw false (lo + s.text.length) more := by
    intro inWord
    have hquiet := Words.findBefore_quiet kKw_ne kKw_word trimmed_separator hclosing.quiet more
      (lo + kKw.length)
    rw [Nat.add_assoc, Nat.add_comm kKw.length, hlength] at hquiet
    rw [← hquiet]
    obtain ⟨c, cs, hcons, hc⟩ := hclosing.breaks
    rw [hcons, List.cons_append, Words.findBefore_separator kKw_ne kKw_word hc,
      Words.findBefore_separator kKw_ne kKw_word hc]
  unfold Struct.finding
  by_cases hseen : s.KeywordSeen
  · have hfind : findBefore isIdChar isTrimmed kKw false lo (s.text ++ more)
        = some (lo, s.head ++ '{' :: (s.body ++ ['}']) ++ more) := by
      rw [hbehind]
      exact Words.findBefore_word kKw_ne (by rw [hhead]; exact hseen) lo
    have hopen : (s.head ++ '{' :: (s.body ++ ['}']) ++ more).dropWhile (· != '{')
        = '{' :: (s.body ++ '}' :: more) := by
      have hno : ∀ c ∈ s.head, (c != '{') = true := fun c hc =>
        bne_iff_ne.mpr fun heq => s.noBrace (heq ▸ hc)
      have hassoc : s.head ++ '{' :: (s.body ++ ['}']) ++ more
          = s.head ++ '{' :: (s.body ++ '}' :: more) := by simp
      rw [hassoc, List.dropWhile_append_of_pos hno]
      rfl
    have hno : ∀ c ∈ s.body, (c != '}') = true := fun c hc =>
      bne_iff_ne.mpr fun heq => body_close s (heq ▸ hc)
    have hclose : (s.body ++ '}' :: more).dropWhile (· != '}') = '}' :: more := by
      rw [List.dropWhile_append_of_pos hno]
      rfl
    have htake : (s.body ++ '}' :: more).takeWhile (· != '}') = s.body := by
      rw [List.takeWhile_append_of_pos hno]
      exact List.append_nil _
    refine ⟨fuel, Nat.le_refl fuel, ?_⟩
    rw [if_pos hseen, walkFrom, hfind]
    dsimp only
    rw [hopen]
    dsimp only
    rw [hclose]
    dsimp only
    rw [htake]
    by_cases hempty : s.body = []
    · -- an empty body is passed over
      have hnothing : checkBody s.body = none := by
        rw [hempty]
        rfl
      rw [hnothing, if_pos (by rw [hempty]; rfl)]
      exact walk_congr hrest fuel
    · have hhi : lo + kKw.length
          + ((s.head ++ '{' :: (s.body ++ ['}']) ++ more).length - more.length)
            = lo + s.text.length := by
        rw [@List.length_append _ (s.head ++ _), Nat.add_sub_cancel, Nat.add_assoc,
          Nat.add_comm kKw.length, hlength]
      rw [if_neg (by rw [List.isEmpty_iff]; exact hempty), hhi]
  · -- the keyword is not seen
    have hnot : (s.head ++ '{' :: (s.body ++ ['}']) ++ more).head?.any isTrimmed = false := by
      rw [hhead]
      exact Bool.eq_false_iff.mpr hseen
    refine ⟨fuel + 1, Nat.le_succ fuel, ?_⟩
    rw [if_neg hseen]
    refine walk_congr ?_ (fuel + 1)
    rw [hbehind, Words.findBefore_other kKw_ne kKw_word trimmed_separator kKw_word
      (hclosing.breaks.append more) (Or.inr hnot) lo]
    exact hrest

/-- **The walk over the structs in front**: what it finds begins in front. -/
theorem walk_parts (more : Text) (parts : List Part) : ∀ fuel pos, parts.length < fuel →
    ∃ found rest, walkFrom fuel false pos (partsText parts ++ more)
        = found ++ walkFrom (rest + 1) false (pos + (partsText parts).length) more
      ∧ ∀ f ∈ found, f.lo < pos + (partsText parts).length := by
  induction parts with
  | nil =>
      intro fuel pos hfuel
      obtain ⟨fuel, rfl⟩ : ∃ n, fuel = n + 1 := ⟨fuel - 1, by rw [List.length_nil] at hfuel; omega⟩
      exact ⟨[], fuel, rfl, nofun⟩
  | cons part parts ih =>
      intro fuel pos hfuel
      rw [List.length_cons] at hfuel
      obtain ⟨fuel, rfl⟩ : ∃ n, fuel = n + 1 := ⟨fuel - 1, by omega⟩
      obtain ⟨between, s⟩ := part
      have hsplit : partsText ((between, s) :: parts) ++ more
          = between.val ++ (s.text ++ (partsText parts ++ more)) := by
        simp [partsText]
      have hlength : (partsText ((between, s) :: parts)).length
          = between.val.length + s.text.length + (partsText parts).length := by
        simp [partsText, Nat.add_assoc]
      obtain ⟨rest, hrest, hstruct⟩ :=
        walk_struct s (partsText parts ++ more) fuel (pos + between.val.length)
      obtain ⟨found, rest', hparts, hlo⟩ :=
        ih rest (pos + between.val.length + s.text.length) (by omega)
      refine ⟨(s.finding (pos + between.val.length)).toList ++ found, rest', ?_, ?_⟩
      · rw [hsplit, walk_quiet between.property, hstruct, hparts, hlength, List.append_assoc]
        simp only [Nat.add_assoc]
      · have hpos := length_struct s
        intro f hf
        rw [hlength]
        obtain hf | hf := List.mem_append.mp hf
        · have hfound := Option.mem_toList.mp hf
          unfold Struct.finding at hfound
          split at hfound
          case isFalse => cases hfound
          case isTrue =>
              obtain ⟨message, -, rfl⟩ := Option.map_eq_some_iff.mp hfound
              show pos + between.val.length < _
              omega
        · have hbefore := hlo f hf
          omega

theorem length_partsText (parts : List Part) : parts.length ≤ (partsText parts).length := by
  induction parts with
  | nil => exact Nat.le_refl 0
  | cons part parts ih =>
      have hcons : partsText (part :: parts) = part.1.val ++ part.2.text ++ partsText parts := rfl
      have hpos := length_struct part.2
      rw [hcons, List.length_append, List.length_append, List.length_cons]
      omega

/-- The struct is reported. -/
def Place.Reported (p : Place) : Prop := ∃ message, ⟨p.lo, p.hi, message⟩ ∈ onTree p.source

/-- **A struct is reported exactly where it is seen above the budget.** -/
theorem reported_iff (p : Place) :
    p.Reported ↔ p.struct.KeywordSeen ∧ kThresholdComponents < p.struct.seenComponents % 2 ^ 32 := by
  have hfuel : p.earlier.length < p.source.length + 1 := by
    have hlen := length_partsText p.earlier
    rw [Place.source, List.length_append]
    omega
  obtain ⟨found, rest, hearlier, hbefore⟩ :=
    walk_parts (p.between.val ++ (p.struct.text ++ p.behind)) p.earlier _ 0 hfuel
  rw [Nat.zero_add] at hearlier hbefore
  obtain ⟨rest', -, hstruct⟩ := walk_struct p.struct p.behind rest p.lo
  have htree : onTree p.source
      = found ++ ((p.struct.finding p.lo).toList ++ walkFrom rest' false p.hi p.behind) := by
    unfold onTree Place.hi
    rw [← hstruct, Place.lo, ← walk_quiet p.between.property]
    exact hearlier
  -- nothing else is found there
  have hfinding : p.Reported ↔ (p.struct.finding p.lo).isSome = true := by
    unfold Place.Reported
    rw [htree]
    constructor
    · rintro ⟨message, hmem⟩
      obtain hmem | hmem := List.mem_append.mp hmem
      · have hlt := hbefore _ hmem
        unfold Place.lo at hlt
        dsimp only at hlt
        omega
      · obtain hmem | hmem := List.mem_append.mp hmem
        · exact Option.isSome_iff_exists.mpr ⟨_, Option.mem_toList.mp hmem⟩
        · have hle := walk_le _ hmem
          have hpos := length_struct p.struct
          unfold Place.hi at hle
          dsimp only at hle
          omega
    · intro hsome
      obtain ⟨f, hf⟩ := Option.isSome_iff_exists.mp hsome
      have hshape : ∃ message, f = ⟨p.lo, p.hi, message⟩ := by
        unfold Struct.finding at hf
        split at hf
        case isFalse => cases hf
        case isTrue =>
            obtain ⟨message, -, rfl⟩ := Option.map_eq_some_iff.mp hf
            exact ⟨message, rfl⟩
      obtain ⟨message, rfl⟩ := hshape
      exact ⟨message, List.mem_append_right _ (List.mem_append_left _ (Option.mem_toList.mpr hf))⟩
  rw [hfinding]
  unfold Struct.finding
  split
  case isTrue hseen => rw [Option.isSome_map, checkBody_iff, and_iff_right hseen]
  case isFalse hseen => exact iff_of_false nofun fun h => hseen h.1

/-- If the fields exceed the budget, the struct is reported. -/
def InterpolatorLaw (p : Place) : Prop := kThresholdComponents < p.struct.components → p.Reported

/-- **The budget of a struct is not undercounted IF AND ONLY IF its fields keep to
it, or its keyword is seen and what is seen of its fields exceeds it modulo
2³².** -/
theorem interpolatorLaw_iff (p : Place) :
    InterpolatorLaw p ↔ p.struct.components ≤ kThresholdComponents
      ∨ (p.struct.KeywordSeen ∧ kThresholdComponents < p.struct.seenComponents % 2 ^ 32) := by
  unfold InterpolatorLaw
  rw [reported_iff]
  constructor
  · intro hlaw
    by_cases hover : kThresholdComponents < p.struct.components
    · exact Or.inr (hlaw hover)
    · exact Or.inl (Nat.le_of_not_lt hover)
  · rintro (hkeeps | hseen) hover
    · omega
    · exact hseen

/-- `struct S{float4x4 m[5] : TEXCOORD0;}`. -/
def fiveMatrices : Place where
  earlier := []
  between := ⟨[], .nil⟩
  struct :=
    { head := " S".toList
      noBrace := by decide
      closing := Words.closing_cons (by decide)
        (@Quiet.other _ _ _ ['S'] _ (List.all_eq_true.mp (by decide)) (by decide)
          ⟨'{', [], rfl, by decide⟩ (.separator (by decide) .nil))
      fields :=
        [{ front := GroupsharedBudget.noGap
           modifiers := []
           type := .named .float (.matrix (Fin.last 3) (Fin.last 3))
           gap := GroupsharedBudget.oneSpace
           first :=
            { name := ⟨['m'], by decide, List.all_eq_true.mp (by decide), by decide⟩
              dims := [⟨GroupsharedBudget.noGap, GroupsharedBudget.noGap,
                ⟨['5'], by decide, List.all_eq_true.mp (by decide)⟩, GroupsharedBudget.noGap⟩]
              semantic := some
                { before := GroupsharedBudget.oneSpace.toGap
                  behind := GroupsharedBudget.oneSpace.toGap
                  name := ⟨"TEXCOORD0".toList, by decide, List.all_eq_true.mp (by decide),
                    by decide⟩ } }
           others := []
           close := GroupsharedBudget.noGap }]
      rest := GroupsharedBudget.noGap }
  behind := [';']

/-- **Five matrices are counted for one column**: 4 components for 80. -/
theorem fiveMatrices_undercounted :
    fiveMatrices.source = "struct S{float4x4 m[5] : TEXCOORD0;};".toList
      ∧ fiveMatrices.struct.components = 80 ∧ fiveMatrices.struct.seenComponents = 4
      ∧ ¬ InterpolatorLaw fiveMatrices := by
  have hcomponents : fiveMatrices.struct.components = 80 := by decide +kernel
  have hseen : fiveMatrices.struct.seenComponents = 4 := by decide +kernel
  refine ⟨by decide +kernel, hcomponents, hseen, fun hlaw => ?_⟩
  have hreported := hlaw (by rw [hcomponents]; decide)
  have hover := ((reported_iff fiveMatrices).mp hreported).2
  rw [hseen] at hover
  exact absurd hover (by decide)

end ShaderClippy.Rules.ExcessInterpolators
