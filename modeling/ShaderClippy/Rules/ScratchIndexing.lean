/-
  ShaderClippy.Rules.ScratchIndexing

  **IS A LOCAL ARRAY INDEXED DYNAMICALLY?** (`scratch_from_dynamic_indexing.cpp`)

  The rule gathers the names of all arrays declared in functions, parameters
  included, and reports a subscript of such a name, in whatever function, unless
  its index looks constant. An index looks constant if it is a number, floats
  included, or a name made of `u` and `U` alone (`isConstantIndex_iff`).

  Against that stands what an identifier denotes: the innermost declaration in
  scope (`scopesIn`); and what a constant is: integer literals with parentheses
  and arithmetic around them (`isConstant`). `scratchLaw_iff` says where the two
  agree.
-/
import Mathlib
import ShaderClippy.Diagnostic
import ShaderClippy.Hlsl.Token
import ShaderClippy.Rules.GroupsharedNames

namespace ShaderClippy.Rules.ScratchIndexing

/-! ## §1. The rule. -/

/-- What the first loop of `is_constant_index` takes off at the front. -/
def isBlank (c : Char) : Bool := c == ' ' || c == '\t'

/-- What the second one takes off at the end. -/
def isBlankOrSuffix (c : Char) : Bool := isBlank c || c == 'u' || c == 'U'

def isDecimalDigit (c : Char) : Bool := '0' ≤ c && c ≤ '9'

def isHexDigit (c : Char) : Bool :=
  isDecimalDigit c || ('a' ≤ c && c ≤ 'f') || ('A' ≤ c && c ≤ 'F')

def kIntegerLiteral : NodeKind := .other "integer_literal".toList

/-- The kinds of numbers. -/
def isNumber (k : NodeKind) : Bool := k == .numberLiteral || k == kIntegerLiteral

/-- The digits of a hexadecimal literal behind its `0x`. -/
def hexDigits? : Text → Option Text
  | '0' :: x :: c :: digits => if x = 'x' ∨ x = 'X' then some (c :: digits) else none
  | _ => none

/-- The test of what is left of the text in `is_constant_index`. -/
def isConstantTrimmed (trimmed : Text) : Bool :=
  match hexDigits? trimmed with
  | some digits => digits.all isHexDigit
  | none => trimmed.all isDecimalDigit

/-- The part of `is_constant_index` that looks at the text. -/
def isConstantText (text : Text) : Bool :=
  isConstantTrimmed ((text.dropWhile isBlank).rdropWhile isBlankOrSuffix)

/-- `is_constant_index`. -/
def isConstantIndex (bytes : Text) (index : Node) : Bool :=
  isNumber index.kind || isConstantText (index.text bytes)

mutual
/-- The loop that takes off array declarators. -/
def innermostDeclarator : Node → Node
  | .mk i cs =>
      if i.kind = kArrayDeclarator then (innermostDeclaratorIn cs).getD (.mk i cs) else .mk i cs

def innermostDeclaratorIn : List Node → Option Node
  | [] => none
  | n :: ns =>
      if n.info.field = some .declarator then some (innermostDeclarator n)
      else innermostDeclaratorIn ns
end

/-- The name that an array declarator declares, if there is one. -/
def arrayName (bytes : Text) (n : Node) : Option Text :=
  match ((n.childByField .declarator).or n.children.head?).map innermostDeclarator with
  | none => none
  | some inner =>
      if inner.kind = .identifier ∧ inner.text bytes ≠ [] then some (inner.text bytes) else none

mutual
/-- The nodes the walk of a function body pops: it stays out of other functions. -/
def bodyOrder : Node → List Node
  | .mk i cs => if i.kind = .functionDefinition then [] else .mk i cs :: bodyOrderAll cs

def bodyOrderAll : List Node → List Node
  | [] => []
  | n :: ns => bodyOrderAll ns ++ bodyOrder n
end

/-- `collect_local_arrays`. -/
def collectLocalArrays (bytes : Text) (root : Node) : List Text :=
  (collectFunctions root).flatMap fun f =>
    (bodyOrderAll f.children).filterMap fun n =>
      if n.kind = kArrayDeclarator then arrayName bytes n else none

/-- The receiver of a subscript: the field, or the first named child. -/
def receiver (n : Node) : Option Node := (n.childByField .argument).or n.namedChildren.head?

/-- The index, if the index list has one named child. -/
def singleIndex (n : Node) : Option Node :=
  match n.childByField (.other "indices".toList) with
  | none => none
  | some list =>
      match list.namedChildren with
      | [index] => some index
      | _ => none

/-- Does `scan_subscripts` report this node? -/
def reports (arrays : List Text) (bytes : Text) (n : Node) : Bool :=
  n.kind == .subscriptExpression
    && !(optionText (receiver n) bytes).isEmpty
    && arrays.contains (optionText (receiver n) bytes)
    && (singleIndex n).any fun index => !isConstantIndex bytes index

mutual
/-- `scan_subscripts`: the nodes it reports. -/
def scanSubscripts (arrays : List Text) (bytes : Text) : Node → List Node
  | .mk i cs =>
      (if reports arrays bytes (.mk i cs) then [.mk i cs] else []) ++ scanSubscriptsAll arrays bytes cs

def scanSubscriptsAll (arrays : List Text) (bytes : Text) : List Node → List Node
  | [] => []
  | n :: ns => scanSubscripts arrays bytes n ++ scanSubscriptsAll arrays bytes ns
end

/-- The subscripts `on_tree` reports. -/
def reportedSubscripts (bytes : Text) (root : Node) : List Node :=
  let arrays := collectLocalArrays bytes root
  if arrays.isEmpty then [] else scanSubscripts arrays bytes root

/-- The diagnostic at a subscript. -/
def scratchDiagnostic (source : SourceId) (bytes : Text) (n : Node) : Diagnostic where
  code := "scratch-from-dynamic-indexing".toList
  severity := .warning
  primarySpan := n.span source
  message := "local array `".toList ++ optionText (receiver n) bytes
    ++ "[...]` is indexed by a non-constant expression -- on most ".toList
    ++ "IHVs the compiler falls back to scratch memory because the ".toList
    ++ "register file can't be addressed dynamically; consider ".toList
    ++ "splitting the array into named locals or pulling the data ".toList
    ++ "from a `Buffer<>` resource".toList
  fixes := []

/-- `ScratchFromDynamicIndexing::on_tree`. -/
def onTree (source : SourceId) (bytes : Text) (root : Node) : List Diagnostic :=
  (reportedSubscripts bytes root).map (scratchDiagnostic source bytes)

/-! ## §2. What an identifier denotes. -/

/-- What is known at a place of a source: the declarations in scope, innermost
first, each with whether it is an array of the function the place is in; whether
the place is in the body of a function; and whether the declaration the place is
in has a type that is a name for arrays. -/
structure Scope where
  env : List (Text × Bool)
  inBody : Bool
  arrayType : Bool

def Scope.file : Scope := ⟨[], false, false⟩

/-- The innermost declaration of the name is an array of the function around. -/
def Scope.DenotesLocalArray (s : Scope) (name : Text) : Prop := s.env.lookup name = some true

instance (s : Scope) (name : Text) : Decidable (s.DenotesLocalArray name) :=
  inferInstanceAs (Decidable (_ = _))

/-- The declarations in these nodes end with them. -/
def opensScope (k : NodeKind) : Bool :=
  k == .functionDefinition || k == .functionDeclarator || k == .compoundStatement
    || k == .ifStatement || k == .elseClause || k == .forStatement || k == .whileStatement
    || k == .doStatement || k == .switchStatement

/-- The name a declarator declares. -/
def declaratorName (bytes : Text) (d : Node) : Option Text :=
  if d.kind = .identifier then some (d.text bytes)
  else if d.kind = kArrayDeclarator then arrayName bytes d
  else none

/-- The parameters of a function. -/
def parameterNames (bytes : Text) (fn : Node) : List Text :=
  match fn.childByField .declarator with
  | none => []
  | some declarator =>
      (declarator.popOrder.filter fun n => n.kind == .parameterDeclaration).filterMap fun n =>
        (n.childByField .declarator).bind (declaratorName bytes)

section

-- the type names that stand for arrays
variable (isArrayType : Text → Bool) (bytes : Text)

/-- The scope inside a node. In a function its parameters are in scope, and no
array of another function is its own. -/
def Scope.enter (s : Scope) (n : Node) : Scope :=
  if n.kind = .functionDefinition then
    ⟨(parameterNames bytes n).map (·, false) ++ s.env.map fun entry => (entry.1, false), true, false⟩
  else if n.kind = .functionDeclarator then { s with inBody := false }
  else if n.kind = .declaration then
    { s with arrayType := isArrayType (optionText (n.childByField (.other "type".toList)) bytes) }
  else s

/-- What a declarator adds. -/
def Scope.bind (s : Scope) (n : Node) : List (Text × Bool) :=
  if n.info.field = some .declarator then
    match declaratorName bytes n with
    | none => s.env
    | some name => (name, s.inBody && (n.kind == kArrayDeclarator || s.arrayType)) :: s.env
  else s.env

mutual
/-- The scope behind a node. -/
def Scope.behind (s : Scope) : Node → Scope
  | .mk i cs =>
      if opensScope i.kind then s
      else
        let inner := Scope.behindAll (s.enter isArrayType bytes (.mk i cs)) cs
        { s with env := (⟨inner.env, s.inBody, s.arrayType⟩ : Scope).bind bytes (.mk i cs) }

def Scope.behindAll (s : Scope) : List Node → Scope
  | [] => s
  | n :: ns => Scope.behindAll (Scope.behind s n) ns
end

mutual
/-- The nodes of a tree, each with its scope. -/
def scopesIn (s : Scope) : Node → List (Node × Scope)
  | .mk i cs => (.mk i cs, s) :: scopesInAll (s.enter isArrayType bytes (.mk i cs)) cs

def scopesInAll (s : Scope) : List Node → List (Node × Scope)
  | [] => []
  | n :: ns => scopesIn s n ++ scopesInAll (s.behind isArrayType bytes n) ns
end

end

/-! ## §3. Constants. -/

/-- `12`, `12u`, `0x1F`. -/
def isIntegerText (text : Text) : Bool :=
  let core := text.rdropWhile fun c => c == 'u' || c == 'U' || c == 'l' || c == 'L'
  !core.isEmpty && isConstantTrimmed core

def kArithmeticOperators : List Text := [['+'], ['-'], ['*'], ['/'], ['%']]

def kSigns : List Text := [['+'], ['-']]

def kComment : NodeKind := .other "comment".toList

/-- The text of the operator among the children. -/
def operatorText (bytes : Text) (cs : List Node) : Text :=
  optionText (cs.find? fun c => decide (c.info.field = some .operator)) bytes

mutual
/-- Integer literals, with parentheses and arithmetic around them. -/
def isConstant (bytes : Text) : Node → Bool
  | .mk i cs =>
      match i.kind with
      | .numberLiteral => isIntegerText (textAt bytes i.lo i.hi)
      | .parenthesizedExpression => operandsConstant bytes cs
      | .unaryExpression => kSigns.contains (operatorText bytes cs) && operandsConstant bytes cs
      | .binaryExpression =>
          kArithmeticOperators.contains (operatorText bytes cs) && operandsConstant bytes cs
      | k => k == kIntegerLiteral && isIntegerText (textAt bytes i.lo i.hi)

/-- The named children are constants; comments do not count. -/
def operandsConstant (bytes : Text) : List Node → Bool
  | [] => true
  | n :: ns =>
      (!n.info.named || n.kind == kComment || isConstant bytes n) && operandsConstant bytes ns
end

/-- What the grammar promises of the text of an index: a name is a word; every
other expression but a number has a symbol in it, or is a word that is not made
of `u` alone (`true`). -/
def spelled (k : NodeKind) (text : Text) : Bool :=
  isNumber k
    || if k = .identifier then
        text.head?.any Hlsl.isWordStart && text.all Hlsl.isWordChar
      else
        text.any (fun c => !Hlsl.isWordChar c && !isBlank c)
          || (text.head?.any Hlsl.isWordStart && !text.all isBlankOrSuffix)

/-- A name made of `u` and `U` alone. -/
def isSuffixName (bytes : Text) (n : Node) : Bool :=
  n.kind == .identifier && (n.text bytes).all fun c => c == 'u' || c == 'U'

/-- The named parts of the index list, without comments. -/
def indexOperands (n : Node) : List Node :=
  match n.childByField (.other "indices".toList) with
  | none => []
  | some list => list.namedChildren.filter fun c => c.kind != kComment

/-- There is a comment in the index list. -/
def hasComment (n : Node) : Bool :=
  (n.childByField (.other "indices".toList)).any fun list =>
    list.namedChildren.any fun c => c.kind == kComment

/-! ## §4. What the rule reports. -/

mutual
theorem mem_scanSubscripts {arrays : List Text} {bytes : Text} {m : Node} : ∀ n : Node,
    m ∈ scanSubscripts arrays bytes n ↔ m.Sub n ∧ reports arrays bytes m = true
  | .mk i cs => by
      unfold scanSubscripts
      rw [List.mem_append, mem_scanSubscriptsAll cs]
      constructor
      · rintro (h | ⟨⟨c, hc, hsub⟩, hm⟩)
        · split at h
          case isTrue hreports =>
              rw [List.mem_singleton.mp h]
              exact ⟨.refl, hreports⟩
          case isFalse => cases h
        · exact ⟨.child hc hsub, hm⟩
      · rintro ⟨hsub, hm⟩
        cases hsub with
        | refl =>
            rw [if_pos hm]
            exact Or.inl List.mem_cons_self
        | child hc hsub => exact Or.inr ⟨⟨_, hc, hsub⟩, hm⟩

theorem mem_scanSubscriptsAll {arrays : List Text} {bytes : Text} {m : Node} : ∀ ns : List Node,
    m ∈ scanSubscriptsAll arrays bytes ns ↔ (∃ c ∈ ns, m.Sub c) ∧ reports arrays bytes m = true
  | [] => by
      unfold scanSubscriptsAll
      exact ⟨nofun, fun ⟨⟨_, hc, _⟩, _⟩ => nomatch hc⟩
  | n :: ns => by
      unfold scanSubscriptsAll
      rw [List.mem_append, mem_scanSubscripts n, mem_scanSubscriptsAll ns, ← or_and_right,
        List.exists_mem_cons_iff]
end

mutual
/-- Nodes with a scope are nodes of the tree. -/
theorem scopesIn_sub {isArrayType : Text → Bool} {bytes : Text} {m : Node} {t : Scope} :
    ∀ (n : Node) {s : Scope}, (m, t) ∈ scopesIn isArrayType bytes s n → m.Sub n
  | .mk i cs, s, h => by
      unfold scopesIn at h
      obtain h | h := List.mem_cons.mp h
      · cases h
        exact .refl
      · obtain ⟨c, hc, hsub⟩ := scopesInAll_sub cs h
        exact .child hc hsub

theorem scopesInAll_sub {isArrayType : Text → Bool} {bytes : Text} {m : Node} {t : Scope} :
    ∀ (ns : List Node) {s : Scope}, (m, t) ∈ scopesInAll isArrayType bytes s ns → ∃ c ∈ ns, m.Sub c
  | [], _, h => nomatch h
  | n :: ns, s, h => by
      unfold scopesInAll at h
      obtain h | h := List.mem_append.mp h
      · exact ⟨n, List.mem_cons_self, scopesIn_sub n h⟩
      · obtain ⟨c, hc, hsub⟩ := scopesInAll_sub ns h
        exact ⟨c, List.mem_cons_of_mem n hc, hsub⟩
end

/-- **A subscript is reported if some function declares an array of the name of
its receiver, and its one index does not look constant.** -/
theorem mem_reportedSubscripts {bytes : Text} {root n : Node} (hsub : n.Sub root)
    (hkind : n.kind = .subscriptExpression) (hname : optionText (receiver n) bytes ≠ []) :
    n ∈ reportedSubscripts bytes root
      ↔ optionText (receiver n) bytes ∈ collectLocalArrays bytes root
        ∧ ∃ index, singleIndex n = some index ∧ isConstantIndex bytes index = false := by
  have hreports : ∀ arrays, reports arrays bytes n = true
      ↔ optionText (receiver n) bytes ∈ arrays
        ∧ ∃ index, singleIndex n = some index ∧ isConstantIndex bytes index = false := by
    intro arrays
    have hempty : (optionText (receiver n) bytes).isEmpty = false := by
      rw [← Bool.not_eq_true, List.isEmpty_iff]
      exact hname
    unfold reports
    rw [hkind, hempty, beq_self_eq_true, Bool.not_false, Bool.true_and, Bool.true_and,
      Bool.and_eq_true, List.contains_iff_mem, Option.any_eq_true]
    simp only [Bool.not_eq_true']
  unfold reportedSubscripts
  dsimp only
  split
  case isTrue hempty =>
      rw [List.isEmpty_iff.mp hempty]
      exact iff_of_false nofun fun h => nomatch h.1
  case isFalse => rw [mem_scanSubscripts, hreports, and_iff_right hsub]

/-! ## §5. What looks constant. -/

theorem not_digit_of_wordStart {c : Char} (hc : Hlsl.isWordStart c = true) :
    isDecimalDigit c = false := by
  simp only [Hlsl.isWordStart, Char.isAlpha, Char.isUpper, Char.isLower, Bool.or_eq_true,
    Bool.and_eq_true, decide_eq_true_eq, beq_iff_eq, UInt32.le_iff_toNat_le, ge_iff_le] at hc
  rw [← Bool.not_eq_true]
  simp only [isDecimalDigit, Bool.and_eq_true, decide_eq_true_eq, Char.le_def,
    UInt32.le_iff_toNat_le]
  obtain hc | rfl := hc
  · simp at hc ⊢
    omega
  · decide

theorem isWordChar_of_hexDigit {c : Char} (hc : isHexDigit c = true) : Hlsl.isWordChar c = true := by
  simp only [Hlsl.isWordChar, isHexDigit, isDecimalDigit, Char.isAlphanum, Char.isDigit, Char.isAlpha,
    Char.isUpper, Char.isLower, Bool.or_eq_true, Bool.and_eq_true, decide_eq_true_eq, beq_iff_eq,
    UInt32.le_iff_toNat_le, ge_iff_le, Char.le_def] at hc ⊢
  simp at hc ⊢
  omega

/-- What begins with a letter looks like no constant. -/
theorem not_constant_of_letter {c : Char} {t : Text} (hc : Hlsl.isWordStart c = true) :
    isConstantTrimmed (c :: t) = false := by
  have hdigit := not_digit_of_wordStart hc
  have hhex : hexDigits? (c :: t) = none := by
    unfold hexDigits?
    split
    case h_1 heq =>
        rw [(List.cons.inj heq).1] at hdigit
        exact absurd hdigit (by decide)
    case h_2 => rfl
  unfold isConstantTrimmed
  rw [hhex]
  show (isDecimalDigit c && t.all isDecimalDigit) = false
  rw [hdigit, Bool.false_and]

/-- Nor does what has a symbol in it. -/
theorem not_constant_of_symbol {c : Char} {t : Text} (hc : Hlsl.isWordChar c = false) (hmem : c ∈ t) :
    isConstantTrimmed t = false := by
  have hword : ∀ {d : Char}, Hlsl.isWordChar d = true → c ≠ d := by
    rintro d hd rfl
    rw [hc] at hd
    cases hd
  unfold isConstantTrimmed
  rw [← Bool.not_eq_true]
  intro hconstant
  split at hconstant
  case h_1 digits hhex =>
      unfold hexDigits? at hhex
      split at hhex
      case h_1 x d ds =>
          split at hhex
          case isTrue hx =>
              cases hhex
              -- the symbol is one of the digits
              have hdigit : c ∈ d :: ds := by
                obtain rfl | hmem := List.mem_cons.mp hmem
                · exact absurd rfl (hword (d := '0') (by decide))
                · obtain rfl | hmem := List.mem_cons.mp hmem
                  · obtain rfl | rfl := hx
                    · exact absurd rfl (hword (d := 'x') (by decide))
                    · exact absurd rfl (hword (d := 'X') (by decide))
                  · exact hmem
              exact hword (isWordChar_of_hexDigit (List.all_eq_true.mp hconstant c hdigit)) rfl
          case isFalse => cases hhex
      case h_2 => cases hhex
  case h_2 =>
      have hdigit := List.all_eq_true.mp hconstant c hmem
      have hhex : isHexDigit c = true := by
        unfold isHexDigit
        rw [hdigit, Bool.true_or, Bool.true_or]
      exact hword (isWordChar_of_hexDigit hhex) rfl

/-- A word looks constant exactly if it is made of what is taken off at the end. -/
theorem constantText_word {c : Char} {t : Text} (hc : Hlsl.isWordStart c = true) :
    isConstantText (c :: t) = true ↔ (c :: t).all isBlankOrSuffix = true := by
  have hkeep : (c :: t).dropWhile isBlank = c :: t := by
    refine Trim.dropWhile_head fun d hd => ?_
    cases hd
    rw [← Bool.not_eq_true]
    intro hblank
    simp only [isBlank, Bool.or_eq_true, beq_iff_eq] at hblank
    obtain rfl | rfl := hblank
    · exact absurd hc (by decide)
    · exact absurd hc (by decide)
  unfold isConstantText
  rw [hkeep]
  constructor
  · intro hconstant
    cases hdrop : (c :: t).rdropWhile isBlankOrSuffix with
    | nil => exact List.all_eq_true.mpr (List.rdropWhile_eq_nil_iff.mp hdrop)
    | cons d ds =>
        -- what is left begins with the same letter
        have hprefix := List.rdropWhile_prefix isBlankOrSuffix (c :: t)
        rw [hdrop] at hprefix hconstant
        rw [(List.cons_prefix_cons.mp hprefix).1, not_constant_of_letter hc] at hconstant
        cases hconstant
  · intro hall
    rw [List.rdropWhile_eq_nil_iff.mpr (List.all_eq_true.mp hall)]
    rfl

/-- **What looks constant**: numbers, and names made of `u` alone. -/
theorem isConstantIndex_iff {bytes : Text} {e : Node} (hs : spelled e.kind (e.text bytes) = true) :
    isConstantIndex bytes e = true ↔ isNumber e.kind = true ∨ isSuffixName bytes e = true := by
  unfold isConstantIndex
  rw [Bool.or_eq_true]
  by_cases hnumber : isNumber e.kind = true
  · exact iff_of_true (Or.inl hnumber) (Or.inl hnumber)
  · rw [or_iff_right hnumber, or_iff_right hnumber]
    unfold spelled at hs
    rw [Bool.eq_false_iff.mpr hnumber, Bool.false_or] at hs
    unfold isSuffixName
    split at hs
    case isTrue hname =>
        rw [hname, beq_self_eq_true, Bool.true_and]
        obtain ⟨hhead, hword⟩ := (Bool.and_eq_true _ _).mp hs
        cases htext : e.text bytes with
        | nil =>
            rw [htext] at hhead
            cases hhead
        | cons c t =>
            rw [htext] at hhead hword
            rw [constantText_word hhead, List.all_eq_true, List.all_eq_true]
            -- no blank is in a name
            refine forall₂_congr fun d hd => ?_
            have hd := List.all_eq_true.mp hword d hd
            have hblank : isBlank d = false := by
              rw [← Bool.not_eq_true]
              intro hblank
              simp only [isBlank, Bool.or_eq_true, beq_iff_eq] at hblank
              obtain rfl | rfl := hblank
              · exact absurd hd (by decide)
              · exact absurd hd (by decide)
            unfold isBlankOrSuffix
            rw [hblank, Bool.false_or]
    case isFalse hname =>
        have hkind : (e.kind == .identifier) = false := beq_eq_false_iff_ne.mpr hname
        rw [hkind, Bool.false_and]
        refine iff_of_false ?_ nofun
        obtain hsymbol | hword := (Bool.or_eq_true _ _).mp hs
        · obtain ⟨c, hmem, hc⟩ := List.any_eq_true.mp hsymbol
          rw [Bool.and_eq_true, Bool.not_eq_true', Bool.not_eq_true'] at hc
          -- the symbol is not taken off
          have hsuffix : isBlankOrSuffix c = false := by
            rw [← Bool.not_eq_true]
            intro hsuffix
            simp only [isBlankOrSuffix, Bool.or_eq_true, beq_iff_eq, hc.2] at hsuffix
            obtain (hsuffix | rfl) | rfl := hsuffix
            · cases hsuffix
            · exact absurd hc.1 (by decide)
            · exact absurd hc.1 (by decide)
          have hkept : c ∈ ((e.text bytes).dropWhile isBlank).rdropWhile isBlankOrSuffix := by
            obtain ⟨a, b, hab⟩ := List.append_of_mem hmem
            rw [hab, Trim.dropWhile_append_stop hc.2, List.rdropWhile, List.reverse_append,
              List.reverse_cons, List.append_assoc, List.mem_reverse]
            exact (Trim.dropWhile_append_stop hsuffix _ _) ▸
              List.mem_append_right _ List.mem_cons_self
          unfold isConstantText
          rw [not_constant_of_symbol hc.1 hkept]
          exact nofun
        · obtain ⟨hhead, hall⟩ := (Bool.and_eq_true _ _).mp hword
          cases htext : e.text bytes with
          | nil =>
              rw [htext] at hhead
              cases hhead
          | cons c t =>
              rw [htext] at hhead hall
              rw [Bool.not_eq_true'] at hall
              rw [constantText_word hhead, hall]
              exact nofun

/-! ## §6. The law. -/

/-- No constant is a name. -/
theorem isSuffixName_constant {bytes : Text} {e : Node} (hconstant : isConstant bytes e = true) :
    isSuffixName bytes e = false := by
  obtain ⟨i, cs⟩ := e
  unfold isSuffixName
  rw [← Bool.not_eq_true, Bool.and_eq_true, beq_iff_eq]
  rintro ⟨hname, -⟩
  have hname : i.kind = .identifier := hname
  unfold isConstant at hconstant
  rw [hname] at hconstant
  cases hconstant

/-- The only operand is the only named child, unless there are comments. -/
theorem singleIndex_eq {n e : Node} (hoperands : indexOperands n = [e]) :
    singleIndex n = if hasComment n = true then none else some e := by
  unfold indexOperands at hoperands
  unfold singleIndex hasComment
  cases hlist : n.childByField (.other "indices".toList) with
  | none =>
      rw [hlist] at hoperands
      cases hoperands
  | some list =>
      rw [hlist] at hoperands
      simp only [Option.any_some]
      dsimp only at hoperands
      split
      case h_1 index hsingle =>
          rw [hsingle] at hoperands
          simp only [hsingle, List.any_cons, List.any_nil, Bool.or_false]
          by_cases hcomment : index.kind == kComment
          · rw [List.filter_cons_of_neg (by rw [bne, hcomment]; exact nofun)] at hoperands
            cases hoperands
          · rw [List.filter_cons_of_pos (by rw [bne, Bool.eq_false_iff.mpr hcomment]; rfl)] at hoperands
            cases hoperands
            rw [if_neg hcomment]
      case h_2 hmany =>
          -- without a comment there would be one child
          have hcomment : (list.namedChildren.any fun c => c.kind == kComment) = true := by
            by_contra hnone
            have hall : list.namedChildren.filter (fun c => c.kind != kComment) = list.namedChildren := by
              rw [List.filter_eq_self]
              intro c hc
              rw [bne_iff_ne]
              intro heq
              exact hnone (List.any_eq_true.mpr ⟨c, hc, beq_iff_eq.mpr heq⟩)
            rw [hall] at hoperands
            exact hmany e hoperands
          rw [if_pos hcomment]

/-- The law at a subscript: it is reported exactly if its receiver denotes an
array of the function around, and its index is no constant. -/
def ScratchLaw (bytes : Text) (root n e : Node) (s : Scope) : Prop :=
  n ∈ reportedSubscripts bytes root
    ↔ s.DenotesLocalArray (optionText (receiver n) bytes) ∧ isConstant bytes e = false

/-- **The rule is right at a subscript IF AND ONLY IF**
its receiver denotes a local array, its index is no constant, an array declarator
in some function has the name, and the index is no number, no name made of `u`
alone, and without a comment beside it; or else no array declarator in a function
has the name, or the index is a number or such a name, or there is a comment. -/
theorem scratchLaw_iff {isArrayType : Text → Bool} {bytes : Text} {root n e : Node} {s : Scope}
    (hn : (n, s) ∈ scopesIn isArrayType bytes Scope.file root)
    (hkind : n.kind = .subscriptExpression) (hname : optionText (receiver n) bytes ≠ [])
    (hoperands : indexOperands n = [e]) (hspelled : spelled e.kind (e.text bytes) = true) :
    ScratchLaw bytes root n e s ↔
      if s.DenotesLocalArray (optionText (receiver n) bytes) then
        if isConstant bytes e = true then
          optionText (receiver n) bytes ∉ collectLocalArrays bytes root ∨ hasComment n = true
            ∨ isNumber e.kind = true
        else
          optionText (receiver n) bytes ∈ collectLocalArrays bytes root ∧ hasComment n = false
            ∧ isNumber e.kind = false ∧ isSuffixName bytes e = false
      else
        optionText (receiver n) bytes ∉ collectLocalArrays bytes root ∨ hasComment n = true
          ∨ isNumber e.kind = true ∨ isSuffixName bytes e = true := by
  have hlooks : isConstantIndex bytes e = false
      ↔ isNumber e.kind = false ∧ isSuffixName bytes e = false := by
    rw [← Bool.not_eq_true, isConstantIndex_iff hspelled, not_or, Bool.not_eq_true, Bool.not_eq_true]
  have hreported : n ∈ reportedSubscripts bytes root
      ↔ optionText (receiver n) bytes ∈ collectLocalArrays bytes root ∧ hasComment n = false
        ∧ isNumber e.kind = false ∧ isSuffixName bytes e = false := by
    rw [mem_reportedSubscripts (scopesIn_sub root hn) hkind hname, singleIndex_eq hoperands,
      ← hlooks]
    refine and_congr_right fun _ => ?_
    split
    case isTrue hcomment => exact iff_of_false nofun fun h => by rw [hcomment] at h; cases h.1
    case isFalse hcomment =>
        rw [and_iff_right (Bool.eq_false_iff.mpr hcomment)]
        constructor
        · rintro ⟨index, heq, h⟩
          cases heq
          exact h
        · exact fun h => ⟨e, rfl, h⟩
  -- where no report is wanted, one of the four is missing
  have hsilent : n ∉ reportedSubscripts bytes root
      ↔ optionText (receiver n) bytes ∉ collectLocalArrays bytes root ∨ hasComment n = true
        ∨ isNumber e.kind = true ∨ isSuffixName bytes e = true := by
    rw [hreported, not_and_or, not_and_or, not_and_or, Bool.not_eq_false, Bool.not_eq_false,
      Bool.not_eq_false]
  unfold ScratchLaw
  split
  case isTrue hdenotes =>
      rw [and_iff_right hdenotes]
      split
      case isTrue hconstant =>
          rw [isSuffixName_constant hconstant] at hsilent
          simp only [Bool.false_eq_true, or_false] at hsilent
          exact (iff_false_right (by rw [hconstant]; exact nofun)).trans hsilent
      case isFalse hconstant =>
          exact (iff_true_right (Bool.eq_false_iff.mpr hconstant)).trans hreported
  case isFalse hdenotes => exact (iff_false_right fun h => hdenotes h.1).trans hsilent

/-- `a[index]` at 33, with an index of `size` characters. -/
def subscriptOf (size : Nat) (index : Node) : Node :=
  namedNode .subscriptExpression none ⟨33, 36 + size⟩
    [namedNode .identifier (some .argument) ⟨33, 34⟩ [],
      namedNode (.other "subscript_argument_list".toList) (some (.other "indices".toList))
        ⟨34, 36 + size⟩ [index]]

/-- The tree of `float f(int i){float a[2];return a[index];}`. -/
def treeOf (size : Nat) (index : Node) : Node :=
  let type := fun lo hi => namedNode (.other "primitive_type".toList) (some (.other "type".toList)) ⟨lo, hi⟩ []
  let name := fun lo => namedNode .identifier (some .declarator) ⟨lo, lo + 1⟩ []
  namedNode .translationUnit none ⟨0, 38 + size⟩
    [namedNode .functionDefinition none ⟨0, 38 + size⟩
      [type 0 5,
        namedNode .functionDeclarator (some .declarator) ⟨6, 14⟩
          [name 6,
            namedNode (.other "parameter_list".toList) (some (.other "parameters".toList)) ⟨7, 14⟩
              [namedNode .parameterDeclaration none ⟨8, 13⟩ [type 8 11, name 12]]],
        namedNode .compoundStatement (some .body) ⟨14, 38 + size⟩
          [namedNode .declaration none ⟨15, 26⟩
            [type 15 20,
              namedNode kArrayDeclarator (some .declarator) ⟨21, 25⟩
                [name 21, namedNode .numberLiteral (some (.other "size".toList)) ⟨23, 24⟩ []]],
            namedNode .returnStatement none ⟨26, 37 + size⟩ [subscriptOf size index]]]]

/-- The scope of the subscript; the name inside the array declarator is a
declarator too. -/
def scopeOfReturn : Scope := ⟨[(['a'], true), (['a'], false), (['i'], false)], true, false⟩

def byParameter : Text := "float f(int i){float a[2];return a[i];}".toList

def indexI : Node := namedNode .identifier none ⟨35, 36⟩ []

/-- The law holds of `a[i]`. -/
theorem scratchLaw_iff_byParameter :
    ScratchLaw byParameter (treeOf 1 indexI) (subscriptOf 1 indexI) indexI scopeOfReturn :=
  (@scratchLaw_iff (fun _ => false) _ _ _ _ _
    (List.mem_of_getElem? (i := 16) (by rfl)) rfl (by decide) rfl (by decide)).mpr (by decide +kernel)

def bySum : Text := "float f(int i){float a[2];return a[0+1];}".toList

def indexSum : Node :=
  namedNode .binaryExpression none ⟨35, 38⟩
    [namedNode .numberLiteral (some .left) ⟨35, 36⟩ [],
      .mk ⟨.other ['+'], false, false, some .operator, 36, 37⟩ [],
      namedNode .numberLiteral (some .right) ⟨37, 38⟩ []]

/-- **A sum of two literals is reported as a dynamic index.** -/
theorem bySum_reported :
    (subscriptOf 3 indexSum, scopeOfReturn) ∈ scopesIn (fun _ => false) bySum Scope.file (treeOf 3 indexSum)
      ∧ isConstant bySum indexSum = true
      ∧ ¬ ScratchLaw bySum (treeOf 3 indexSum) (subscriptOf 3 indexSum) indexSum scopeOfReturn := by
  have hscope : (subscriptOf 3 indexSum, scopeOfReturn)
      ∈ scopesIn (fun _ => false) bySum Scope.file (treeOf 3 indexSum) :=
    List.mem_of_getElem? (i := 16) (by rfl)
  have hconstant : isConstant bySum indexSum = true := by decide +kernel
  have hreported : subscriptOf 3 indexSum ∈ reportedSubscripts bySum (treeOf 3 indexSum) := by
    refine (mem_reportedSubscripts (scopesIn_sub _ hscope) rfl (by decide)).mpr ⟨by decide, indexSum, rfl, ?_⟩
    decide
  refine ⟨hscope, hconstant, fun hlaw => ?_⟩
  have hno := (hlaw.mp hreported).2
  rw [hconstant] at hno
  cases hno

end ShaderClippy.Rules.ScratchIndexing
