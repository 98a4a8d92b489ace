/-
  ShaderClippy.Rules.GroupsharedNames

  **GROUPSHARED ARRAYS, THEIR CELLS, AND THE FUNCTIONS THEY ARE USED IN.**

  What the groupshared rules have in common: the names declared
  `groupshared`, the cell `name[index]` of a subscript by its text, and the
  keys `function#text` of their tables, which tell functions and texts apart
  (`functionKey_inj`).
-/
import ShaderClippy.Rules.GroupsharedBudget
import ShaderClippy.Syntax.Calls
import ShaderClippy.Syntax.Spans

namespace ShaderClippy.Rules

open GroupsharedBudget (isIdChar)

/-! ## §1. Declarations. -/

/-- `has_keyword`. -/
def hasKeyword (text keyword : Text) : Bool := (Words.find isIdChar keyword false text).isSome

/-- The kinds of declarations. -/
def isDeclLike (k : NodeKind) : Bool :=
  k == .declaration || k == .other "field_declaration".toList
    || k == .other "global_variable_declaration".toList || k == .other "variable_declaration".toList

def kArrayDeclarator : NodeKind := .other "array_declarator".toList

/-- The declarator inside a declarator of such a kind, if there is one. -/
def innerDeclarator (isOuter : NodeKind → Bool) (n : Node) : Node :=
  if isOuter n.kind then (n.childByField .declarator).getD n else n

/-- The name a declarator declares: at most two declarators are taken off. -/
def declaredName (declarator : Node) (bytes : Text) : Text :=
  (innerDeclarator (· == kArrayDeclarator)
    (innerDeclarator (fun k => k == .initDeclarator || k == kArrayDeclarator) declarator)).text bytes

/-- What `collect_groupshared_names` takes from one node. -/
def groupsharedName (bytes : Text) (n : Node) : List Text :=
  if isDeclLike n.kind && hasKeyword (n.text bytes) "groupshared".toList then
    match n.childByField .declarator with
    | none => []
    | some declarator =>
        let name := declaredName declarator bytes
        if name.isEmpty then [] else [name]
  else []

mutual
/-- `collect_groupshared_names`. -/
def collectGroupsharedNames (bytes : Text) : Node → List Text
  | .mk i cs => groupsharedName bytes (.mk i cs) ++ collectGroupsharedNamesAll bytes cs

def collectGroupsharedNamesAll (bytes : Text) : List Node → List Text
  | [] => []
  | n :: ns => collectGroupsharedNames bytes n ++ collectGroupsharedNamesAll bytes ns
end

/-! ## §2. Cells. -/

/-- The receiver of a subscript: the field, or the first child. -/
def subscriptReceiver (n : Node) : Option Node := (n.childByField .argument).or n.children.head?

/-- The index of a subscript: the field, or the last child that is no bracket. -/
def subscriptIndex (n : Node) : Option Node :=
  (n.childByField .index).or (n.children.reverse.find? fun c =>
    c.kind != .other "[".toList && c.kind != .other "]".toList)

/-- The text `receiver[index]`. -/
def cellText (receiver index : Text) : Text := receiver ++ '[' :: (index ++ [']'])

/-- A child found by a search is a child. -/
theorem subscriptReceiver_mem {n c : Node} (h : subscriptReceiver n = some c) : c ∈ n.children := by
  unfold subscriptReceiver Node.childByField at h
  cases hfield : n.children.find? fun c => decide (c.info.field = some .argument) with
  | some d =>
      rw [hfield] at h
      cases h
      exact List.mem_of_find?_eq_some hfield
  | none =>
      rw [hfield] at h
      exact List.mem_of_mem_head? h

/-- A subscript whose receiver has a text has bytes. -/
theorem lo_lt_hi_of_receiver {n : Node} {bytes : Text} (hw : n.wellSpanned = true)
    (h : optionText (subscriptReceiver n) bytes ≠ []) : n.info.lo < n.info.hi := by
  cases hr : subscriptReceiver n with
  | none =>
      rw [hr] at h
      exact absurd rfl h
  | some c =>
      rw [hr] at h
      exact Node.lo_lt_hi_of_child hw (subscriptReceiver_mem hr) h

/-! ## §3. Functions. -/

/-- Does `enclosing_function_key` stop here? -/
def isFunctionLike (k : NodeKind) : Bool :=
  k == .functionDefinition || k == .other "method_definition".toList

/-- The key of the function around the children of a node. -/
def functionKeyBelow (fnId : Nat) (i : NodeInfo) : Nat :=
  if isFunctionLike i.kind then i.lo else fnId

/-- The key `function#text`. -/
def functionKey (fnId : Nat) (t : Text) : Text := Nat.toDigits 10 fnId ++ '#' :: t

/-- What is in front of the first `#` is the number. -/
theorem takeWhile_functionKey (fnId : Nat) (t : Text) :
    (functionKey fnId t).takeWhile (· != '#') = Nat.toDigits 10 fnId := by
  have hdigits : ∀ c ∈ Nat.toDigits 10 fnId, (c != '#') = true := by
    intro c hc
    have hdigit : c.isDigit = true := Nat.isDigit_of_mem_toDigits (by omega) (by omega) hc
    rw [bne_iff_ne]
    rintro rfl
    exact absurd hdigit (by decide)
  unfold functionKey
  rw [List.takeWhile_append_of_pos hdigits]
  show Nat.toDigits 10 fnId ++ [] = _
  exact List.append_nil _

/-- **Two keys agree exactly if functions and texts do.** -/
theorem functionKey_inj {f g : Nat} {s t : Text} :
    functionKey f s = functionKey g t ↔ f = g ∧ s = t := by
  constructor
  · intro h
    have hdigits : Nat.toDigits 10 f = Nat.toDigits 10 g := by
      rw [← takeWhile_functionKey f s, ← takeWhile_functionKey g t, h]
    have hfn : f = g := by
      rw [← @Nat.ofDigitChars_ten_toDigits f, hdigits, Nat.ofDigitChars_ten_toDigits]
    unfold functionKey at h
    rw [hdigits] at h
    exact ⟨hfn, (List.cons.inj (List.append_cancel_left h)).2⟩
  · rintro ⟨hfn, htext⟩
    rw [hfn, htext]

end ShaderClippy.Rules
