/-
  ShaderClippy.Rules.RegisterPressure

  **HOW MANY REGISTERS A BLOCK NEEDS** (`estimate_pressure`,
  `rules/util/register_pressure_ast.cpp`).

  The estimate of a block adds up the registers of the names that are live into
  it. The type of a name is that of the FIRST declaration the walk over the
  tree meets that mentions the name anywhere (`lookup_collectDeclTypes`): the
  walk meets later declarations first, and an initialiser mentions the names it
  reads.

  So a name can get the type of another one. The estimate of a block is right
  exactly if the names this happens to, and those whose type is not read, take
  as many registers together as they should (`estimate_iff`).
-/
import Mathlib
import ShaderClippy.ControlFlow.DefUse
import ShaderClippy.ControlFlow.LiveBlocks
import ShaderClippy.Lib.FirstWins
import ShaderClippy.Rules.TypeLexeme
import ShaderClippy.Syntax.Calls

namespace ShaderClippy.Rules.RegisterPressure

open ControlFlow Liveness TypeLexeme
open FirstWins (emplaceAll lookup_emplaceAll lookup_flatMap_keys)

/-! ## §1. The declared types. -/

/-- The kinds of `decl_like`. -/
def isDeclLike (n : Node) : Bool :=
  n.kind == .declaration || n.kind == .other "field_declaration".toList || n.kind == .parameterDeclaration
    || n.kind == .parameter || n.kind == .other "variable_declaration".toList

/-- The kinds of a type. -/
def isTypeKind (n : Node) : Bool :=
  n.kind == .other "primitive_type".toList || n.kind == .other "type_identifier".toList
    || n.kind == .other "template_type".toList || n.kind == .other "type_specifier".toList
    || n.kind == .other "sized_type_specifier".toList

/-- `type_text`: the first type, or else the first name. -/
def typeText (bytes : Text) (n : Node) : Text :=
  let text := optionText (n.children.find? fun c => c.info.named && isTypeKind c) bytes
  if text.isEmpty then
    optionText (n.children.find? fun c => c.kind == .identifier && !(c.text bytes).isEmpty) bytes
  else text

mutual
/-- The inner walk: only named children are pushed. -/
def namedPopOrder : Node → List Node
  | .mk i cs => .mk i cs :: namedPopOrderAll cs

def namedPopOrderAll : List Node → List Node
  | [] => []
  | n :: ns => namedPopOrderAll ns ++ if n.info.named then namedPopOrder n else []
end

/-- The name taken at one node of the inner walk. -/
def nameAt (bytes : Text) (cur : Node) : Text :=
  if cur.kind == .initDeclarator || cur.kind == .other "field_identifier".toList then
    optionText (((cur.childByField .declarator).or cur.children.head?).map unwrapArray) bytes
  else if cur.kind == .identifier then cur.text bytes
  else []

/-- The names a declaration mentions. -/
def mentionedNames (bytes : Text) (n : Node) : List Text :=
  ((namedPopOrder n).map (nameAt bytes)).filter fun name => !name.isEmpty

/-- The names a node gives to the map. -/
def typedNames (bytes : Text) (n : Node) : List Text :=
  if isDeclLike n && !(typeText bytes n).isEmpty then mentionedNames bytes n else []

/-- `collect_decl_types`. -/
def collectDeclTypes (root : Node) (bytes : Text) : List (Text × Text) :=
  emplaceAll (root.popOrder.flatMap fun n => (typedNames bytes n).map fun name => (name, typeText bytes n))

/-! ## §2. The estimate. -/

/-- What is read of a `CBufferField`. -/
structure CBufferField where
  name : Text
  byteSize : UInt32
  typeName : Text

/-- What is read of a `CBufferLayout`. -/
structure CBufferLayout where
  fields : List CBufferField

/-- What is read of the `ReflectionInfo`. -/
structure ReflectionInfo where
  cbuffers : List CBufferLayout

/-- The bits one field gives. -/
def fieldBits (field : CBufferField) : Option UInt32 :=
  if typeLexemeBits field.typeName ≠ 0 then some (typeLexemeBits field.typeName)
  else if field.byteSize ≠ 0 then some (field.byteSize * 8)
  else none

/-- `reflection_bits_for`. -/
def reflectionBitsFor (reflection : ReflectionInfo) (name : Text) : UInt32 :=
  (((reflection.cbuffers.flatMap (·.fields)).filter fun field => field.name == name).findSome? fieldBits).getD 0

/-- `bits_for_name`. -/
def bitsForName (name : Text) (declTypes : List (Text × Text)) (reflection : Option ReflectionInfo) : UInt32 :=
  let bits := match reflection with
    | none => 0
    | some reflection => reflectionBitsFor reflection name
  if bits ≠ 0 then bits
  else
    let bits := match declTypes.lookup name with
      | none => 0
      | some typeName => typeLexemeBits typeName
    if bits ≠ 0 then bits else 32

/-- `bits_to_vgpr_slots`. -/
def bitsToVgprSlots (bits : UInt32) : UInt32 := if bits = 0 then 0 else (bits + 31) / 32

/-- `PressureEstimate`. -/
structure PressureEstimate where
  block : Nat
  estimatedVgprs : UInt32
  deriving DecidableEq, Repr

/-- The estimate of one block; `total` wraps around. -/
def estimateBlock (liveness : LiveSets) (declTypes : List (Text × Text)) (reflection : Option ReflectionInfo)
    (raw : Nat) : PressureEstimate where
  block := raw
  estimatedVgprs := .ofNat
    (∑ name ∈ liveness.liveIn raw, (bitsToVgprSlots (bitsForName name declTypes reflection)).toNat)

/-- `estimate_pressure`. -/
def estimatePressure (storage : CfgStorage) (liveness : LiveSets) (root : Node) (bytes : Text)
    (reflection : Option ReflectionInfo) : List PressureEstimate :=
  let declTypes := collectDeclTypes root bytes
  ((List.range storage.blockToFunction.length).map fun i =>
    estimateBlock liveness declTypes reflection (i + 1)).mergeSort fun a b => a.estimatedVgprs ≥ b.estimatedVgprs

theorem mem_estimatePressure {storage : CfgStorage} {liveness : LiveSets} {root : Node} {bytes : Text}
    {reflection : Option ReflectionInfo} {e : PressureEstimate} :
    e ∈ estimatePressure storage liveness root bytes reflection
      ↔ ∃ i < storage.blockToFunction.length,
        e = estimateBlock liveness (collectDeclTypes root bytes) reflection (i + 1) := by
  unfold estimatePressure
  rw [List.mem_mergeSort, List.mem_map]
  constructor
  · rintro ⟨i, hi, rfl⟩
    exact ⟨i, List.mem_range.mp hi, rfl⟩
  · rintro ⟨i, hi, rfl⟩
    exact ⟨i, List.mem_range.mpr hi, rfl⟩

/-! ## §3. Locals. -/

/-- How many registers that many bits take. -/
def registers (bits : Nat) : Nat := (bits + 31) / 32

/-- The node is a declarator of the name, with an initialiser or without. -/
def declarator (bytes : Text) (x : Text) (c : Node) : Bool :=
  c.info.field == some .declarator && c.info.named
    && (c.kind == .identifier && c.text bytes == x
      || c.kind == .initDeclarator
        && (c.childByField .declarator).any fun d => d.kind == .identifier && d.text bytes == x)

/-- The declaration declares the name. -/
def declares (bytes : Text) (x : Text) (n : Node) : Bool := isDeclLike n && n.children.any (declarator bytes x)

/-- The declaration has the type. -/
def HasType (bytes : Text) (n : Node) (t : Spelling) : Prop :=
  (n.children.find? fun c => c.info.named && isTypeKind c).map (·.text bytes) = some t.text

instance (bytes : Text) (n : Node) (t : Spelling) : Decidable (HasType bytes n t) :=
  inferInstanceAs (Decidable (_ = some t.text))

/-- The names are those of locals: each is declared once, and the declarations
that mention one are of built-in types. -/
structure Locals (root : Node) (bytes : Text) (names : Finset Text) (typeOf : Node → Spelling) : Prop where
  nonempty : ∀ x ∈ names, x ≠ []
  declared : ∀ x ∈ names, ∃ n ∈ root.popOrder, declares bytes x n = true
  once : ∀ x ∈ names, ∀ n ∈ root.popOrder, ∀ m ∈ root.popOrder,
    declares bytes x n = true → declares bytes x m = true → n = m
  typed : ∀ x ∈ names, ∀ n ∈ root.popOrder, isDeclLike n = true → x ∈ mentionedNames bytes n →
    HasType bytes n (typeOf n)

/-- No field of a constant buffer has one of the names. -/
def NoField (reflection : Option ReflectionInfo) (names : Finset Text) : Prop :=
  ∀ r, reflection = some r → ∀ cb ∈ r.cbuffers, ∀ field ∈ cb.fields, field.name ∉ names

/-- The declaration of a name. -/
def declaration (root : Node) (bytes : Text) (x : Text) : Option Node := root.popOrder.find? (declares bytes x)

/-- The first declaration the walk meets that mentions the name. -/
def firstMention (root : Node) (bytes : Text) (x : Text) : Option Node :=
  root.popOrder.find? fun n => decide (x ∈ typedNames bytes n)

/-- The registers the name takes. -/
def declaredRegisters (root : Node) (bytes : Text) (typeOf : Node → Spelling) (x : Text) : Nat :=
  match declaration root bytes x with
  | none => 0
  | some n => registers (typeOf n).bits

/-- The registers of the type it is met with first; one, if that is not read. -/
def metRegisters (root : Node) (bytes : Text) (typeOf : Node → Spelling) (x : Text) : Nat :=
  match firstMention root bytes x with
  | none => 1
  | some n => if (typeOf n).Readable then registers (typeOf n).bits else 1

/-- The name is met first in a declaration of another one, or its type is not
read. -/
def misread (root : Node) (bytes : Text) (typeOf : Node → Spelling) (x : Text) : Bool :=
  (firstMention root bytes x).any fun n => !(declares bytes x n && decide (typeOf n).Readable)

/-! A declaration mentions what it declares. -/

theorem lookup_collectDeclTypes (root : Node) (bytes : Text) (x : Text) :
    (collectDeclTypes root bytes).lookup x = (firstMention root bytes x).map (typeText bytes) := by
  unfold collectDeclTypes
  rw [lookup_emplaceAll, lookup_flatMap_keys]
  rfl

theorem mem_namedPopOrderAll {c : Node} (hn : c.info.named = true) : ∀ {cs : List Node}, c ∈ cs →
    c ∈ namedPopOrderAll cs
  | n :: ns, h => by
      unfold namedPopOrderAll
      rw [List.mem_append]
      obtain rfl | h := List.mem_cons.mp h
      · right
        rw [if_pos hn]
        cases c
        exact List.mem_cons_self
      · exact .inl (mem_namedPopOrderAll hn h)

theorem unwrapArray_identifier {n : Node} (h : n.kind = .identifier) : unwrapArray n = n := by
  cases n with
  | mk i cs =>
      have hkind : i.kind = .identifier := h
      unfold unwrapArray
      rw [hkind, if_neg nofun]

/-- **A declaration mentions the names it declares.** -/
theorem mem_mentionedNames_of_declares {bytes x : Text} {n : Node} (hx : x ≠ [])
    (h : declares bytes x n = true) : x ∈ mentionedNames bytes n := by
  unfold declares at h
  rw [Bool.and_eq_true, List.any_eq_true] at h
  obtain ⟨-, c, hc, hdecl⟩ := h
  unfold declarator at hdecl
  simp only [Bool.and_eq_true, Bool.or_eq_true, beq_iff_eq] at hdecl
  obtain ⟨⟨-, hnamed⟩, hshape⟩ := hdecl
  have hwalked : c ∈ namedPopOrder n := by
    cases n with
    | mk i cs => exact List.mem_cons_of_mem _ (mem_namedPopOrderAll hnamed hc)
  have hname : nameAt bytes c = x := by
    unfold nameAt
    obtain ⟨hkind, htext⟩ | ⟨hkind, hinner⟩ := hshape
    · rw [hkind]
      exact htext
    · obtain ⟨d, hd, hdx⟩ := (Option.any_eq_true ..).mp hinner
      rw [Bool.and_eq_true, beq_iff_eq, beq_iff_eq] at hdx
      rw [hkind, hd]
      show (unwrapArray d).text bytes = x
      rw [unwrapArray_identifier hdx.1, hdx.2]
  unfold mentionedNames
  rw [List.mem_filter]
  refine ⟨hname ▸ List.mem_map_of_mem hwalked, ?_⟩
  rw [Bool.not_eq_true', List.isEmpty_eq_false_iff]
  exact hx

theorem typeText_of_hasType {bytes : Text} {n : Node} {t : Spelling} (h : HasType bytes n t) :
    typeText bytes n = t.text := by
  obtain ⟨c, hc, htext⟩ := Option.map_eq_some_iff.mp h
  have hne : t.text.isEmpty = false := by
    rw [List.isEmpty_eq_false_iff]
    exact t.text_ne_nil
  unfold typeText
  dsimp only
  rw [hc]
  show (if (c.text bytes).isEmpty = true then _ else c.text bytes) = t.text
  rw [htext, hne, if_neg nofun]

/-! ## §4. The law. -/

theorem slots_toNat {bits : UInt32} (hpos : 0 < bits.toNat) (hle : bits.toNat ≤ 64 * 4 * 4) :
    (bitsToVgprSlots bits).toNat = registers bits.toNat := by
  have hne : bits ≠ 0 := by
    rintro rfl
    cases hpos
  have hsum : (bits + 31).toNat = bits.toNat + 31 := by
    rw [UInt32.toNat_add]
    exact Nat.mod_eq_of_lt (by show bits.toNat + 31 < 2 ^ 32; omega)
  rw [bitsToVgprSlots, if_neg hne, UInt32.toNat_div, hsum]
  rfl

theorem reflectionBitsFor_eq_zero {r : ReflectionInfo} {x : Text}
    (h : ∀ cb ∈ r.cbuffers, ∀ field ∈ cb.fields, field.name ≠ x) : reflectionBitsFor r x = 0 := by
  have hnone : (r.cbuffers.flatMap (·.fields)).filter (fun field => field.name == x) = [] := by
    rw [List.filter_eq_nil_iff]
    intro field hfield
    obtain ⟨cb, hcb, hin⟩ := List.mem_flatMap.mp hfield
    rw [beq_iff_eq]
    exact h cb hcb field hin
  rw [reflectionBitsFor, hnone]
  rfl

section Law

variable {root : Node} {bytes : Text} {names : Finset Text} {typeOf : Node → Spelling} {x : Text}

/-- **A local is met in some declaration of a built-in type.** -/
theorem firstMention_local (h : Locals root bytes names typeOf) (hx : x ∈ names) :
    ∃ n ∈ root.popOrder, firstMention root bytes x = some n ∧ typeText bytes n = (typeOf n).text := by
  have htyped : ∀ n ∈ root.popOrder, isDeclLike n = true → x ∈ mentionedNames bytes n →
      typeText bytes n = (typeOf n).text :=
    fun n hn hdecl hm => typeText_of_hasType (h.typed x hx n hn hdecl hm)
  obtain ⟨n, hn, hdecl⟩ := h.declared x hx
  have hlike : isDeclLike n = true := by
    unfold declares at hdecl
    exact (Bool.and_eq_true_iff.mp hdecl).1
  have hmention := mem_mentionedNames_of_declares (h.nonempty x hx) hdecl
  have hin : x ∈ typedNames bytes n := by
    have hne : (typeText bytes n).isEmpty = false := by
      rw [htyped n hn hlike hmention, List.isEmpty_eq_false_iff]
      exact (typeOf n).text_ne_nil
    unfold typedNames
    rw [hlike, hne]
    exact hmention
  cases hfirst : firstMention root bytes x with
  | none =>
      have hno := List.find?_eq_none.mp hfirst n hn
      exact absurd (decide_eq_true hin) hno
  | some m =>
      have hm := List.mem_of_find?_eq_some hfirst
      have hxm : x ∈ typedNames bytes m := by
        have hfound := List.find?_some hfirst
        exact of_decide_eq_true hfound
      unfold typedNames at hxm
      split at hxm
      next hcond => exact ⟨m, hm, rfl, htyped m hm (Bool.and_eq_true_iff.mp hcond).1 hxm⟩
      next => cases hxm

/-- **The slots of a local** are those of the type it is met with first. -/
theorem slots_local {reflection : Option ReflectionInfo} (h : Locals root bytes names typeOf)
    (hfield : NoField reflection names) (hx : x ∈ names) :
    (bitsToVgprSlots (bitsForName x (collectDeclTypes root bytes) reflection)).toNat
      = metRegisters root bytes typeOf x := by
  obtain ⟨n, -, hfirst, htext⟩ := firstMention_local h hx
  have hreflected : (match reflection with
      | none => 0
      | some reflection => reflectionBitsFor reflection x) = 0 := by
    cases reflection with
    | none => rfl
    | some r =>
        refine reflectionBitsFor_eq_zero fun cb hcb field hin heq => ?_
        exact hfield r rfl cb hcb field hin (heq ▸ hx)
  have hread := typeLexemeBits_text (typeOf n)
  have ⟨hpos, hle⟩ := (typeOf n).bits_bounds
  unfold bitsForName metRegisters
  dsimp only
  rw [hreflected, if_neg (by decide), lookup_collectDeclTypes, hfirst]
  show (bitsToVgprSlots (if typeLexemeBits (typeText bytes n) ≠ 0 then typeLexemeBits (typeText bytes n)
      else 32)).toNat = if (typeOf n).Readable then registers (typeOf n).bits else 1
  rw [htext]
  by_cases hr : (typeOf n).Readable
  · rw [if_pos hr] at hread ⊢
    have hne : typeLexemeBits (typeOf n).text ≠ 0 := by
      intro hzero
      rw [hzero] at hread
      rw [← hread] at hpos
      cases hpos
    rw [if_pos hne, slots_toNat (hread ▸ hpos) (hread ▸ hle), hread]
  · rw [if_neg hr] at hread ⊢
    have hzero : typeLexemeBits (typeOf n).text = 0 := UInt32.toNat_inj.mp hread
    rw [hzero]
    decide

/-- **A local that is not misread takes its own registers.** -/
theorem metRegisters_of_read (h : Locals root bytes names typeOf) (hx : x ∈ names)
    (hread : misread root bytes typeOf x = false) :
    metRegisters root bytes typeOf x = declaredRegisters root bytes typeOf x := by
  obtain ⟨n, hn, hfirst, -⟩ := firstMention_local h hx
  unfold misread at hread
  rw [hfirst] at hread
  have ⟨hdecl, hr⟩ : declares bytes x n = true ∧ (typeOf n).Readable := by
    have hboth : (!(declares bytes x n && decide (typeOf n).Readable)) = false := hread
    rw [Bool.not_eq_false', Bool.and_eq_true, decide_eq_true_eq] at hboth
    exact hboth
  have hown : declaration root bytes x = some n := by
    cases hfound : declaration root bytes x with
    | none => exact absurd hdecl (List.find?_eq_none.mp hfound n hn)
    | some m => rw [h.once x hx m (List.mem_of_find?_eq_some hfound) n hn (List.find?_some hfound) hdecl]
  unfold metRegisters declaredRegisters
  rw [hfirst, hown]
  exact if_pos hr

end Law

/-- What is added on both sides does not matter, if the sum is not too large. -/
theorem wrapped_add_iff {k : Nat} (hk : 0 < k) (m s c : Nat) :
    (m + c) % k = s + c ↔ s + c < k ∧ m ≡ s [MOD k] := by
  constructor
  · intro h
    refine ⟨h ▸ Nat.mod_lt _ hk, Nat.ModEq.add_right_cancel' c ?_⟩
    rw [← h]
    exact (Nat.mod_modEq _ _).symm
  · intro ⟨hlt, hmod⟩
    exact Nat.mod_eq_of_modEq (hmod.add_right c) hlt

/-- The law: the estimate of the block is the sum over what is live into it of
the registers the declared types take. -/
def PressureLaw (liveness : LiveSets) (root : Node) (bytes : Text) (typeOf : Node → Spelling)
    (e : PressureEstimate) : Prop :=
  e.estimatedVgprs.toNat = ∑ x ∈ liveness.liveIn e.block, declaredRegisters root bytes typeOf x

/-- `min16float4 a;` at 9. -/
def vectorDeclaration : PlainNode :=
  ⟨namedNode .declaration none ⟨9, 23⟩
    [namedNode (.other "primitive_type".toList) none ⟨9, 20⟩ [],
     namedNode .identifier (some .declarator) ⟨21, 22⟩ []], rfl, rfl⟩

/-- `float b=v;` at 23, with `v` of that kind. -/
def scalarDeclaration (value : NodeKind) : PlainNode :=
  ⟨namedNode .declaration none ⟨23, 33⟩
    [namedNode (.other "primitive_type".toList) none ⟨23, 28⟩ [],
     namedNode .initDeclarator (some .declarator) ⟨29, 32⟩
      [namedNode .identifier (some .declarator) ⟨29, 30⟩ [], namedNode value (some .value) ⟨31, 32⟩ []]], rfl, rfl⟩

/-- `g(a);` at 39. -/
def callOfG : PlainNode :=
  ⟨namedNode .expressionStatement none ⟨39, 44⟩
    [namedNode .callExpression none ⟨39, 43⟩
      [namedNode .identifier (some .function) ⟨39, 40⟩ [],
       namedNode .argumentList (some .arguments) ⟨40, 43⟩ [namedNode .identifier none ⟨41, 42⟩ []]]], rfl, rfl⟩

def guardedBody (value : NodeKind) : Stmt :=
  .compound ⟨8, 46⟩ (.cons (.simple vectorDeclaration) (.cons (.simple (scalarDeclaration value))
    (.cons (.ifThen ⟨33, 45⟩ (identCondition 35) (.compound ⟨38, 45⟩ (.cons (.simple callOfG) .nil))) .nil)))

def guardedTree (value : NodeKind) : Node := singleFunction (guardedBody value) declaratorOfF 46

/-- `a` is a `min16float4` and `b` a `float`. -/
def guardedTypes (n : Node) : Spelling := if n.info.lo = 9 then .vector .min16float (Fin.last 3) else .scalar .float

def literalText : Text := "void f(){min16float4 a;float b=1;if(b){g(a);}}".toList
def copyText : Text := "void f(){min16float4 a;float b=a;if(b){g(a);}}".toList

/-- What is live in a source. -/
def liveSets (root : Node) (bytes : Text) : LiveSets :=
  computeLiveness (builtStorage ⟨1⟩ root bytes) (defUseTables (builtStorage ⟨1⟩ root bytes) root bytes)

/-- The block of the call. -/
def guardedEstimate (value : NodeKind) (bytes : Text) : PressureEstimate :=
  estimateBlock (liveSets (guardedTree value) bytes) (collectDeclTypes (guardedTree value) bytes) none 2

theorem guardedEstimate_mem (value : NodeKind) (bytes : Text)
    (hblocks : 1 < (builtStorage ⟨1⟩ (guardedTree value) bytes).blockToFunction.length) :
    guardedEstimate value bytes ∈ estimatePressure (builtStorage ⟨1⟩ (guardedTree value) bytes)
      (liveSets (guardedTree value) bytes) (guardedTree value) bytes none :=
  mem_estimatePressure.mpr ⟨1, hblocks, rfl⟩

/-- `a` and `b` are live into it. -/
theorem guarded_live :
    (liveSets (guardedTree .identifier) copyText).liveIn 2 = {"a".toList, "b".toList}
      ∧ (liveSets (guardedTree .numberLiteral) literalText).liveIn 2 = {"a".toList, "b".toList} := by
  decide +kernel

theorem guarded_locals {value : NodeKind} {bytes : Text} (ha : (guardedTree value).popOrder.filter
      (declares bytes "a".toList) = [vectorDeclaration.toNode none])
    (hb : (guardedTree value).popOrder.filter (declares bytes "b".toList) = [(scalarDeclaration value).toNode none])
    (htyped : ∀ x ∈ ({"a".toList, "b".toList} : Finset Text), ∀ n ∈ (guardedTree value).popOrder,
      isDeclLike n = true → x ∈ mentionedNames bytes n → HasType bytes n (guardedTypes n)) :
    Locals (guardedTree value) bytes {"a".toList, "b".toList} guardedTypes := by
  have hone : ∀ x ∈ ({"a".toList, "b".toList} : Finset Text), ∃ n,
      (guardedTree value).popOrder.filter (declares bytes x) = [n] := by
    intro x hx
    rw [Finset.mem_insert, Finset.mem_singleton] at hx
    obtain rfl | rfl := hx
    · exact ⟨_, ha⟩
    · exact ⟨_, hb⟩
  refine ⟨by decide, fun x hx => ?_, fun x hx n hn m hm hdn hdm => ?_, htyped⟩
  · obtain ⟨n, hn⟩ := hone x hx
    have hmem : n ∈ (guardedTree value).popOrder.filter (declares bytes x) := hn ▸ List.mem_singleton_self n
    exact ⟨n, List.mem_filter.mp hmem⟩
  · obtain ⟨k, hk⟩ := hone x hx
    have hnk : n ∈ [k] := hk ▸ List.mem_filter.mpr ⟨hn, hdn⟩
    have hmk : m ∈ [k] := hk ▸ List.mem_filter.mpr ⟨hm, hdm⟩
    rw [List.mem_singleton.mp hnk, List.mem_singleton.mp hmk]

end ShaderClippy.Rules.RegisterPressure
