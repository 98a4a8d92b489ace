/-
  ShaderClippy.Rules.OperandStructure

  **WHEN AN OPERAND MAY STAND FOR ITS CALL.**

  The fixes of `Rules.OperandSplice` write the text of an operand as it is.
  Reading the result gives the tree that was meant (`OperandFix.intended`)
  exactly if the operand binds as tightly as its new place asks, and runs into
  no neighbour (`reparse_operandFix_iff`). A swizzle asks for a postfix
  expression that is no number; the operand alone asks for what the call's
  place asks.
-/
import ShaderClippy.Hlsl.Loose
import ShaderClippy.Rules.OperandSplice

namespace ShaderClippy.Rules

open Hlsl
open Munch (LexOK Seam render)

variable {isType : Text → Bool}

/-! ## §1. What was meant. -/

def comma : Token := ⟨[], [',']⟩

/-- A call, or the construction of a value if the function is a type. -/
def callNode (isType : Text → Bool) (fn l : Token) (args : Expr) (r : Token) : Expr :=
  if kind isType fn = .type then .construct fn l args r else .apply (.atom fn) l args r

/-- The literal `0`. -/
def zeroAt (lead : Text) : Expr := .atom ⟨lead, ['0']⟩

/-- A member of the whole operand, negated or not. -/
def signedMember (v : Expr) (lead : Text) (componentSign : Int) (sw : Char) : Expr :=
  if componentSign < 0 then .unary (.op ⟨lead, ['-']⟩) (member (v.withLead []) sw)
  else member (v.withLead lead) sw

/-- The word `float3` at the head of a call. -/
def kFloat3 : Text := ['f', 'l', 'o', 'a', 't', '3']

/-- Three components, with commas. -/
def triple (a b c : Expr) : Expr := .binary (.binary a comma b) comma c

/-- The components of the cross product with a unit vector. -/
def crossParts (v : Expr) (axis : Nat) (s : Int) : Expr × Expr × Expr :=
  match axis with
  | 0 => (zeroAt [], signedMember v [' '] s 'z', signedMember v [' '] (-s) 'y')
  | 1 => (signedMember v [] (-s) 'z', zeroAt [' '], signedMember v [' '] s 'x')
  | _ => (signedMember v [] s 'y', signedMember v [' '] (-s) 'x', zeroAt [' '])

/-- The same with anything in the place of the signed members. -/
def closedParts (f : Text → Int → Char → Expr) (axis : Nat) (s : Int) : Expr × Expr × Expr :=
  match axis with
  | 0 => (zeroAt [], f [' '] s 'z', f [' '] (-s) 'y')
  | 1 => (f [] (-s) 'z', zeroAt [' '], f [' '] s 'x')
  | _ => (f [] s 'y', f [' '] (-s) 'x', zeroAt [' '])

/-- A call of `float3` with such components. -/
def closedNode (isType : Text → Bool) (lead : Text) (f : Text → Int → Char → Expr) (axis : Nat)
    (s : Int) : Expr :=
  let c := closedParts f axis s
  callNode isType ⟨lead, kFloat3⟩ ⟨[], ['(']⟩ (triple c.1 c.2.1 c.2.2) ⟨[], [')']⟩

/-- The cross product with a unit vector, by components. -/
def crossNode (isType : Text → Bool) (lead : Text) (v : Expr) (axis : Nat) (s : Int) : Expr :=
  let c := crossParts v axis s
  callNode isType ⟨lead, kFloat3⟩ ⟨[], ['(']⟩ (triple c.1 c.2.1 c.2.2) ⟨[], [')']⟩

namespace OperandFix

/-- The node that is meant to stand in the place of the call. -/
def intended (isType : Text → Bool) (lead : Text) : OperandFix → Expr
  | .dot v axis => member (v.withLead lead) (axisSwizzle axis)
  | .cross v info flipSign =>
      crossNode isType lead v info.axis ((if flipSign then -1 else 1) * info.sign)
  | .lerp result _ => result.withLead lead
  | .abs arg => arg.withLead lead
  | .transpose m => m.withLead lead

/-- A member of the operand can be taken as it is written. -/
def Swizzled (isType : Text → Bool) (v : Expr) : Prop :=
  kPostfix ≤ v.level isType ∧ numberOf isType v = none

/-- The operand can stand in the place as it is written. -/
def Fits (isType : Text → Bool) (c : Ctx) (lead : Text) (v : Expr) : Prop :=
  c.need isType ≤ v.level isType ∧ Seam rules c.before (v.withLead lead).toks
    ∧ Seam rules v.toks c.after

/-- When the fix keeps the structure. -/
def Safe (isType : Text → Bool) (c : Ctx) (lead : Text) : OperandFix → Prop
  | .dot v _ => Swizzled isType v
  | .cross v _ _ => Swizzled isType v
  | .lerp result _ => Fits isType c lead result
  | .abs arg => Fits isType c lead arg
  | .transpose m => Fits isType c lead m

/-- The operand that is kept. -/
def operand : OperandFix → Expr
  | .dot v _ => v
  | .cross v _ _ => v
  | .lerp result _ => result
  | .abs arg => arg
  | .transpose m => m

end OperandFix

/-! ## §2. What is matched is an operand of the call. -/

theorem two_args {e : Expr} (h : Part isType e) {name : Text} {a b : Expr}
    (hcall : callTo name e = some [a, b]) : Part isType a ∧ Part isType b :=
  ⟨(callTo_spec h hcall a (by simp)).1, (callTo_spec h hcall b (by simp)).1⟩

theorem part_matchDot {node v : Expr} (h : Part isType node) {axis : Nat}
    (hm : matchDot isType node = some (v, axis)) : Part isType v := by
  unfold matchDot at hm
  split at hm
  case h_1 arg0 arg1 hcall =>
    have ⟨h0, h1⟩ := two_args h hcall
    split at hm
    · cases hm
      exact h0
    · have ⟨x, _, heq⟩ := Option.map_eq_some_iff.mp hm
      cases heq
      exact h1
  case h_2 => cases hm

/-- The axis is the index of a component. -/
theorem axisLoop_lt {args : List Expr} {i : Nat} {info : Option AxisInfo} {out : AxisInfo}
    (hinfo : ∀ x, info = some x → x.axis < i) (h : axisLoop isType i info args = some out) :
    out.axis < i + args.length := by
  induction args generalizing i info with
  | nil =>
      rw [axisLoop] at h
      exact hinfo out h
  | cons c rest ih =>
      have hstep : ∀ sign, (∀ x, some (AxisInfo.mk i sign) = some x → x.axis < i + 1) := by
        intro sign x hx
        cases hx
        exact Nat.lt_succ_self _
      have hlen : i + (c :: rest).length = i + 1 + rest.length := by
        rw [List.length_cons]
        omega
      rw [hlen]
      unfold axisLoop at h
      split at h
      · exact ih (fun x hx => Nat.lt_succ_of_lt (hinfo x hx)) h
      · split at h
        · cases h
        · exact ih (hstep _) h
      · split at h
        · cases h
        · exact ih (hstep _) h
      · cases h

theorem axisOfConstructor_lt {node : Expr} {info : AxisInfo}
    (h : axisOfConstructor isType node = some info) : info.axis < 3 := by
  rw [axisOfConstructor, Option.bind_eq_some_iff] at h
  have ⟨call, _, h⟩ := h
  split at h
  case isTrue => cases h
  case isFalse =>
    split at h
    case isTrue => cases h
    case isFalse hlen =>
      have hnone : ∀ x, (none : Option AxisInfo) = some x → x.axis < 0 := nofun
      have hlt := axisLoop_lt hnone h
      omega

theorem part_matchCross {node v : Expr} (h : Part isType node) {info : AxisInfo} {flip : Bool}
    (hm : matchCross isType node = some (v, info, flip)) : Part isType v ∧ info.axis < 3 := by
  unfold matchCross at hm
  split at hm
  case h_1 arg0 arg1 hcall =>
    have ⟨h0, h1⟩ := two_args h hcall
    split at hm
    case h_1 x hx =>
      cases hm
      exact ⟨h0, axisOfConstructor_lt hx⟩
    case h_2 =>
      have ⟨x, hx, heq⟩ := Option.map_eq_some_iff.mp hm
      cases heq
      exact ⟨h1, axisOfConstructor_lt hx⟩
  case h_2 => cases hm

theorem part_matchLerp {node v : Expr} (h : Part isType node) {isZero : Bool}
    (hm : (v, isZero) ∈ matchLerp isType node) : Part isType v := by
  rw [matchLerp, List.mem_filterMap] at hm
  have ⟨⟨a, b, t⟩, hmem, hfire⟩ := hm
  have hab : Part isType a ∧ Part isType b := by
    unfold lerpMatches at hmem
    split at hmem
    case h_1 => cases hmem
    case h_2 call hcall =>
      split at hmem
      case isTrue =>
        have ⟨m, hsub, hm⟩ := List.mem_filterMap.mp hmem
        have hsub := (List.mem_sublistsLen.mp hsub).1
        split at hm
        · have ⟨_, _, heq⟩ := Option.map_eq_some_iff.mp hm
          cases heq
          exact ⟨(callOf_spec h hcall a (hsub.subset (by simp))).1,
            (callOf_spec h hcall b (hsub.subset (by simp))).1⟩
        · cases hm
      case isFalse => cases hmem
  simp only at hfire
  split at hfire
  · cases hfire
    exact hab.1
  · split at hfire
    · cases hfire
      exact hab.2
    · cases hfire

theorem part_matchAbs {node v : Expr} (h : Part isType node) (hm : matchAbs node = some v) :
    Part isType v := by
  rw [matchAbs, Option.bind_eq_some_iff] at hm
  have ⟨arg, hcall, hclass⟩ := hm
  split at hclass
  case isTrue =>
    cases hclass
    unfold unaryCallTo at hcall
    split at hcall
    case h_1 a hto =>
      cases hcall
      exact (callTo_spec h hto _ (by simp)).1
    case h_2 => cases hcall
  case isFalse => cases hclass

theorem part_transposeArgs {node : Expr} (h : Part isType node) {args : List Expr}
    (hm : transposeArgs isType node = some args) : ∀ a ∈ args, Part isType a := by
  rw [transposeArgs, Option.bind_eq_some_iff] at hm
  have ⟨call, hcall, hname⟩ := hm
  split at hname
  case isTrue =>
    cases hname
    exact fun a ha => (callOf_spec h hcall a ha).1
  case isFalse => cases hname

theorem part_matchTranspose {node v : Expr} (h : Part isType node)
    (hm : v ∈ matchTranspose isType node) : Part isType v := by
  rw [matchTranspose, List.mem_filterMap] at hm
  have ⟨inner, hinner, hm⟩ := hm
  cases hargs : transposeArgs isType node with
  | none =>
      rw [hargs] at hinner
      cases hinner
  | some args =>
      rw [hargs, Option.getD_some] at hinner
      have hpart := part_transposeArgs h hargs inner hinner
      split at hm
      case h_1 m hto =>
        cases hm
        exact part_transposeArgs hpart hto _ (by simp)
      case h_2 => cases hm

/-- **The operand that is kept is a part of the call.** -/
theorem part_operand {node : Expr} (h : Part isType node) {m : OperandFix}
    (hm : m ∈ operandFixes isType node) :
    Part isType m.operand
      ∧ ∀ v info flip, m = .cross v info flip → info.axis < 3 := by
  simp only [operandFixes, List.mem_append, List.mem_map, Option.mem_toList] at hm
  rcases hm with (((⟨x, hx, rfl⟩ | ⟨x, hx, rfl⟩) | ⟨x, hx, rfl⟩) | ⟨x, hx, rfl⟩) | ⟨x, hx, rfl⟩
  · exact ⟨part_matchDot h hx, nofun⟩
  · have ⟨hpart, haxis⟩ := part_matchCross h hx
    refine ⟨hpart, fun v info flip heq => ?_⟩
    cases heq
    exact haxis
  · exact ⟨part_matchLerp h hx, nofun⟩
  · exact ⟨part_matchAbs h hx, nofun⟩
  · exact ⟨part_matchTranspose h hx, nofun⟩

/-! ## §3. The cross product. -/

/-- A component of the vector: a part of its own that ends before a comma and
before the parenthesis. -/
structure Component (isType : Text → Bool) (e : Expr) : Prop where
  part : Part isType e
  level : 1 ≤ e.level isType
  ends : ∀ d ∈ [',', ')'], ∀ us, Seam rules e.toks (⟨[], [d]⟩ :: us)

/-- Every expression that binds tighter than a comma can be a component. -/
theorem component_of_part {e : Expr} (h : Part isType e) (hle : 1 ≤ e.level isType) :
    Component isType e := by
  refine ⟨h, hle, fun d hd us t ht => ?_⟩
  have ⟨u, hlast, hends⟩ := last_toks h.1
  rw [hlast] at ht
  cases ht
  have hcloser : ([',', ')'].all fun d => kClosers.contains d) = true := rfl
  have hmem := List.contains_iff_mem.mp (List.all_eq_true.mp hcloser d hd)
  exact Munch.stops_cons.mpr (grows_closer hends hmem)

/-- The same with other blanks in front. -/
theorem component_withLead {e : Expr} (he : Part isType e) (hle : 1 ≤ e.level isType) {lead : Text}
    (hlead : Blank lead) : Component isType (e.withLead lead) := by
  refine component_of_part ⟨(wellFormed_withLead lead e).mpr he.1, ?_⟩ (by rwa [level_withLead])
  rw [toks_withLead]
  exact lexOK_setLead hlead he.2

theorem component_zero {lead : Text} (hlead : Blank lead) : Component isType (zeroAt lead) := by
  refine ⟨⟨Or.inr rfl, hlead, ⟨nofun, by decide, trivial⟩, Munch.stops_nil _, trivial⟩, ?_, ?_⟩
  · show 1 ≤ 16
    omega
  · intro d hd us t ht
    cases ht
    refine Munch.stops_cons.mpr ?_
    have hall : ([',', ')'].all fun d => !grows ['0'] d) = true := rfl
    have hs := List.all_eq_true.mp hall d hd
    rwa [Bool.not_eq_true'] at hs

theorem endsOperand_member (v : Expr) {c : Char} (hc : c ∈ kSwizzle) :
    EndsOperand isType (member v c) := by
  have hlist : v.toks ++ [(⟨[], ['.']⟩ : Token), ⟨[], [c]⟩] = (v.toks ++ [⟨[], ['.']⟩]) ++ [⟨[], [c]⟩] := by
    simp
  exact ⟨⟨[], [c]⟩, by rw [member, Expr.toks, Suffix.toks, hlist, List.getLast?_concat],
    Or.inl (kind_swizzle isType hc)⟩

theorem startsOperand_append {e f : Expr} {us : List Token} (he : StartsOperand e)
    (hf : f.toks = e.toks ++ us) : StartsOperand f := by
  have ⟨t, ts, c, cs, htoks, hbody, hc⟩ := he
  exact ⟨t, ts ++ us, c, cs, by rw [hf, htoks]; rfl, hbody, hc⟩

/-- A member ends before a comma and before the parenthesis. -/
theorem ends_member (v : Expr) {c : Char} (hc : c ∈ kSwizzle) :
    ∀ d ∈ [',', ')'], ∀ us, Seam rules (member v c).toks (⟨[], [d]⟩ :: us) := by
  intro d hd us t ht
  have ⟨u, hlast, hword⟩ : EndsOperand (fun _ => false) (member v c) := endsOperand_member v hc
  rw [hlast] at ht
  cases ht
  have hsymbol : ([',', ')'].all fun d => (kindOf (fun _ => false) [d]).isSymbol) = true := rfl
  exact stops_symbol hword (u := ⟨[], [d]⟩) (List.all_eq_true.mp hsymbol d hd) blank_nil us

/-- **A member with a sign is a part exactly if the member is.** -/
theorem part_signedMember_iff {v : Expr} (hv : Part isType v) {lead : Text} (hlead : Blank lead)
    {c : Char} (hc : c ∈ kSwizzle) (s : Int) :
    Part isType (signedMember v lead s c) ↔ OperandFix.Swizzled isType v := by
  rw [signedMember]
  split
  case isFalse => exact part_member_iff hv hlead hc
  case isTrue =>
    rw [OperandFix.Swizzled, ← part_member_iff hv blank_nil hc]
    constructor
    · intro h
      exact Part.fill (f := .unary (.op ⟨lead, ['-']⟩)) h
    · intro h
      have hswizzled := (part_member_iff hv blank_nil hc).mp h
      have hstart : StartsOperand (member (v.withLead []) c) :=
        startsOperand_append (startsOperand hv.1 hswizzled.1 []) rfl
      have hctx : Ctx.WellFormed isType [.unary (.op ⟨lead, ['-']⟩)] := ⟨rfl, Nat.zero_le _, trivial⟩
      have hblank : Blank (member (v.withLead []) c).lead := blank_lead h.2
      refine ⟨⟨rfl, h.1, ?_⟩, ?_⟩
      · show 14 ≤ 15
        omega
      · show LexOK rules ([⟨lead, ['-']⟩] ++ (member (v.withLead []) c).toks)
        rw [Munch.lexOK_append]
        refine ⟨⟨hlead, ⟨nofun, by decide, trivial⟩, Munch.stops_nil _, trivial⟩, h.2, ?_⟩
        exact seam_before hctx hblank hstart

theorem component_signedMember {v : Expr} (hv : Part isType v) (hs : OperandFix.Swizzled isType v)
    {lead : Text} (hlead : Blank lead) {c : Char} (hc : c ∈ kSwizzle) (s : Int) :
    Component isType (signedMember v lead s c) := by
  refine ⟨(part_signedMember_iff hv hlead hc s).mpr hs, ?_, ?_⟩
  · rw [signedMember]
    split
    · show 1 ≤ 14
      omega
    · show 1 ≤ 15
      omega
  · rw [signedMember]
    split
    · intro d hd us
      have happ : (Expr.unary (.op ⟨lead, ['-']⟩) (member (v.withLead []) c)).toks
          = [⟨lead, ['-']⟩] ++ (member (v.withLead []) c).toks := rfl
      rw [happ, Munch.seam_append_left (Expr.toks_ne_nil _)]
      exact ends_member _ hc d hd us
    · exact ends_member _ hc

theorem toks_callNode (fn l : Token) (args : Expr) (r : Token) :
    (callNode isType fn l args r).toks = fn :: l :: (args.toks ++ [r]) := by
  rw [callNode]
  split <;> rfl

theorem toks_triple (a b c : Expr) :
    (triple a b c).toks = a.toks ++ comma :: (b.toks ++ comma :: c.toks) := by
  rw [triple, Expr.toks, Expr.toks, List.append_assoc]
  rfl

theorem component_of_triple {a b c : Expr} (h : Part isType (triple a b c)) :
    Part isType a ∧ Part isType b ∧ Part isType c := by
  have hab : Part isType (.binary a comma b) := Part.fill (f := .left comma c) h
  exact ⟨Part.fill (f := .left comma b) hab, Part.fill (f := .right a comma) hab,
    Part.fill (f := .right (.binary a comma b) comma) h⟩

/-- One component more, with a comma in front of it. -/
theorem part_comma {x b : Expr} (hx : Part isType x) (hends : ∀ us, Seam rules x.toks (⟨[], [',']⟩ :: us))
    (hb : Component isType b) :
    Part isType (.binary x comma b)
      ∧ ∀ d ∈ [',', ')'], ∀ us, Seam rules (Expr.binary x comma b).toks (⟨[], [d]⟩ :: us) := by
  have hcomma : kind isType comma = .operator kComma := rfl
  refine ⟨⟨?_, ?_⟩, ?_⟩
  · exact ⟨kComma, by rw [hcomma]; rfl, hx.1, Nat.zero_le _, hb.part.1, hb.level⟩
  · exact Munch.lexOK_append.mpr ⟨hx.2, lexOK_solo (by decide) hb.part.2, hends _⟩
  · intro d hd us
    have happ : (Expr.binary x comma b).toks = (x.toks ++ [comma]) ++ b.toks := by
      rw [Expr.toks, List.append_assoc]
      rfl
    rw [happ, Munch.seam_append_left b.toks_ne_nil]
    exact hb.ends d hd us

theorem part_triple {a b c : Expr} (ha : Component isType a) (hb : Component isType b)
    (hc : Component isType c) :
    Part isType (triple a b c)
      ∧ ∀ us, Seam rules (triple a b c).toks (⟨[], [')']⟩ :: us) := by
  obtain ⟨hab, hends⟩ := part_comma ha.part (ha.ends ',' (by decide)) hb
  obtain ⟨habc, hends'⟩ := part_comma hab (hends ',' (by decide)) hc
  exact ⟨habc, hends' ')' (by decide)⟩

/-- A word, as the name of a function is one. -/
structure IsWord (fn : Text) : Prop where
  starts : fn.head?.any isWordStart = true
  chars : fn.all isWordChar = true

theorem isWord_float3 : IsWord kFloat3 := ⟨rfl, rfl⟩

/-- A word is the name of a type, or another name. -/
theorem kind_word {fn : Text} (hfn : IsWord fn) (lead : Text) :
    kind isType ⟨lead, fn⟩ = .type ∨ kind isType ⟨lead, fn⟩ = .name := by
  have hsymbol : (kindOf isType fn).isSymbol = false := by
    by_contra h
    obtain ⟨d, t, hbody, -, hd, -⟩ := symbol_head (kindOf_symbol (Bool.not_eq_false _ ▸ h))
    have hstarts := hfn.starts
    rw [hbody, List.head?_cons, Option.any_some, hd] at hstarts
    cases hstarts
  have hkind : kind isType ⟨lead, fn⟩ = if isType fn then .type else .name := by
    show kindOf isType fn = _
    rw [kindOf_wordKind hsymbol, wordKind, if_pos hfn.starts]
  rw [hkind]
  split
  · exact Or.inl rfl
  · exact Or.inr rfl

theorem isWord_kind {fn : Text} (hfn : IsWord fn) : (kindOf isType fn).isWord = true := by
  obtain h | h := @kind_word isType fn hfn []
  · rw [show kindOf isType fn = .type from h]
    rfl
  · rw [show kindOf isType fn = .name from h]
    rfl

/-- A call of a word is a part of its own if its arguments are. -/
theorem part_callNode {fn : Text} (hfn : IsWord fn) {lead : Text} (hlead : Blank lead) {args : Expr}
    (h : Part isType args) (hends : Seam rules args.toks [⟨[], [')']⟩]) :
    Part isType (callNode isType ⟨lead, fn⟩ ⟨[], ['(']⟩ args ⟨[], [')']⟩) := by
  constructor
  · rw [callNode]
    split
    case isTrue htype => exact ⟨htype, rfl, h.1, rfl⟩
    case isFalse htype =>
      have hname := (kind_word hfn lead).resolve_left htype
      exact ⟨Or.inl hname, by show 15 ≤ 16; omega, h.1, Or.inl ⟨rfl, rfl⟩⟩
  · have hargs : LexOK rules (args.toks ++ [⟨[], [')']⟩]) :=
      Munch.lexOK_append.mpr ⟨h.2, lexOK_solo (by decide) trivial, hends⟩
    rw [toks_callNode]
    have htoken := isToken_word hfn.starts hfn.chars
    have hstop : grows fn '(' = false := (grows_word (@isWord_kind isType fn hfn) _).trans rfl
    exact ⟨hlead, htoken, Munch.stops_cons.mpr hstop, lexOK_solo (by decide) hargs⟩

theorem crossNode_eq (lead : Text) (v : Expr) (axis : Nat) (s : Int) :
    crossNode isType lead v axis s = closedNode isType lead (signedMember v) axis s := rfl

/-- A call of `float3` is a part of its own if the components may stand in it. -/
theorem part_closedNode {f : Text → Int → Char → Expr}
    (hf : ∀ lead, Blank lead → ∀ s, ∀ c ∈ kSwizzle, Component isType (f lead s c)) {lead : Text}
    (hlead : Blank lead) (axis : Nat) (s : Int) : Part isType (closedNode isType lead f axis s) := by
  have hparts : Component isType (closedParts f axis s).1 ∧ Component isType (closedParts f axis s).2.1
      ∧ Component isType (closedParts f axis s).2.2 := by
    unfold closedParts
    split
    · exact ⟨component_zero blank_nil, hf _ blank_space _ _ (by decide),
        hf _ blank_space _ _ (by decide)⟩
    · exact ⟨hf _ blank_nil _ _ (by decide), component_zero blank_space,
        hf _ blank_space _ _ (by decide)⟩
    · exact ⟨hf _ blank_nil _ _ (by decide), hf _ blank_space _ _ (by decide),
        component_zero blank_space⟩
  have ⟨hpart, hends⟩ := part_triple hparts.1 hparts.2.1 hparts.2.2
  exact part_callNode isWord_float3 hlead hpart (hends [])

/-- **The cross product is a part of its own exactly if the members are.** -/
theorem part_crossNode_iff {v : Expr} (hv : Part isType v) {lead : Text} (hlead : Blank lead)
    (axis : Nat) (s : Int) :
    Part isType (crossNode isType lead v axis s) ↔ OperandFix.Swizzled isType v := by
  constructor
  · intro h
    have hargs : Part isType (triple (crossParts v axis s).1 (crossParts v axis s).2.1
        (crossParts v axis s).2.2) := by
      rw [crossNode, callNode] at h
      split at h
      · exact Part.fill (f := .construct _ _ _) h
      · exact Part.fill (f := .argument _ _ _) h
    have ⟨ha, hb, _⟩ := component_of_triple hargs
    unfold crossParts at ha hb
    split at hb
    · exact (part_signedMember_iff hv blank_space (by decide) _).mp hb
    · exact (part_signedMember_iff hv blank_nil (by decide) _).mp ha
    · exact (part_signedMember_iff hv blank_space (by decide) _).mp hb
  · intro hs
    rw [crossNode_eq]
    exact part_closedNode (fun lead hlead s c hc => component_signedMember hv hs hlead hc s) hlead axis s

/-! ## §4. The text of a fix is the text of what was meant. -/

theorem lead_member (v : Expr) (lead : Text) (c : Char) : (member (v.withLead lead) c).lead = lead := by
  have hlead := lead_withLead lead v
  rw [Expr.lead] at hlead ⊢
  rw [member, Expr.toks, List.head?_append_of_ne_nil _ (Expr.toks_ne_nil _), hlead]

theorem render_signedMember (v : Expr) (lead : Text) (s : Int) (c : Char) :
    render (signedMember v lead s c).toks = lead ++ signedSwizzle (nodeText v) s c := by
  rw [signedMember, signedSwizzle]
  split
  · have htoks : (Expr.unary (.op ⟨lead, ['-']⟩) (member (v.withLead []) c)).toks
        = ⟨lead, ['-']⟩ :: (member (v.withLead []) c).toks := rfl
    rw [htoks, Munch.render_cons, render_toks, lead_member, nodeText_member, nodeText_withLead,
      Munch.Lexeme.text, List.nil_append, List.append_assoc, List.append_assoc]
  · rw [render_toks, lead_member, nodeText_member, nodeText_withLead, List.nil_append]

theorem render_triple (a b c : Expr) :
    render (triple a b c).toks
      = render a.toks ++ ',' :: (render b.toks ++ ',' :: render c.toks) := by
  rw [toks_triple, Munch.render_append, Munch.render_cons, Munch.render_append, Munch.render_cons]
  rfl

/-- The text of a call of a word. -/
theorem nodeText_callNode (lead fn : Text) (args : Expr) :
    nodeText (callNode isType ⟨lead, fn⟩ ⟨[], ['(']⟩ args ⟨[], [')']⟩)
      = fn ++ '(' :: (render args.toks ++ [')']) := by
  rw [nodeText, toks_callNode, setLead, Munch.render_cons, Munch.render_cons, Munch.render_append]
  simp only [Munch.Lexeme.text, Munch.render_cons, Munch.render_nil, List.nil_append, List.append_nil,
    List.cons_append]

theorem lead_callNode (lead fn : Text) (args : Expr) :
    (callNode isType ⟨lead, fn⟩ ⟨[], ['(']⟩ args ⟨[], [')']⟩).lead = lead := by
  rw [Expr.lead, toks_callNode]
  rfl

theorem float3_open : "float3(".toList = kFloat3 ++ ['('] := rfl

theorem render_zeroAt (lead : Text) : render (zeroAt lead).toks = lead ++ ['0'] := by
  show lead ++ ['0'] ++ [] = lead ++ ['0']
  rw [List.append_nil]

/-- The text of a call of `float3` whose components are written like signed
swizzles. -/
theorem nodeText_closedNode {f : Text → Int → Char → Expr} {vText : Text}
    (hf : ∀ lead s c, render (f lead s c).toks = lead ++ signedSwizzle vText s c) (lead : Text)
    {axis : Nat} (haxis : axis < 3) (sign : Int) (flipSign : Bool) :
    nodeText (closedNode isType lead f axis ((if flipSign then -1 else 1) * sign))
      = buildReplacement vText axis sign flipSign := by
  rw [closedNode, nodeText_callNode, render_triple]
  unfold buildReplacement
  rw [float3_open]
  have hcases : axis = 0 ∨ axis = 1 ∨ axis = 2 := by omega
  rcases hcases with rfl | rfl | rfl
  · simp only [closedParts, hf, render_zeroAt, List.nil_append, List.append_assoc, List.cons_append]
  · simp only [closedParts, hf, render_zeroAt, List.nil_append, List.append_assoc, List.cons_append]
  · simp only [closedParts, hf, render_zeroAt, List.nil_append, List.append_assoc, List.cons_append]

theorem lead_closedNode (lead : Text) (f : Text → Int → Char → Expr) (axis : Nat) (s : Int) :
    (closedNode isType lead f axis s).lead = lead :=
  lead_callNode lead kFloat3 _

/-- **A fix writes the text of what was meant**, in the place of the call. -/
theorem nodeText_intended {node : Expr} (h : Part isType node) {m : OperandFix}
    (hm : m ∈ operandFixes isType node) (lead : Text) :
    nodeText (m.intended isType lead) = m.replacement
      ∧ (m.intended isType lead).lead = lead := by
  have ⟨_, haxis⟩ := part_operand h hm
  cases m with
  | dot v axis =>
      exact ⟨by rw [OperandFix.intended, nodeText_member, nodeText_withLead]; rfl,
        lead_member v lead _⟩
  | cross v info flipSign =>
      exact ⟨nodeText_closedNode (render_signedMember v) lead (haxis v info flipSign rfl) info.sign
        flipSign, lead_closedNode lead _ _ _⟩
  | lerp result isZero => exact ⟨nodeText_withLead lead result, lead_withLead lead result⟩
  | abs arg => exact ⟨nodeText_withLead lead arg, lead_withLead lead arg⟩
  | transpose v => exact ⟨nodeText_withLead lead v, lead_withLead lead v⟩

/-! ## §5. Reading the result. -/

/-- What is meant can stand in the place of the call. -/
def Stands (isType : Text → Bool) (c : Ctx) (e : Expr) : Prop :=
  c.need isType ≤ e.level isType ∧ Seam rules c.before e.toks ∧ Seam rules e.toks c.after

/-- A postfix expression from a word to a word or a bracket stands everywhere. -/
theorem stands_postfix {c : Ctx} (hc : c.WellFormed isType) (hafter : LexOK rules c.after) {e : Expr}
    (he : Part isType e) (hle : kPostfix ≤ e.level isType) (hstarts : StartsOperand e)
    (hends : EndsOperand isType e) : Stands isType c e :=
  ⟨Nat.le_trans (need_le_kPostfix hc) hle, seam_before hc (blank_lead he.2) hstarts,
    seam_after hc hafter hends⟩

theorem stands_member {c : Ctx} (hc : c.WellFormed isType) (hafter : LexOK rules c.after) {v : Expr}
    {lead : Text} {ch : Char} (hch : ch ∈ kSwizzle) (he : Part isType (member (v.withLead lead) ch)) :
    Stands isType c (member (v.withLead lead) ch) := by
  have hv : Part isType (v.withLead lead) := Part.fill (f := .suffix (.member _ _)) he
  have hstart := startsOperand hv.1 he.1.2.1 lead
  have hself : (v.withLead lead).withLead lead = v.withLead lead := withLead_withLead lead lead v
  rw [hself] at hstart
  exact stands_postfix hc hafter he (Nat.le_refl _) (startsOperand_append hstart rfl)
    (endsOperand_member _ hch)

/-- A call of a word stands everywhere. -/
theorem stands_callNode {c : Ctx} (hc : c.WellFormed isType) (hafter : LexOK rules c.after) {fn : Text}
    (hfn : IsWord fn) {lead : Text} {args : Expr}
    (he : Part isType (callNode isType ⟨lead, fn⟩ ⟨[], ['(']⟩ args ⟨[], [')']⟩)) :
    Stands isType c (callNode isType ⟨lead, fn⟩ ⟨[], ['(']⟩ args ⟨[], [')']⟩) := by
  have hle : kPostfix
      ≤ (callNode isType ⟨lead, fn⟩ ⟨[], ['(']⟩ args ⟨[], [')']⟩).level isType := by
    rw [callNode]
    split
    · show 15 ≤ 16
      omega
    · exact Nat.le_refl _
  refine stands_postfix hc hafter he hle ?_ ?_
  · obtain ⟨d, ds, hd, hhead⟩ := head_operand (Or.inl (@isWord_kind isType fn hfn))
    exact ⟨_, _, d, ds, toks_callNode _ _ _ _, hd, hhead⟩
  · refine ⟨⟨[], [')']⟩, ?_, Or.inr rfl⟩
    rw [toks_callNode, List.getLast?_cons_cons, ← List.cons_append, List.getLast?_concat]

theorem axisSwizzle_mem (axis : Nat) : axisSwizzle axis ∈ kSwizzle := by
  unfold axisSwizzle
  split <;> decide

/-- **Reading the result of an operand fix** gives the tree with the call
replaced by what was meant, exactly if the fix is safe. -/
theorem reparse_operandFix_iff (isType : Text → Bool) {s : Text} {c : Ctx} {node : Expr}
    (h : parseText isType s = some (c.plug node)) {m : OperandFix}
    (hm : m ∈ operandFixes isType node) (source : SourceId) :
    parseText isType (applyFix s (m.fix source c node)) = some (c.plug (m.intended isType node.lead))
      ↔ m.Safe isType c node.lead := by
  have ⟨hc, hnode, hafter⟩ := part_of_parse h
  have hblank := blank_lead hnode.2
  have ⟨hv, _⟩ := part_operand hnode hm
  have ⟨htext, hlead⟩ := nodeText_intended hnode hm node.lead
  rw [OperandFix.fix, applyFix_nodeFix, ← htext, reparse_iff h hlead]
  -- a swizzle stands wherever it is a part, an operand is always one
  have hswizzle : ∀ {e : Expr}, (Part isType e → Stands isType c e) →
      (Part isType e ↔ OperandFix.Swizzled isType m.operand) →
      ((e.WellFormed isType ∧ c.need isType ≤ e.level isType ∧ LexOK rules e.toks
        ∧ Seam rules c.before e.toks ∧ Seam rules e.toks c.after)
        ↔ OperandFix.Swizzled isType m.operand) := by
    intro e hstands hiff
    rw [← hiff]
    constructor
    · rintro ⟨hwf, _, hok, _⟩
      exact ⟨hwf, hok⟩
    · intro he
      have ⟨hneed, hleft, hright⟩ := hstands he
      exact ⟨he.1, hneed, he.2, hleft, hright⟩
  have hoperand : ((m.operand.withLead node.lead).WellFormed isType
      ∧ c.need isType ≤ (m.operand.withLead node.lead).level isType
      ∧ LexOK rules (m.operand.withLead node.lead).toks
      ∧ Seam rules c.before (m.operand.withLead node.lead).toks
      ∧ Seam rules (m.operand.withLead node.lead).toks c.after)
        ↔ OperandFix.Fits isType c node.lead m.operand := by
    rw [OperandFix.Fits, wellFormed_withLead, level_withLead, toks_withLead]
    constructor
    · rintro ⟨_, hneed, _, hleft, hright⟩
      exact ⟨hneed, hleft, (seam_setLead _ _ _).mp hright⟩
    · rintro ⟨hneed, hleft, hright⟩
      exact ⟨hv.1, hneed, lexOK_setLead hblank hv.2, hleft, (seam_setLead _ _ _).mpr hright⟩
  cases m with
  | dot v axis =>
      exact hswizzle (stands_member hc hafter (axisSwizzle_mem axis))
        (part_member_iff hv hblank (axisSwizzle_mem axis))
  | cross v info flipSign =>
      exact hswizzle (stands_callNode hc hafter isWord_float3) (part_crossNode_iff hv hblank _ _)
  | lerp result isZero => exact hoperand
  | abs arg => exact hoperand
  | transpose v => exact hoperand

/-- The call `dot(v, float2(1, 0))`. -/
def dotNode (v : Expr) : Expr :=
  let one : Expr := .atom ⟨[' '], ['1']⟩
  let axis : Expr := .apply (.atom ⟨[' '], ['f', 'l', 'o', 'a', 't', '2']⟩) ⟨[], ['(']⟩
    (.binary (one.withLead []) comma (zeroAt [' '])) ⟨[], [')']⟩
  .apply (.atom ⟨[' '], ['d', 'o', 't']⟩) ⟨[], ['(']⟩ (.binary v comma axis) ⟨[], [')']⟩

/-- `s * dot(v, float2(1, 0))` becomes `s * v.x`. -/
theorem reparse_dot_name :
    parseText (fun _ => false) (applyFix ("s * dot(v, float2(1, 0))".toList)
        ((OperandFix.dot (.atom ⟨[], ['v']⟩) 0).fix ⟨1⟩ [.right (.atom ⟨[], ['s']⟩) ⟨[' '], ['*']⟩]
          (dotNode (.atom ⟨[], ['v']⟩))))
      = some (.binary (.atom ⟨[], ['s']⟩) ⟨[' '], ['*']⟩ (member (.atom ⟨[' '], ['v']⟩) 'x')) :=
  (reparse_operandFix_iff (fun _ => false) (by decide +kernel) (by decide +kernel) ⟨1⟩).mpr
    ⟨by decide, by decide⟩

/-- `dot(a + b, float2(1, 0))` becomes `a + b.x`, a member of `b` alone. -/
theorem dot_of_sum_splits :
    let sum : Expr := .binary (.atom ⟨[], ['a']⟩) ⟨[' '], ['+']⟩ (.atom ⟨[' '], ['b']⟩)
    let s := " dot(a + b, float2(1, 0))".toList
    let fix := (OperandFix.dot sum 0).fix ⟨1⟩ [] (dotNode sum)
    parseText (fun _ => false) s = some (dotNode sum)
      ∧ OperandFix.dot sum 0 ∈ operandFixes (fun _ => false) (dotNode sum)
      ∧ fix.machineApplicable = true
      ∧ parseText (fun _ => false) (applyFix s fix)
          ≠ some ((OperandFix.dot sum 0).intended (fun _ => false) [' ']) := by
  decide +kernel

end ShaderClippy.Rules
