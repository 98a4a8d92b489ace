/-
  ShaderClippy.Hlsl.Product

  **A PRODUCT IN THE PLACE OF A NODE.**

  A product that is written without parentheses is not always one operand when
  it is read again: what binds tighter than `*` in front of it takes the first
  factor, and the rest is multiplied on (`regroup`). Signs and a `*` on the left
  may do so, since the value is the same (`value_regroup`).
-/
import ShaderClippy.Hlsl.Meaning
import ShaderClippy.Hlsl.Seams
import Mathlib.Algebra.BigOperators.Group.List.Basic
import Mathlib.Algebra.Ring.Defs

namespace ShaderClippy.Hlsl

open Munch (LexOK Seam render)

/-! ## §1. Products. -/

/-- `*` with a blank in front. -/
def times : Token := ⟨[' '], ['*']⟩

/-- The level of `*`. -/
def kTerm : Nat := 12

/-- The product of the factors, from the left. -/
def mulAll (p : Expr) : List Expr → Expr
  | [] => p
  | q :: rest => mulAll (.binary p times q) rest

/-- The tokens of a product: its factors with `*` between them. -/
theorem toks_mulAll (p : Expr) (rest : List Expr) :
    (mulAll p rest).toks = p.toks ++ rest.flatMap fun q => times :: q.toks := by
  induction rest generalizing p with
  | nil => rw [mulAll, List.flatMap_nil, List.append_nil]
  | cons q rest ih =>
      rw [mulAll, ih, Expr.toks, List.flatMap_cons, List.append_assoc]

variable {isType : Text → Bool}

theorem prec_times : (kind isType times).prec = some (leftAssoc 12) := rfl

/-- A product binds as a term at least. -/
theorem level_mulAll {p : Expr} (hp : kTerm ≤ p.level isType) (rest : List Expr) :
    kTerm ≤ (mulAll p rest).level isType := by
  induction rest generalizing p with
  | nil => exact hp
  | cons q rest ih =>
      refine ih ?_
      rw [level_binary isType prec_times]
      exact Nat.le_refl 12

/-- The factors behind the first one. -/
def Factors (isType : Text → Bool) (rest : List Expr) : Prop :=
  ∀ q ∈ rest, Part isType q ∧ kTerm < q.level isType ∧ q.lead ≠ []

/-- A product of factors is well formed. -/
theorem wellFormed_mulAll {p : Expr} (hp : p.WellFormed isType) (hle : kTerm ≤ p.level isType)
    {rest : List Expr} (hrest : Factors isType rest) : (mulAll p rest).WellFormed isType := by
  induction rest generalizing p with
  | nil => exact hp
  | cons q rest ih =>
      have ⟨⟨hq, _⟩, hlevel, _⟩ := hrest q (List.mem_cons_self ..)
      refine ih ⟨_, prec_times, hp, hle, hq, hlevel⟩ ?_ fun r hr => hrest r (List.mem_cons_of_mem _ hr)
      rw [level_binary isType prec_times]
      exact Nat.le_refl 12

theorem lexOK_factors {rest : List Expr} (hrest : Factors isType rest) :
    LexOK rules (rest.flatMap fun q => times :: q.toks) := by
  induction rest with
  | nil => trivial
  | cons q rest ih =>
      have ⟨⟨_, hq⟩, _, hlead⟩ := hrest q (List.mem_cons_self ..)
      have htail := ih fun r hr => hrest r (List.mem_cons_of_mem _ hr)
      rw [List.flatMap_cons, List.cons_append]
      refine lexOK_spaced rfl hlead ?_
      cases rest with
      | nil => rwa [List.flatMap_nil, List.append_nil]
      | cons r rest =>
          rw [List.flatMap_cons, List.cons_append] at htail ⊢
          exact lexOK_blank hq nofun htail

/-- **A product of parts is a part of its own.** -/
theorem part_mulAll {p : Expr} (hp : Part isType p) (hle : kTerm ≤ p.level isType) {rest : List Expr}
    (hrest : Factors isType rest) : Part isType (mulAll p rest) := by
  refine ⟨wellFormed_mulAll hp.1 hle hrest, ?_⟩
  have htail := lexOK_factors hrest
  rw [toks_mulAll]
  cases rest with
  | nil => rw [List.flatMap_nil, List.append_nil]; exact hp.2
  | cons q rest =>
      rw [List.flatMap_cons, List.cons_append] at htail ⊢
      exact lexOK_blank hp.2 nofun htail

theorem lead_mulAll (p : Expr) (rest : List Expr) : (mulAll p rest).lead = p.lead := by
  rw [Expr.lead, toks_mulAll, List.head?_append_of_ne_nil _ p.toks_ne_nil, Expr.lead]

/-- The text of a product. -/
theorem nodeText_mulAll (p : Expr) (rest : List Expr) :
    nodeText (mulAll p rest)
      = nodeText p ++ rest.flatMap fun q => [' ', '*'] ++ (q.lead ++ nodeText q) := by
  rw [nodeText, toks_mulAll, setLead_append _ p.toks_ne_nil, Munch.render_append]
  refine congrArg (nodeText p ++ ·) ?_
  induction rest with
  | nil => rfl
  | cons q rest ih =>
      rw [List.flatMap_cons, List.flatMap_cons, Munch.render_append, ih, ← render_toks q]
      rfl

/-- A product begins like its first factor. -/
theorem startsOperand_mulAll {p : Expr} (hp : p.WellFormed isType) (hle : kPostfix ≤ p.level isType)
    (rest : List Expr) : StartsOperand (mulAll p rest) := by
  have ⟨t, ts, htoks, ht⟩ := startsOperand_postfix hp hle
  have ⟨c, cs, hbody, hc⟩ := head_operand ht
  exact ⟨t, _, c, cs, by rw [toks_mulAll, htoks]; rfl, hbody, hc⟩

/-- It ends like its last one. -/
theorem endsOperand_mulAll {p : Expr} (hp : EndsOperand isType p) {rest : List Expr}
    (hrest : ∀ q ∈ rest, EndsOperand isType q) : EndsOperand isType (mulAll p rest) := by
  induction rest generalizing p with
  | nil => exact hp
  | cons q rest ih =>
      refine ih ?_ fun r hr => hrest r (List.mem_cons_of_mem _ hr)
      have ⟨t, hlast, ht⟩ := hrest q (List.mem_cons_self ..)
      refine ⟨t, ?_, ht⟩
      rw [Expr.toks, List.append_cons, List.getLast?_append, hlast]
      rfl

/-! ## §2. Reading a product in a place. -/

/-- The factors group as they should: no operator takes the first factor alone,
but for signs and a `*` on its left. -/
def Groups (isType : Text → Bool) : Ctx → Prop
  | [] => True
  | f :: c =>
      f.need isType ≤ kTerm
        ∨ match f with
          | .unary (.op t) => (t.body = ['-'] ∨ t.body = ['+']) ∧ Groups isType c
          | .right _ op => op.body = ['*']
          | _ => False

/-- Where a term may stand the product stays together. -/
theorem groups_of_need {c : Ctx} (h : c.need isType ≤ kTerm) : Groups isType c := by
  cases c with
  | nil => trivial
  | cons f c => exact Or.inl h

/-- The tree that is read: what binds tighter than `*` takes the first factor. -/
def regroup (isType : Text → Bool) : Ctx → Expr → List Expr → Expr
  | [], p, rest => mulAll p rest
  | f :: c, p, rest =>
      if f.need isType ≤ kTerm then Ctx.plug (f :: c) (mulAll p rest)
      else regroup isType c (f.fill p) rest

/-- What takes the first factor: a sign, or a `*` whose place is looser. -/
inductive Takes (isType : Text → Bool) (c : Ctx) : Frame → Prop where
  | sign (t : Token) (ht : t.body = ['-'] ∨ t.body = ['+']) (hc : Groups isType c) :
      Takes isType c (.unary (.op t))
  | times (x : Expr) (op : Token) (hop : op.body = ['*']) : Takes isType c (.right x op)

theorem takes_of_groups {f : Frame} {c : Ctx} (h : Groups isType (f :: c))
    (hneed : ¬ f.need isType ≤ kTerm) : Takes isType c f := by
  unfold Groups at h
  have hmatch := h.resolve_left hneed
  split at hmatch
  · exact .sign _ hmatch.1 hmatch.2
  · exact .times _ _ hmatch
  · exact hmatch.elim

/-- What takes the first factor has nothing behind it, and binds like a factor. -/
theorem takes_spec {f : Frame} {c : Ctx} (h : Takes isType c f) (hc : Ctx.WellFormed isType (f :: c)) :
    f.after = [] ∧ kTerm ≤ f.level isType ∧ Groups isType c := by
  cases h with
  | sign t ht hgroups => exact ⟨rfl, by show 12 ≤ 14; omega, hgroups⟩
  | times x op hop =>
      have hlevel : (Frame.right x op).level isType = 12 := by
        have hkind : (kind isType op).prec = some (leftAssoc 12) := by rw [kind, hop]; rfl
        rw [Frame.level, hkind]
        rfl
      have hneed := hc.2.1
      rw [hlevel] at hneed
      exact ⟨rfl, Nat.le_of_eq hlevel.symm, groups_of_need hneed⟩

/-- Regrouping changes no token. -/
theorem toks_regroup {c : Ctx} (hc : c.WellFormed isType) (hgroups : Groups isType c) (p : Expr)
    (rest : List Expr) : (regroup isType c p rest).toks = (c.plug (mulAll p rest)).toks := by
  induction c generalizing p with
  | nil => rfl
  | cons f c ih =>
      rw [regroup]
      split
      case isTrue => rfl
      case isFalse hneed =>
        have ⟨hafter, _, hrest⟩ := takes_spec (takes_of_groups hgroups hneed) hc
        rw [ih hc.2.2 hrest, Ctx.plug, Ctx.toks_plug, Ctx.toks_plug, Frame.toks_fill, toks_mulAll,
          toks_mulAll, Frame.toks_fill, hafter, List.append_nil, List.append_nil]
        simp only [List.append_assoc]

/-- The regrouped expression is well formed: it is what the text is read as. -/
theorem wellFormed_regroup {c : Ctx} (hc : c.WellFormed isType) (hgroups : Groups isType c) {p : Expr}
    (hp : p.WellFormed isType) (hle : kTerm ≤ p.level isType) (hneed : c.need isType ≤ p.level isType)
    {rest : List Expr} (hrest : Factors isType rest) : (regroup isType c p rest).WellFormed isType := by
  induction c generalizing p with
  | nil => exact wellFormed_mulAll hp hle hrest
  | cons f c ih =>
      rw [regroup]
      split
      case isTrue hterm =>
        exact (Ctx.wellFormed_plug isType (f :: c) _).mpr
          ⟨hc, wellFormed_mulAll hp hle hrest, Nat.le_trans hterm (level_mulAll hle rest)⟩
      case isFalse hterm =>
        have ⟨_, hlevel, hnext⟩ := takes_spec (takes_of_groups hgroups hterm) hc
        have hfill := (Frame.wellFormed_fill isType f p).mpr ⟨hc.1, hp, hneed⟩
        refine ih hc.2.2 hnext hfill ?_ ?_
        · rwa [Frame.level_fill]
        · rw [Frame.level_fill]
          exact hc.2.1

/-- **Reading a product in the place of a node.** -/
theorem reparse_product {s : Text} {c : Ctx} {node : Expr} (h : parseText isType s = some (c.plug node))
    (hgroups : Groups isType c) {p : Expr} (hp : Part isType p) (hle : kPostfix ≤ p.level isType)
    {rest : List Expr} (hrest : Factors isType rest) (hlead : p.lead = node.lead)
    (hends : EndsOperand isType (mulAll p rest)) :
    parseText isType (replaceNode s c node (nodeText (mulAll p rest)))
      = some (regroup isType c p rest) := by
  have ⟨hwf, hok, trail, htrail, hs⟩ := parseText_iff.mp h
  have ⟨hc, _⟩ := (Ctx.wellFormed_plug isType c node).mp hwf
  have ⟨hbefore, _, hafter, _⟩ := lexOK_plug.mp hok
  have hpostfix : kPostfix = 15 := rfl
  have hterm : kTerm = 12 := rfl
  have hpart := part_mulAll hp (by omega) hrest
  have hstarts := startsOperand_mulAll hp.1 hle rest
  rw [hs, replaceNode_plug c node _ ((lead_mulAll p rest).trans hlead), parseText_iff]
  refine ⟨?_, ?_, trail, htrail, by rw [toks_regroup hc hgroups]⟩
  · exact wellFormed_regroup hc hgroups hp.1 (by omega) (Nat.le_trans (need_le_kPostfix hc) hle) hrest
  · rw [toks_regroup hc hgroups, lexOK_plug]
    exact ⟨hbefore, hpart.2, hafter, seam_before hc (blank_lead hpart.2) hstarts,
      seam_after hc hafter hends⟩

/-! ## §3. The value of a product in a place. -/

variable {V : Type} [CommRing V] {A : Algebra V}

/-- The value of a product of factors is the product of the values. -/
theorem value_mulAll (hmul : ∀ x y, A.binary ['*'] x y = x * y) (p : Expr) (rest : List Expr) :
    (mulAll p rest).value A = p.value A * (rest.map (Expr.value A)).prod := by
  induction rest generalizing p with
  | nil => rw [mulAll, List.map_nil, List.prod_nil, mul_one]
  | cons q rest ih =>
      have hbinary : (Expr.binary p times q).value A = p.value A * q.value A := by
        rw [value_binary, ← hmul]
        rfl
      rw [mulAll, ih, hbinary, List.map_cons, List.prod_cons, mul_assoc]

/-- **The value is that of the product in parentheses.** -/
theorem value_regroup (hmul : ∀ x y, A.binary ['*'] x y = x * y) (hneg : ∀ x, A.unary ['-'] x = -x)
    (hplus : ∀ x, A.unary ['+'] x = x) {c : Ctx} (hc : c.WellFormed isType)
    (hgroups : Groups isType c) {p e : Expr} (hle : kTerm ≤ p.level isType) {rest : List Expr}
    (hvalue : e.value A = p.value A * (rest.map (Expr.value A)).prod) (hargs : arguments e = [e]) :
    (regroup isType c p rest).value A = (c.plug e).value A := by
  have hterm : kTerm = 12 := rfl
  have hpostfix : kPostfix = 15 := rfl
  induction c generalizing p e with
  | nil => rw [regroup, value_mulAll hmul, Ctx.plug, hvalue]
  | cons f c ih =>
      rw [regroup]
      split
      case isTrue hneed =>
        have hproduct : arguments (mulAll p rest) = [mulAll p rest] :=
          @arguments_of_level isType _ (by have := level_mulAll hle rest; omega)
        have heq : (mulAll p rest).value A = e.value A := by rw [value_mulAll hmul, hvalue]
        refine @value_plug_congr _ isType _ _ _ ⟨heq, ?_⟩ _ ?_
        · rw [meaning_args, meaning_args, hproduct, hargs, List.map_singleton, List.map_singleton, heq]
        · show f.need isType < kPostfix
          omega
      case isFalse hneed =>
        have htakes := takes_of_groups hgroups hneed
        obtain ⟨_, hlevel, hrest⟩ := takes_spec htakes hc
        rw [Ctx.plug]
        refine ih hc.2.2 hrest ?_ ?_ ?_
        · rwa [Frame.level_fill]
        · cases htakes with
          | sign t ht _ =>
              have hfill : ∀ x : Expr, ((Frame.unary (.op t)).fill x).value A = A.unary t.body (x.value A) :=
                fun _ => rfl
              rw [hfill, hfill, hvalue]
              rcases ht with ht | ht
              · rw [ht, hneg, hneg, neg_mul]
              · rw [ht, hplus, hplus]
          | times x op hop =>
              rw [Frame.fill, Frame.fill, value_binary, value_binary, hop, hmul, hmul, hvalue, mul_assoc]
        · cases htakes with
          | sign => rfl
          | times x op hop =>
              rw [Frame.fill, arguments, if_neg]
              rw [hop]
              decide

end ShaderClippy.Hlsl
