/-
  ShaderClippy.Hlsl.Abutting

  **WRITING AGAINST AN EXPRESSION.**

  A member access that is written behind the text of an expression belongs to
  the last operand of it, and a minus in front to the first one. A number
  takes the point and the letter into itself, and a minus makes an update of
  the minus it meets. So the text can always be read
  (`part_memberAtEnd`, `part_minusAtStart`), whatever the expression is, and
  nothing of what the expression does is lost.
-/
import ShaderClippy.Hlsl.Loose
import ShaderClippy.Hlsl.Effects

namespace ShaderClippy.Hlsl

open Munch (LexOK Seam render)

variable {isType : Text → Bool}

/-! ## §1. Another node at the end of its parent. -/

/-- A node with nothing behind its operand, and another operand that begins with
the same text. -/
theorem part_refillLast {f : Frame} (hafter : f.after = []) {e e' : Expr} {s : Text}
    (h : Part isType (f.fill e)) (he' : Part isType e') (hneed : f.need isType ≤ e'.level isType)
    (htext : render e'.toks = render e.toks ++ s) : Part isType (f.fill e') := by
  have ⟨hwf, hok⟩ := h
  have ⟨hf, _, _⟩ := (Frame.wellFormed_fill isType f e).mp hwf
  rw [Frame.toks_fill, hafter, List.append_nil, Munch.lexOK_append] at hok
  have ⟨hbefore, hetoks, hseam⟩ := hok
  refine ⟨(Frame.wellFormed_fill isType f e').mpr ⟨hf, he'.1, hneed⟩, ?_⟩
  rw [Frame.toks_fill, hafter, List.append_nil, Munch.lexOK_append]
  refine ⟨hbefore, he'.2, fun t ht => ?_⟩
  rw [htext, Munch.stops_append (Munch.render_ne_nil hetoks e.toks_ne_nil)]
  exact hseam t ht

/-- A node with nothing in front of its operand, and another operand that ends
with the same token. -/
theorem part_refillFirst {f : Frame} (hbefore : f.before = []) {e e' : Expr}
    (h : Part isType (f.fill e)) (he' : Part isType e') (hneed : f.need isType ≤ e'.level isType)
    (hlast : e'.toks.getLast? = e.toks.getLast?) : Part isType (f.fill e') := by
  have ⟨hwf, hok⟩ := h
  have ⟨hf, _, _⟩ := (Frame.wellFormed_fill isType f e).mp hwf
  rw [Frame.toks_fill, hbefore, List.nil_append, Munch.lexOK_append] at hok
  have ⟨_, hafter, hseam⟩ := hok
  refine ⟨(Frame.wellFormed_fill isType f e').mpr ⟨hf, he'.1, hneed⟩, ?_⟩
  rw [Frame.toks_fill, hbefore, List.nil_append, Munch.lexOK_append]
  refine ⟨he'.2, hafter, fun t ht => hseam t ?_⟩
  rw [← hlast, ht]

/-! ## §2. A member access behind an expression. -/

/-- What is read when `.c` is written behind an expression. -/
def Expr.memberAtEnd (isType : Text → Bool) (c : Char) : Expr → Expr
  | .atom t =>
      if kind isType t = .number then .atom ⟨t.lead, t.body ++ ['.', c]⟩ else member (.atom t) c
  | .unary p e => .unary p (e.memberAtEnd isType c)
  | .binary x op y => .binary x op (y.memberAtEnd isType c)
  | .cond d q a k b => .cond d q a k (b.memberAtEnd isType c)
  | e => member e c

theorem render_member (e : Expr) (c : Char) : render (member e c).toks = render e.toks ++ ['.', c] := by
  rw [member, Expr.toks, Munch.render_append]
  rfl

/-- The text is as it was written. -/
theorem render_memberAtEnd (e : Expr) (c : Char) :
    render (e.memberAtEnd isType c).toks = render e.toks ++ ['.', c] := by
  induction e with
  | atom t =>
      rw [Expr.memberAtEnd]
      split
      · simp [Expr.toks, Munch.Lexeme.text]
      · exact render_member _ c
  | unary p e ih => simp [Expr.memberAtEnd, Expr.toks, ih]
  | binary x op y _ ih => simp [Expr.memberAtEnd, Expr.toks, ih]
  | cond d q a k b _ _ ih => simp [Expr.memberAtEnd, Expr.toks, ih]
  | _ => exact render_member _ c

/-- It binds as tightly as the expression did. -/
theorem le_level_memberAtEnd {e : Expr} {n : Nat} (hn : n ≤ kPostfix) (h : n ≤ e.level isType)
    (c : Char) : n ≤ (e.memberAtEnd isType c).level isType := by
  cases e with
  | atom t =>
      rw [Expr.memberAtEnd]
      split
      · exact h
      · exact hn
  | unary => exact h
  | binary => exact h
  | cond => exact h
  | _ => exact hn

theorem isNumberText_cons {d : Char} (hd : d ≠ '.') (cs : Text) : isNumberText (d :: cs) = d.isDigit := by
  unfold isNumberText
  split
  case h_1 heq =>
    cases heq
    exact absurd rfl hd
  case h_2 heq =>
    cases heq
    rfl
  case h_3 heq => cases heq

/-- A number may go on. -/
theorem isNumberText_append {s : Text} (h : isNumberText s = true) (u : Text) :
    isNumberText (s ++ u) = true := by
  match s with
  | [] => cases h
  | [d] =>
      have hd : d ≠ '.' := by
        rintro rfl
        cases h
      rw [isNumberText_cons hd] at h
      rw [List.cons_append, isNumberText_cons hd, h]
  | d :: e :: rest =>
      by_cases hd : d = '.'
      · subst hd
        exact h
      · rw [isNumberText_cons hd] at h
        rw [List.cons_append, isNumberText_cons hd, h]

theorem grown_concat {cur s : Text} {x : Char} (h : Munch.Grown rules cur s)
    (hx : grows (cur ++ s) x = true) : Munch.Grown rules cur (s ++ [x]) := by
  induction s generalizing cur with
  | nil =>
      rw [List.append_nil] at hx
      exact ⟨hx, trivial⟩
  | cons y ys ih =>
      have happ : cur ++ y :: ys = cur ++ [y] ++ ys := by simp
      rw [happ] at hx
      exact ⟨h.1, ih h.2 hx⟩

/-- A number that ends with a point and a letter. -/
theorem number_member {t : Token} (ht : kind isType t = .number) {c : Char} (hc : c ∈ kSwizzle) :
    kindOf isType (t.body ++ ['.', c]) = .number
      ∧ (Munch.IsToken rules t.body → Munch.IsToken rules (t.body ++ ['.', c])) := by
  have hswizzle : (kSwizzle.all fun c => isWordChar c && symbols.all fun s => s.1.getLast? != some c)
      = true := rfl
  have hs := List.all_eq_true.mp hswizzle c hc
  rw [Bool.and_eq_true] at hs
  have ⟨hword, hsymbols⟩ := hs
  have ⟨d, cs, hbody, hstart, hnumber⟩ := kindOf_number ht
  have hlonger := isNumberText_append hnumber
  constructor
  -- no symbol ends in a letter of a swizzle
  · have hlookup : symbols.lookup (t.body ++ ['.', c]) = none := by
      rw [List.lookup_eq_none_iff]
      intro s hmem
      have hlast := List.all_eq_true.mp hsymbols s hmem
      have happ : t.body ++ ['.', c] = (t.body ++ ['.']) ++ [c] := by simp
      rw [bne_iff_ne]
      intro heq
      rw [← heq, happ, List.getLast?_concat, bne_self_eq_false] at hlast
      cases hlast
    rw [kindOf, hlookup, Option.getD_none, wordKind, hlonger]
    simp [hbody, hstart]
  · intro htoken
    -- a number takes the point and the letter with it
    have hgrows : ∀ u : Text, ∀ x, isWordChar x = true ∨ x = '.' → grows (t.body ++ u) x = true := by
      intro u x hx
      have hn := hlonger u
      rw [hbody, List.cons_append] at hn ⊢
      rw [grows, if_neg (by simp [hstart]), if_pos hn]
      rcases hx with hx | rfl
      · rw [hx]
        rfl
      · simp
    have hpoint : Munch.Grown rules [] (t.body ++ ['.']) := by
      have h := hgrows [] '.' (Or.inr rfl)
      rw [List.append_nil] at h
      exact grown_concat htoken.2 h
    have hletter := grown_concat hpoint (hgrows ['.'] c (Or.inl hword))
    rw [List.append_assoc] at hletter
    exact ⟨by simp, hletter⟩

/-- A node keeps its own blanks. -/
theorem withLead_lead (e : Expr) : e.withLead e.lead = e := by
  have hhead : ∀ {x : Expr} {us : List Token}, (x.toks ++ us).head? = x.toks.head? :=
    fun {x us} => List.head?_append_of_ne_nil _ x.toks_ne_nil
  have hlead : ∀ {x f : Expr} {us : List Token}, f.toks = x.toks ++ us → f.lead = x.lead := by
    intro x f us htoks
    rw [Expr.lead, htoks, hhead, Expr.lead]
  induction e with
  | unary p e => cases p <;> rfl
  | binary x op y ih _ => rw [hlead (x := x) rfl, Expr.withLead, ih]
  | cond c q a k b ih _ _ => rw [hlead (x := c) rfl, Expr.withLead, ih]
  | suffix e s ih => rw [hlead (x := e) rfl, Expr.withLead, ih]
  | apply e l i r ih _ => rw [hlead (x := e) rfl, Expr.withLead, ih]
  | _ => rfl

/-- A postfix operand that is no number. -/
theorem part_member {e : Expr} (h : Part isType e) (hle : kPostfix ≤ e.level isType)
    (hno : numberOf isType e = none) {c : Char} (hc : c ∈ kSwizzle) : Part isType (member e c) := by
  have hpart := (part_member_iff h (blank_lead h.2) hc).mpr ⟨hle, hno⟩
  rwa [withLead_lead] at hpart

/-- **A member access can be written behind every expression.** -/
theorem part_memberAtEnd {e : Expr} (h : Part isType e) {c : Char} (hc : c ∈ kSwizzle) :
    Part isType (e.memberAtEnd isType c) := by
  induction e with
  | atom t =>
      rw [Expr.memberAtEnd]
      split
      case isTrue hnumber =>
        obtain ⟨hkind, htoken⟩ := number_member hnumber hc
        obtain ⟨hlead, hbody, _, _⟩ := h.2
        exact ⟨Or.inr hkind, hlead, htoken hbody, Munch.stops_nil _, trivial⟩
      case isFalse hnumber =>
        exact part_member h (Nat.le_succ 15) (by rw [numberOf, if_neg hnumber]) hc
  | unary p e ih =>
      refine part_refillLast (f := .unary p) rfl h (ih (Part.fill (f := .unary p) h)) ?_
        (render_memberAtEnd e c)
      exact le_level_memberAtEnd (Nat.le_succ 14) h.1.2.2 c
  | binary x op y _ ih =>
      obtain ⟨p, hp, _, _, _, hle⟩ := h.1
      refine part_refillLast (f := .right x op) rfl h (ih (Part.fill (f := .right x op) h)) ?_
        (render_memberAtEnd y c)
      rw [Frame.need, hp]
      exact le_level_memberAtEnd (Nat.le_trans (prec_right_le hp) (Nat.le_succ 14)) hle c
  | cond d q a k b _ _ ih =>
      refine part_refillLast (f := .alternative d q a k) rfl h
        (ih (Part.fill (f := .alternative d q a k) h)) ?_ (render_memberAtEnd b c)
      exact le_level_memberAtEnd (by show 1 ≤ 15; omega) h.1.2.2.2.2.2.2 c
  | paren => exact part_member h (Nat.le_succ 15) rfl hc
  | construct => exact part_member h (Nat.le_succ 15) rfl hc
  | suffix => exact part_member h (Nat.le_refl _) rfl hc
  | apply => exact part_member h (Nat.le_refl _) rfl hc

/-- It has the effects of the expression. -/
theorem effects_memberAtEnd {F : Functions} (e : Expr) (c : Char) :
    (e.memberAtEnd isType c).effects F isType = e.effects F isType := by
  induction e with
  | atom t =>
      rw [Expr.memberAtEnd]
      split <;> rfl
  | unary p e ih => cases p <;> simp [Expr.memberAtEnd, Expr.effects, ih]
  | binary x op y _ ih => simp [Expr.memberAtEnd, Expr.effects, ih]
  | cond d q a k b _ _ ih => simp [Expr.memberAtEnd, Expr.effects, ih]
  | _ => rfl

/-! ## §3. A minus in front of an expression. -/

def minus (lead : Text) : Prefix := .op ⟨lead, ['-']⟩

def decrement (lead : Text) : Prefix := .op ⟨lead, ['-', '-']⟩

/-- What is read when a minus is written in front of an expression. -/
def Expr.minusAtStart (lead : Text) : Expr → Expr
  | .unary (.op t) e =>
      -- the first two of a row of minus signs are one token
      if t.lead = [] ∧ t.body = ['-'] then .unary (decrement lead) e
      else if t.lead = [] ∧ t.body = ['-', '-'] then .unary (decrement lead) (e.minusAtStart [])
      else .unary (minus lead) (.unary (.op t) e)
  | .binary x op y => .binary (x.minusAtStart lead) op y
  | .cond c q a k b => .cond (c.minusAtStart lead) q a k b
  | e => .unary (minus lead) e

theorem render_minus (lead : Text) (e : Expr) :
    render (Expr.unary (minus lead) e).toks = lead ++ '-' :: render e.toks := by
  simp [Expr.toks, minus, Prefix.toks, Munch.Lexeme.text]

theorem render_decrement (lead : Text) (e : Expr) :
    render (Expr.unary (decrement lead) e).toks = lead ++ '-' :: '-' :: render e.toks := by
  simp [Expr.toks, decrement, Prefix.toks, Munch.Lexeme.text]

/-- The text is as it was written. -/
theorem render_minusAtStart (lead : Text) (e : Expr) :
    render (e.minusAtStart lead).toks = lead ++ '-' :: render e.toks := by
  induction e generalizing lead with
  | unary p e ih =>
      cases p with
      | op t =>
          have htext : ∀ body, t.lead = [] ∧ t.body = body →
              render (Expr.unary (.op t) e).toks = body ++ render e.toks := by
            rintro body ⟨hlead, rfl⟩
            simp [Expr.toks, Prefix.toks, Munch.Lexeme.text, hlead]
          rw [Expr.minusAtStart]
          split
          case isTrue h => rw [render_decrement, htext _ h, List.singleton_append]
          case isFalse =>
            split
            case isTrue h =>
              rw [render_decrement, ih, htext _ h]
              rfl
            case isFalse => exact render_minus lead _
      | cast l type r => exact render_minus lead _
  | binary x op y ih _ => simp [Expr.minusAtStart, Expr.toks, ih]
  | cond c q a k b ih _ _ => simp [Expr.minusAtStart, Expr.toks, ih]
  | _ => exact render_minus lead _

theorem getLast_append_toks (ts : List Token) (e : Expr) :
    (ts ++ e.toks).getLast? = e.toks.getLast? := List.getLast?_append_of_ne_nil ts e.toks_ne_nil

theorem getLast_unary (p : Prefix) (e : Expr) :
    (Expr.unary p e).toks.getLast? = e.toks.getLast? := getLast_append_toks p.toks e

/-- It ends as the expression did. -/
theorem getLast_minusAtStart (lead : Text) (e : Expr) :
    (e.minusAtStart lead).toks.getLast? = e.toks.getLast? := by
  induction e generalizing lead with
  | unary p e ih =>
      cases p with
      | op t =>
          rw [Expr.minusAtStart, getLast_unary (.op t)]
          split
          · exact getLast_unary _ e
          · split
            · rw [getLast_unary, ih]
            · rw [getLast_unary, getLast_unary]
      | cast l type r => exact getLast_unary _ _
  | binary x op y =>
      have happ : ∀ x : Expr, (Expr.binary x op y).toks = (x.toks ++ [op]) ++ y.toks := by simp [Expr.toks]
      rw [Expr.minusAtStart, happ, happ, getLast_append_toks, getLast_append_toks]
  | cond c q a k b =>
      have happ : ∀ c : Expr, (Expr.cond c q a k b).toks = (c.toks ++ q :: (a.toks ++ [k])) ++ b.toks := by
        simp [Expr.toks]
      rw [Expr.minusAtStart, happ, happ, getLast_append_toks, getLast_append_toks]
  | _ => exact getLast_unary _ _

/-- It binds as tightly as the expression did. -/
theorem le_level_minusAtStart {e : Expr} {n : Nat} (hn : n ≤ kUnary) (h : n ≤ e.level isType)
    (lead : Text) : n ≤ (e.minusAtStart lead).level isType := by
  cases e with
  | unary p e =>
      cases p with
      | op t =>
          rw [Expr.minusAtStart]
          split
          · exact hn
          · split
            · exact hn
            · exact hn
      | cast l type r => exact hn
  | binary => exact h
  | cond => exact h
  | _ => exact hn

/-- A `-` takes no character outside `kSecond`. -/
theorem grows_minus {c : Char} (hc : c ∉ kSecond) : grows ['-'] c = false :=
  grows_symbol (k := .sign (leftAssoc 11)) (by decide) nofun hc

theorem grows_decrement (c : Char) : grows ['-', '-'] c = false := by
  have hall : (punctuators.all fun p => p.dropLast != ['-', '-']) = true := rfl
  have hpunct : punctuators.contains (['-', '-'] ++ [c]) = false := by
    rw [Bool.eq_false_iff]
    intro hp
    have hlast := List.all_eq_true.mp hall _ (List.contains_iff_mem.mp hp)
    rw [List.dropLast_concat, bne_self_eq_false] at hlast
    cases hlast
  have hgrows : grows ['-', '-'] c = (false || punctuators.contains (['-', '-'] ++ [c])) := rfl
  rw [hgrows, hpunct, Bool.false_or]

/-- A minus in front of an operand that it does not run into. -/
theorem part_minus {lead : Text} (hlead : Blank lead) {e : Expr} (h : Part isType e)
    (hle : kUnary ≤ e.level isType) (hstop : Munch.Stops rules ['-'] (render e.toks)) :
    Part isType (.unary (minus lead) e) :=
  ⟨⟨rfl, h.1, hle⟩, hlead, ⟨nofun, by decide, trivial⟩, hstop, h.2⟩

/-- `--` in front of a unary operand is read as its decrement. -/
theorem part_decrement {lead : Text} (hlead : Blank lead) {e : Expr} (h : Part isType e)
    (hle : kUnary ≤ e.level isType) : Part isType (.unary (decrement lead) e) :=
  ⟨⟨rfl, h.1, hle⟩, hlead, ⟨nofun, by decide, by decide, trivial⟩, fun c _ => grows_decrement c, h.2⟩

/-- A minus does not run into what begins like an operand. -/
theorem stops_minus {e : Expr} (h : LexOK rules e.toks) (he : StartsOperand e) :
    Munch.Stops rules ['-'] (render e.toks) := by
  have ⟨t, ts, c, cs, htoks, hbody, hc⟩ := he
  rw [htoks] at h ⊢
  exact stops_token h.1 hbody (grows_minus hc)

/-- A minus runs into no prefix but another minus. -/
theorem stops_minus_unary {t : Token} (ht : (kind isType t).isUnary = true) {us : List Token}
    (hlead : Blank t.lead) (hone : ¬ (t.lead = [] ∧ t.body = ['-']))
    (htwo : ¬ (t.lead = [] ∧ t.body = ['-', '-'])) : Munch.Stops rules ['-'] (render (t :: us)) := by
  by_cases hnil : t.lead = []
  · have hsymbol : (kind isType t).isSymbol = true := (opens_unary ht).1
    have hmem := kindOf_symbol hsymbol
    have ⟨c, cs, hbody, _⟩ := symbol_head hmem
    have hall : (symbols.all fun s => !s.2.isUnary || s.1 == ['-'] || s.1 == ['-', '-']
        || s.1.head?.all fun c => !grows ['-'] c) = true := rfl
    have hs := List.all_eq_true.mp hall _ hmem
    have hone' : (t.body == ['-']) = false := beq_eq_false_iff_ne.mpr fun h => hone ⟨hnil, h⟩
    have htwo' : (t.body == ['-', '-']) = false := beq_eq_false_iff_ne.mpr fun h => htwo ⟨hnil, h⟩
    rw [ht, hone', htwo', hbody] at hs
    exact stops_token hlead hbody (by simpa using hs)
  · rw [Munch.render_cons, Munch.Lexeme.text, List.append_assoc]
    exact Munch.stops_blank hnil hlead

/-- A minus in front of a postfix operand is read as its negation. -/
theorem part_minus_postfix {lead : Text} (hlead : Blank lead) {e : Expr} (h : Part isType e)
    (hle : kPostfix ≤ e.level isType) : Part isType (.unary (minus lead) e) := by
  have hstarts := startsOperand h.1 hle e.lead
  rw [withLead_lead] at hstarts
  exact part_minus hlead h (Nat.le_trans (Nat.le_succ 14) hle) (stops_minus h.2 hstarts)

/-- No operator asks for more on its left than a prefix does. -/
theorem prec_left_le {op : Token} {p : Prec} (h : (kind isType op).prec = some p) :
    p.left ≤ kUnary := by
  rcases prec_cases h with rfl | rfl | ⟨n, _, hn, rfl⟩
  · decide
  · decide
  · show n ≤ 14
    omega

/-- **A minus can be written in front of every expression.** -/
theorem part_minusAtStart {e : Expr} (h : Part isType e) {lead : Text} (hlead : Blank lead) :
    Part isType (e.minusAtStart lead) := by
  induction e generalizing lead with
  | unary p e ih =>
      have he : Part isType e := Part.fill (f := .unary p) h
      have hle : kUnary ≤ e.level isType := h.1.2.2
      cases p with
      | op t =>
          rw [Expr.minusAtStart]
          split
          -- the operand begins with `-`: both are read as `--`
          case isTrue => exact part_decrement hlead he hle
          case isFalse hone =>
            split
            case isTrue =>
              have hinner := ih he blank_nil
              exact part_decrement hlead hinner (le_level_minusAtStart (Nat.le_refl _) hle [])
            case isFalse htwo =>
              exact part_minus hlead h (Nat.le_refl _) (stops_minus_unary h.1.1 h.2.1 hone htwo)
      | cast l type r =>
          have hl : kind isType l = .openParen := h.1.1.1
          have ⟨c, cs, hbody, hc⟩ := head_operand (Or.inr (Or.inr hl))
          exact part_minus hlead h (Nat.le_refl _) (stops_minus h.2 ⟨l, _, c, cs, rfl, hbody, hc⟩)
  -- the minus goes to the first operand
  | binary x op y ih _ =>
      have ⟨p, hp, _, hle, _⟩ := h.1
      refine part_refillFirst (f := .left op y) rfl h
        (ih (Part.fill (f := .left op y) h) hlead) ?_ (getLast_minusAtStart lead x)
      rw [Frame.need, hp]
      exact le_level_minusAtStart (prec_left_le hp) hle lead
  | cond c q a k b ih _ _ =>
      refine part_refillFirst (f := .test q a k b) rfl h
        (ih (Part.fill (f := .test q a k b) h) hlead) ?_ (getLast_minusAtStart lead c)
      exact le_level_minusAtStart (by show 3 ≤ 14; omega) h.1.2.2.2.1 lead
  | atom => exact part_minus_postfix hlead h (Nat.le_succ 15)
  | paren => exact part_minus_postfix hlead h (Nat.le_succ 15)
  | construct => exact part_minus_postfix hlead h (Nat.le_succ 15)
  | suffix => exact part_minus_postfix hlead h (Nat.le_refl _)
  | apply => exact part_minus_postfix hlead h (Nat.le_refl _)

theorem effects_minus {F : Functions} (lead : Text) (e : Expr) :
    (Expr.unary (minus lead) e).effects F isType = e.effects F isType := rfl

/-- It has the effects of the expression, and may have more. -/
theorem effects_minusAtStart {F : Functions} (lead : Text) (e : Expr) :
    (e.effects F isType).Sublist ((e.minusAtStart lead).effects F isType) := by
  induction e generalizing lead with
  | unary p e ih =>
      cases p with
      | op t =>
          rw [Expr.minusAtStart]
          split
          case isTrue h =>
            have hnone : unaryEffect isType t = [] := by
              rw [unaryEffect, kind, h.2]
              rfl
            rw [Expr.effects, hnone, List.nil_append]
            exact List.sublist_append_right _ _
          case isFalse =>
            split
            case isTrue h =>
              have hsame : unaryEffect isType t = unaryEffect isType ⟨lead, ['-', '-']⟩ := by
                rw [unaryEffect, unaryEffect, kind, kind, h.2]
              rw [Expr.effects, hsame]
              exact (List.Sublist.refl _).append (ih [])
            case isFalse => rw [effects_minus]
      | cast l type r => exact List.Sublist.refl _
  | binary x op y ih _ =>
      exact ((ih lead).append (List.Sublist.refl _)).append (List.Sublist.refl _)
  | cond c q a k b ih _ _ =>
      exact ((ih lead).append (List.Sublist.refl _)).append (List.Sublist.refl _)
  | _ => exact List.Sublist.refl _

end ShaderClippy.Hlsl
