/-
  ShaderClippy.Hlsl.Seams

  **WHERE A NEW NODE MEETS ITS CONTEXT.**

  What is in front of a place for an expression is a symbol and no point; what
  is behind one is a symbol. So a node that begins like the operand of a member
  access, and ends with a word or a bracket, runs into nothing
  (`seam_before`, `seam_after`).
-/
import ShaderClippy.Hlsl.Call

namespace ShaderClippy.Hlsl

open Munch (LexOK Seam render)

variable {isType : Text → Bool}

/-! ## §1. Two tokens. -/

theorem symbol_of_kind {t : Token} {k : Kind} (h : kind isType t = k) (hk : k.isSymbol = true) :
    (t.body, k) ∈ symbols := by
  subst h
  exact kindOf_symbol hk

def Blank (s : Text) : Prop := ∀ c ∈ s, isSpace c = true

theorem blank_nil : Blank [] := nofun

theorem blank_space : Blank [' '] := by
  intro c hc
  cases List.mem_singleton.mp hc
  rfl

/-- A token ends in front of another one. -/
theorem stops_token {body : Text} {u : Token} {us : List Token} (hlead : Blank u.lead) {c : Char}
    {cs : Text} (hbody : u.body = c :: cs) (h : grows body c = false) :
    Munch.Stops rules body (render (u :: us)) := by
  have hrender : render (u :: us) = u.lead ++ (u.body ++ render us) := by
    rw [Munch.render_cons, Munch.Lexeme.text, List.append_assoc]
  rw [hrender]
  by_cases hnil : u.lead = []
  · rw [hnil, List.nil_append, hbody, List.cons_append]
    exact Munch.stops_cons.mpr h
  · exact Munch.stops_blank hnil hlead

theorem lexOK_setLead {lead : Text} (hlead : Blank lead) {ts : List Token} (h : LexOK rules ts) :
    LexOK rules (setLead lead ts) := by
  cases ts with
  | nil => trivial
  | cons t ts => exact ⟨hlead, h.2⟩

theorem blank_lead {e : Expr} (h : LexOK rules e.toks) : Blank e.lead := by
  rw [Expr.lead]
  cases htoks : e.toks with
  | nil => exact blank_nil
  | cons t ts =>
      rw [htoks] at h
      exact h.1

/-- Two lists of tokens with a blank between them. -/
theorem lexOK_blank {ts us : List Token} {u : Token} (hts : LexOK rules ts) (hne : u.lead ≠ [])
    (hus : LexOK rules (u :: us)) : LexOK rules (ts ++ u :: us) := by
  refine Munch.lexOK_append.mpr ⟨hts, hus, ?_⟩
  intro t _
  rw [Munch.render_cons, Munch.Lexeme.text, List.append_assoc]
  exact Munch.stops_blank hne hus.1

/-- A symbol of one character with a blank on either side. -/
theorem lexOK_spaced {d : Char} (hd : grows [] d = true) {e : Expr} (hlead : e.lead ≠ [])
    {us : List Token} (hus : LexOK rules (e.toks ++ us)) :
    LexOK rules (⟨[' '], [d]⟩ :: (e.toks ++ us)) := by
  refine ⟨blank_space, ⟨nofun, hd, trivial⟩, ?_, hus⟩
  have hblank := blank_lead (Munch.lexOK_append.mp hus).1
  rw [Munch.render_append, render_toks, List.append_assoc]
  exact Munch.stops_blank hlead hblank

/-- A token of its own may stand in front of anything. -/
theorem lexOK_solo {d : Char} (hd : d ∈ kSolo) {ts : List Token} (h : LexOK rules ts) :
    LexOK rules ((⟨[], [d]⟩ : Token) :: ts) := by
  have htoken : grows [] d = true := by
    have hall : (kSolo.all fun d => grows [] d) = true := rfl
    exact List.all_eq_true.mp hall d hd
  refine ⟨nofun, ⟨nofun, htoken, trivial⟩, ?_, h⟩
  intro c _
  exact grows_solo hd c

/-- A seam does not depend on the blanks in front of the left side. -/
theorem seam_setLead (lead : Text) (ts us : List Token) :
    Seam rules (setLead lead ts) us ↔ Seam rules ts us := by
  cases ts with
  | nil => rfl
  | cons t ts =>
      cases ts with
      | nil =>
          simp only [Seam, setLead, List.getLast?_singleton, Option.some.injEq, forall_eq']
      | cons t' ts =>
          have hlast : ∀ x : Token, Seam rules (x :: t' :: ts) us ↔ Seam rules (t' :: ts) us := fun x =>
            @Munch.seam_append_left _ rules [x] _ _ (by simp)
          rw [setLead, hlast, hlast]

/-! ## §2. The neighbours of a place for an expression. -/

/-- In front of an expression: a symbol, and no point. -/
def Opens (isType : Text → Bool) (t : Token) : Prop :=
  (kind isType t).isSymbol = true ∧ kind isType t ≠ .dot

theorem opens_unary {t : Token} (h : (kind isType t).isUnary = true) : Opens isType t := by
  rw [Opens]
  cases hk : kind isType t <;> simp [hk, Kind.isUnary, Kind.isSymbol] at h ⊢

theorem opens_operator {t : Token} {p : Prec} (h : (kind isType t).prec = some p) :
    Opens isType t := by
  rw [Opens]
  cases hk : kind isType t <;> simp [hk, Kind.prec, Kind.isSymbol] at h ⊢

theorem opens_brackets {l r : Token} (h : Brackets isType l r) : Opens isType l := by
  rw [Opens]
  rcases h with ⟨hl, _⟩ | ⟨hl, _⟩ <;> rw [hl] <;> exact ⟨rfl, nofun⟩

/-- What stands directly in front of a hole opens an operand. -/
theorem opens_frame {f : Frame} (hf : f.WellFormed isType) {t : Token}
    (ht : f.before.getLast? = some t) : Opens isType t := by
  have hkind : ∀ {k : Kind}, kind isType t = k → k.isSymbol = true → k ≠ .dot → Opens isType t := by
    rintro k rfl hsymbol hdot
    exact ⟨hsymbol, hdot⟩
  cases f with
  | paren l r =>
      cases ht
      exact hkind hf.1 rfl (by rintro ⟨⟩)
  | construct type l r =>
      cases ht
      exact hkind hf.2.1 rfl (by rintro ⟨⟩)
  | unary p =>
      cases p with
      | op u =>
          cases ht
          exact opens_unary hf
      | cast l type r =>
          cases ht
          exact hkind hf.2.2 rfl (by rintro ⟨⟩)
  | right x op =>
      rw [Frame.before, List.getLast?_concat] at ht
      cases ht
      obtain ⟨p, hp, _⟩ := hf
      exact opens_operator hp
  | consequence c q k b =>
      rw [Frame.before, List.getLast?_concat] at ht
      cases ht
      exact hkind hf.1 rfl (by rintro ⟨⟩)
  | alternative c q a k =>
      have hlist : c.toks ++ q :: (a.toks ++ [k]) = (c.toks ++ q :: a.toks) ++ [k] := by simp
      rw [Frame.before, hlist, List.getLast?_concat] at ht
      cases ht
      exact hkind hf.2.1 rfl (by rintro ⟨⟩)
  | argument f l r =>
      rw [Frame.before, List.getLast?_concat] at ht
      cases ht
      exact opens_brackets hf.2.2
  | left => cases ht
  | test => cases ht
  | suffix => cases ht
  | callee => cases ht

theorem opens_before {c : Ctx} (hc : c.WellFormed isType) {t : Token}
    (ht : c.before.getLast? = some t) : Opens isType t := by
  induction c with
  | nil => cases ht
  | cons f c ih =>
      rw [Ctx.before] at ht
      by_cases hnil : f.before = []
      · rw [hnil, List.append_nil] at ht
        exact ih hc.2.2 ht
      · rw [List.getLast?_append, List.getLast?_eq_some_getLast hnil, Option.some_or] at ht
        exact opens_frame hc.1 (by rw [List.getLast?_eq_some_getLast hnil, ht])

/-- What stands directly behind a hole is a symbol. -/
theorem symbol_frame {f : Frame} (hf : f.WellFormed isType) {t : Token}
    (ht : f.after.head? = some t) : (kind isType t).isSymbol = true := by
  have hkind : ∀ {k : Kind}, kind isType t = k → k.isSymbol = true →
      (kind isType t).isSymbol = true := by
    rintro k rfl hsymbol
    exact hsymbol
  cases f with
  | paren l r =>
      cases ht
      exact hkind hf.2 rfl
  | construct type l r =>
      cases ht
      exact hkind hf.2.2 rfl
  | left op y =>
      cases ht
      have ⟨p, hp, _⟩ := hf
      exact (opens_operator hp).1
  | test q a k b =>
      cases ht
      exact hkind hf.1 rfl
  | consequence c q k b =>
      cases ht
      exact hkind hf.2.1 rfl
  | suffix s =>
      cases s with
      | step u =>
          cases ht
          exact hkind hf rfl
      | member dot name =>
          cases ht
          exact hkind hf.1 rfl
      | nullary l r =>
          cases ht
          exact hkind hf.1 rfl
  | callee l i r =>
      cases ht
      exact (opens_brackets hf.2).1
  | argument f l r =>
      cases ht
      rcases hf.2.2 with ⟨_, hr⟩ | ⟨_, hr⟩
      · exact hkind hr rfl
      · exact hkind hr rfl
  | unary => cases ht
  | right => cases ht
  | alternative => cases ht

theorem symbol_after {c : Ctx} (hc : c.WellFormed isType) {t : Token}
    (ht : c.after.head? = some t) : (kind isType t).isSymbol = true := by
  induction c with
  | nil => cases ht
  | cons f c ih =>
      rw [Ctx.after] at ht
      cases hafter : f.after with
      | nil =>
          rw [hafter, List.nil_append] at ht
          exact ih hc.2.2 ht
      | cons u us =>
          rw [hafter] at ht
          exact symbol_frame hc.1 (by rw [hafter]; exact ht)

/-! ## §3. New nodes. -/

/-- No place asks for more than a postfix expression. -/
theorem need_le_kPostfix {c : Ctx} (hc : c.WellFormed isType) : c.need isType ≤ kPostfix := by
  have hprec : ∀ {op : Token} {p : Prec}, (kind isType op).prec = some p →
      p.left ≤ kPostfix ∧ p.right ≤ kPostfix := by
    intro op p hp
    have hpostfix : kPostfix = 15 := rfl
    rcases prec_cases hp with rfl | rfl | ⟨n, _, hn, rfl⟩
    · exact ⟨Nat.zero_le _, by show 1 ≤ 15; omega⟩
    · exact ⟨by show 3 ≤ 15; omega, by show 1 ≤ 15; omega⟩
    · exact ⟨by show n ≤ 15; omega, by show n + 1 ≤ 15; omega⟩
  cases c with
  | nil => exact Nat.zero_le _
  | cons f c =>
      rw [Ctx.need]
      cases f with
      | left op y =>
          obtain ⟨p, hp, _⟩ := hc.1
          rw [Frame.need, hp]
          exact (hprec hp).1
      | right x op =>
          obtain ⟨p, hp, _⟩ := hc.1
          rw [Frame.need, hp]
          exact (hprec hp).2
      | paren => exact Nat.zero_le _
      | construct => exact Nat.zero_le _
      | unary => exact Nat.le_succ 14
      | test => show 3 ≤ 15; omega
      | consequence => exact Nat.zero_le _
      | alternative => show 1 ≤ 15; omega
      | suffix => exact Nat.le_refl _
      | callee => exact Nat.le_refl _
      | argument => exact Nat.zero_le _

/-- The first token begins like the operand of a member access. -/
def StartsOperand (e : Expr) : Prop :=
  ∃ t ts c cs, e.toks = t :: ts ∧ t.body = c :: cs ∧ c ∉ kSecond

/-- A node that begins like an operand runs into nothing in front of it. -/
theorem seam_before {c : Ctx} (hc : c.WellFormed isType) {e : Expr} (hlead : Blank e.lead)
    (he : StartsOperand e) : Seam rules c.before e.toks := by
  obtain ⟨t, ts, ch, cs, htoks, hbody, hch⟩ := he
  have htlead : Blank t.lead := by
    rw [Expr.lead, htoks] at hlead
    exact hlead
  intro u hu
  obtain ⟨hsymbol, hdot⟩ := opens_before hc hu
  rw [htoks]
  exact stops_token htlead hbody (grows_symbol (kindOf_symbol hsymbol) hdot hch)

/-- The last token is a word or a closing bracket. -/
def EndsOperand (isType : Text → Bool) (e : Expr) : Prop :=
  ∃ t, e.toks.getLast? = some t ∧ ((kind isType t).isWord = true ∨ kind isType t = .closeParen)

/-- A word or a bracket runs into no symbol. -/
theorem stops_symbol {t u : Token}
    (ht : (kind isType t).isWord = true ∨ kind isType t = .closeParen)
    (hu : (kind isType u).isSymbol = true) (hlead : Blank u.lead) (us : List Token) :
    Munch.Stops rules t.body (render (u :: us)) := by
  have ⟨c, cs, hbody, hword, _⟩ := symbol_head (kindOf_symbol hu)
  refine stops_token hlead hbody ?_
  rcases ht with ht | ht
  · rw [grows_word ht, hword]
  · exact grows_close (symbol_of_kind ht rfl) (Or.inl rfl) c

/-- Behind an operand the rest of a context makes a seam. -/
theorem seam_after {c : Ctx} (hc : c.WellFormed isType) (hok : LexOK rules c.after) {e : Expr}
    (he : EndsOperand isType e) : Seam rules e.toks c.after := by
  have ⟨t, hlast, ht⟩ := he
  intro u hu
  rw [hlast] at hu
  cases hu
  cases hafter : c.after with
  | nil => exact Munch.stops_nil _
  | cons u us =>
      rw [hafter] at hok
      exact stops_symbol ht (symbol_after hc (by rw [hafter]; rfl)) hok.1 us

/-! ## §4. Member access. -/

/-- A postfix expression starts with a word, a number or a parenthesis. -/
theorem startsOperand_postfix {v : Expr} (hv : v.WellFormed isType) (hle : kPostfix ≤ v.level isType) :
    ∃ t ts, v.toks = t :: ts ∧ ((kind isType t).isWord = true ∨ kind isType t = .number
      ∨ kind isType t = .openParen) := by
  induction v with
  | atom t =>
      rcases hv with h | h
      · exact ⟨t, [], rfl, Or.inl (by rw [h]; rfl)⟩
      · exact ⟨t, [], rfl, Or.inr (Or.inl h)⟩
  | paren l e r => exact ⟨l, _, rfl, Or.inr (Or.inr hv.1)⟩
  | construct type l args r => exact ⟨type, _, rfl, Or.inl (by rw [hv.1]; rfl)⟩
  | suffix e s ih =>
      obtain ⟨t, ts, htoks, ht⟩ := ih hv.1 hv.2.1
      exact ⟨t, ts ++ s.toks, by rw [Expr.toks, htoks]; rfl, ht⟩
  | apply e l i r ih _ =>
      obtain ⟨t, ts, htoks, ht⟩ := ih hv.1 hv.2.1
      exact ⟨t, ts ++ l :: (i.toks ++ [r]), by rw [Expr.toks, htoks]; rfl, ht⟩
  | unary p e => exact absurd hle (by show ¬ 15 ≤ 14; omega)
  | binary x op y =>
      obtain ⟨p, hp, _⟩ := hv
      rw [level_binary isType hp] at hle
      have := prec_level_le_mul hp
      have hpostfix : kPostfix = 15 := rfl
      omega
  | cond => exact absurd hle (by show ¬ 15 ≤ 2; omega)

theorem startsOperand {v : Expr} (hv : v.WellFormed isType) (hle : kPostfix ≤ v.level isType)
    (lead : Text) : StartsOperand (v.withLead lead) := by
  have ⟨t, ts, htoks, ht⟩ := startsOperand_postfix hv hle
  have ⟨c, cs, hbody, hc⟩ := head_operand ht
  exact ⟨⟨lead, t.body⟩, ts, c, cs, by rw [toks_withLead, htoks]; rfl, hbody, hc⟩

/-- How a postfix operand ends; only a bare number ends with a number. -/
theorem last_postfix {v : Expr} (hv : v.WellFormed isType) (hle : kPostfix ≤ v.level isType) :
    ∃ t, v.toks.getLast? = some t
      ∧ ((v = .atom t ∧ kind isType t = .number)
        ∨ (numberOf isType v = none ∧ ((kind isType t).isWord = true ∨ kind isType t = .closeParen
          ∨ kind isType t = .closeBracket ∨ kind isType t = .step))) := by
  cases v with
  | atom t =>
      rcases hv with h | h
      · exact ⟨t, rfl, Or.inr ⟨by rw [numberOf, h]; rfl, Or.inl (by rw [h]; rfl)⟩⟩
      · exact ⟨t, rfl, Or.inl ⟨rfl, h⟩⟩
  | paren l e r =>
      have hlist : l :: (e.toks ++ [r]) = (l :: e.toks) ++ [r] := rfl
      exact ⟨r, by rw [Expr.toks, hlist, List.getLast?_concat],
        Or.inr ⟨rfl, Or.inr (Or.inl hv.2.2)⟩⟩
  | construct type l args r =>
      have hlist : type :: l :: (args.toks ++ [r]) = (type :: l :: args.toks) ++ [r] := rfl
      exact ⟨r, by rw [Expr.toks, hlist, List.getLast?_concat],
        Or.inr ⟨rfl, Or.inr (Or.inl hv.2.2.2)⟩⟩
  | suffix e s =>
      have hs := hv.2.2
      cases s with
      | step t =>
          exact ⟨t, by rw [Expr.toks, Suffix.toks, List.getLast?_concat],
            Or.inr ⟨rfl, Or.inr (Or.inr (Or.inr hs))⟩⟩
      | member dot name =>
          have hlist : e.toks ++ [dot, name] = (e.toks ++ [dot]) ++ [name] := by simp
          exact ⟨name, by rw [Expr.toks, Suffix.toks, hlist, List.getLast?_concat],
            Or.inr ⟨rfl, Or.inl hs.2⟩⟩
      | nullary l r =>
          have hlist : e.toks ++ [l, r] = (e.toks ++ [l]) ++ [r] := by simp
          exact ⟨r, by rw [Expr.toks, Suffix.toks, hlist, List.getLast?_concat],
            Or.inr ⟨rfl, Or.inr (Or.inl hs.2)⟩⟩
  | apply e l i r =>
      have hlist : e.toks ++ l :: (i.toks ++ [r]) = (e.toks ++ l :: i.toks) ++ [r] := by simp
      refine ⟨r, by rw [Expr.toks, hlist, List.getLast?_concat], Or.inr ⟨rfl, ?_⟩⟩
      rcases hv.2.2.2 with ⟨_, hr⟩ | ⟨_, hr⟩
      · exact Or.inr (Or.inl hr)
      · exact Or.inr (Or.inr (Or.inl hr))
  | unary p e => exact absurd hle (by show ¬ 15 ≤ 14; omega)
  | binary x op y =>
      obtain ⟨p, hp, _⟩ := hv
      rw [level_binary isType hp] at hle
      have := prec_level_le_mul hp
      have hpostfix : kPostfix = 15 := rfl
      omega
  | cond => exact absurd hle (by show ¬ 15 ≤ 2; omega)

/-- A point behind an operand is a token of its own, unless the operand is a
number. -/
theorem seam_dot_iff {v : Expr} (hv : v.WellFormed isType) (hle : kPostfix ≤ v.level isType)
    (us : List Token) :
    Seam rules v.toks (⟨[], ['.']⟩ :: us) ↔ numberOf isType v = none := by
  obtain ⟨t, hlast, ht⟩ := last_postfix hv hle
  have hseam : Seam rules v.toks (⟨[], ['.']⟩ :: us) ↔ grows t.body '.' = false := by
    simp only [Seam, hlast, Option.some.injEq, forall_eq']
    exact Munch.stops_cons
  rw [hseam]
  rcases ht with ⟨rfl, hnumber⟩ | ⟨hno, ht⟩
  · rw [grows_number hnumber, numberOf, hnumber]
    simp
  · refine iff_of_true ?_ hno
    rcases ht with ht | ht | ht | ht
    · rw [grows_word ht]
      decide
    · exact grows_close (symbol_of_kind ht rfl) (Or.inl rfl) '.'
    · exact grows_close (symbol_of_kind ht rfl) (Or.inr rfl) '.'
    · exact grows_symbol (symbol_of_kind ht rfl) (by rintro ⟨⟩) (by decide)

/-- The member access `v.c`. -/
def member (v : Expr) (c : Char) : Expr := .suffix v (.member ⟨[], ['.']⟩ ⟨[], [c]⟩)

theorem nodeText_member (v : Expr) (c : Char) : nodeText (member v c) = nodeText v ++ ['.', c] := by
  rw [nodeText, member, Expr.toks, setLead_append _ v.toks_ne_nil, Munch.render_append, nodeText]
  rfl

def kSwizzle : List Char := ['x', 'y', 'z', 'w']

theorem kind_swizzle (isType : Text → Bool) {c : Char} (hc : c ∈ kSwizzle) :
    (kindOf isType [c]).isWord = true := by
  have hlook : (kSwizzle.all fun c => (symbols.lookup [c]).isNone && isWordStart c) = true := rfl
  have hs := List.all_eq_true.mp hlook c hc
  rw [Bool.and_eq_true, Option.isNone_iff_eq_none] at hs
  rw [kindOf, hs.1, Option.getD_none, wordKind, List.head?_cons, Option.any_some, if_pos hs.2]
  split <;> rfl

/-- **Access to a member of an operand**: well formed and made of tokens exactly
if the operand is a postfix expression and no number. -/
theorem part_member_iff {v : Expr} (hv : Part isType v) {lead : Text} (hlead : Blank lead) {c : Char}
    (hc : c ∈ kSwizzle) :
    Part isType (member (v.withLead lead) c) ↔ kPostfix ≤ v.level isType ∧ numberOf isType v = none := by
  have htokens : LexOK rules [(⟨[], ['.']⟩ : Token), ⟨[], [c]⟩] := by
    have hall : (kSwizzle.all fun c => !grows ['.'] c && grows [] c) = true := rfl
    have hs := List.all_eq_true.mp hall c hc
    rw [Bool.and_eq_true, Bool.not_eq_true'] at hs
    exact ⟨blank_nil, ⟨List.cons_ne_nil _ _, by decide, trivial⟩, Munch.stops_cons.mpr hs.1, blank_nil,
      ⟨List.cons_ne_nil _ _, hs.2, trivial⟩, Munch.stops_nil _, trivial⟩
  have hlex : LexOK rules (member (v.withLead lead) c).toks ↔
      LexOK rules (setLead lead v.toks) ∧ Seam rules v.toks [⟨[], ['.']⟩, ⟨[], [c]⟩] := by
    rw [member, Expr.toks, toks_withLead, Suffix.toks, Munch.lexOK_append, seam_setLead]
    exact and_congr_right fun _ => and_iff_right htokens
  rw [Part, hlex]
  constructor
  · rintro ⟨⟨_, hle, _⟩, _, hseam⟩
    rw [level_withLead] at hle
    exact ⟨hle, (seam_dot_iff hv.1 hle _).mp hseam⟩
  · rintro ⟨hle, hno⟩
    refine ⟨⟨(wellFormed_withLead lead v).mpr hv.1, by rwa [level_withLead], rfl, kind_swizzle isType hc⟩,
      lexOK_setLead hlead hv.2, (seam_dot_iff hv.1 hle _).mpr hno⟩

end ShaderClippy.Hlsl
